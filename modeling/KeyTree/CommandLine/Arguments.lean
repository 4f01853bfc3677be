import KeyTree.Config.Connection
import KeyTree.Key

/-!
# Arguments of the command line

A command line names a command, its paths and its options. Options stand anywhere among the
arguments of the command: a long option with a value takes it from the same argument after `=` or
from the next argument, short options may be joined, and `--` ends the options. What does not fit is
a usage error, and nothing is said here about it.

## Main definitions

* `Command`, `Invocation`, `Wish` — what is asked for.
* `Sorted`, `scan` — arguments sorted into paths, flags and values.
* `parse?` — the wish of a command line, nothing for a usage error.
-/

namespace KeyTree.CommandLine

/-- The commands. -/
inductive Command where
  | mkdir (uri : Path) (createParents : Bool)
  | ls (uri : Path) (recursive : Bool)
  | mv (source target : Path)
  | rm (uri : Path) (recursive : Bool)
  | stat (uri : Path)
deriving DecidableEq, Repr

/-- A command and how to connect. -/
structure Invocation where
  command : Command
  connection : ConnectionConfig
deriving DecidableEq, Repr

/-- What a command line asks for. -/
inductive Wish where
  | version
  | run (invocation : Invocation)
deriving DecidableEq, Repr

/-- The options. -/
inductive OptionName where
  | accessKeyId | secretAccessKey | sessionToken | region | endpoint | profile
  | recursive | parents | noParents
deriving DecidableEq, Repr

/-- An option as it is spelt. -/
structure OptionSpec where
  spelling : String
  option : OptionName
  takesValue : Bool
deriving DecidableEq, Repr

/-- The options of every command. -/
def connectionOptions : List OptionSpec :=
  [⟨"--access-key-id", .accessKeyId, true⟩, ⟨"--secret-access-key", .secretAccessKey, true⟩,
    ⟨"--session-token", .sessionToken, true⟩, ⟨"--region", .region, true⟩,
    ⟨"--endpoint-url", .endpoint, true⟩, ⟨"--aws-profile", .profile, true⟩]

/-- The option that applies a command to the whole subtree. -/
def recursiveOptions : List OptionSpec :=
  [⟨"--recursive", .recursive, false⟩, ⟨"-r", .recursive, false⟩]

/-- The options on missing parents. -/
def parentOptions : List OptionSpec :=
  [⟨"--parents", .parents, false⟩, ⟨"--no-parents", .noParents, false⟩]

/-- Arguments sorted into paths, in order, and options, the latest first. -/
structure Sorted where
  paths : List Path := []
  flags : List OptionName := []
  values : List (OptionName × String) := []
deriving DecidableEq, Repr

namespace Sorted

/-- Whether a flag is set. -/
def has (sorted : Sorted) (flag : OptionName) : Bool :=
  sorted.flags.contains flag

/-- The value of an option, the last one given. -/
def value? (sorted : Sorted) (option : OptionName) : Option String :=
  sorted.values.lookup option

end Sorted

/-- The option of a spelling. -/
def spelled? (specs : List OptionSpec) (spelling : List Char) : Option OptionSpec :=
  specs.find? fun spec => spec.spelling.toList = spelling

/-- The flags of joined short options. -/
def shortFlags? (specs : List OptionSpec) (letters : List Char) : Option (List OptionName) :=
  letters.mapM fun letter => (spelled? specs ['-', letter]).map OptionSpec.option

/-- Where the scan of arguments stands. -/
inductive Expecting where
  /-- Any argument. -/
  | any
  /-- The value of an option. -/
  | valueOf (option : OptionName)
  /-- Paths only. -/
  | paths
deriving DecidableEq, Repr

/-- One argument that looks like an option: the arguments sorted so far with it, and what comes
next. -/
def scanOption? (specs : List OptionSpec) (sorted : Sorted) (argument : List Char) :
    Option (Expecting × Sorted) :=
  let name := argument.takeWhile (· ≠ '=')
  let assigned := (argument.dropWhile (· ≠ '=')).drop 1
  let isAssigned := '=' ∈ argument
  match spelled? (specs.filter fun spec => spec.spelling.toList.take 2 = ['-', '-']) name with
  | some spec =>
    if spec.takesValue then
      if isAssigned then
        let values := (spec.option, String.ofList assigned) :: sorted.values
        some (.any, { sorted with values })
      else some (.valueOf spec.option, sorted)
    else if isAssigned then none
    else some (.any, { sorted with flags := spec.option :: sorted.flags })
  | none =>
    if ['-', '-'] <+: argument then none
    else (shortFlags? specs (argument.drop 1)).map fun flags =>
      (.any, { sorted with flags := flags.reverse ++ sorted.flags })

/-- Arguments sorted into paths and options, nothing if one is unknown or lacks its value. -/
def scan? (specs : List OptionSpec) : Expecting → Sorted → List (List Char) → Option Sorted
  | .valueOf _, _, [] => none
  | _, sorted, [] => some sorted
  | .valueOf option, sorted, argument :: more =>
    let values := (option, String.ofList argument) :: sorted.values
    scan? specs .any { sorted with values } more
  | .paths, sorted, argument :: more =>
    scan? specs .paths { sorted with paths := sorted.paths ++ [argument] } more
  | .any, sorted, argument :: more =>
    if argument = ['-', '-'] then scan? specs .paths sorted more
    else if argument.head? = some '-' ∧ argument ≠ ['-'] then
      (scanOption? specs sorted argument).bind fun (expecting, sorted) =>
        scan? specs expecting sorted more
    else scan? specs .any { sorted with paths := sorted.paths ++ [argument] } more

/-- The connection that the options describe. -/
def connectionOf (sorted : Sorted) : ConnectionConfig :=
  { ConnectionConfig.standard with
    accessKeyId := sorted.value? .accessKeyId
    secretAccessKey := sorted.value? .secretAccessKey
    sessionToken := sorted.value? .sessionToken
    region := (sorted.value? .region).getD ConnectionConfig.standard.region
    endpoint := sorted.value? .endpoint
    profile := sorted.value? .profile }

/-- Whether missing parents are to be created: as the last option on them says, otherwise yes. -/
def createsParents (sorted : Sorted) : Bool :=
  (sorted.flags.find? fun flag => flag = .parents || flag = .noParents) ≠ some .noParents

/-- The invocation of a command with its arguments. -/
def invocation? (name : List Char) (arguments : List (List Char)) : Option Invocation := do
  let extra ←
    if name = "mkdir".toList then some parentOptions
    else if name = "ls".toList ∨ name = "rm".toList then some recursiveOptions
    else if name = "mv".toList ∨ name = "stat".toList then some []
    else none
  let sorted ← scan? (connectionOptions ++ extra) .any {} arguments
  let command ←
    match sorted.paths with
    | [uri] =>
      if name = "mkdir".toList then some (.mkdir uri (createsParents sorted))
      else if name = "ls".toList then some (.ls uri (sorted.has .recursive))
      else if name = "rm".toList then some (.rm uri (sorted.has .recursive))
      else if name = "stat".toList then some (.stat uri)
      else none
    | [source, target] => if name = "mv".toList then some (Command.mv source target) else none
    | _ => none
  return { command, connection := connectionOf sorted }

/-- Whether arguments ask for the version before a command. Further options before the command have
to be the same question. -/
def asksVersion (arguments : List (List Char)) : Bool :=
  let next := (arguments.dropWhile (· = "--version".toList)).head?.getD []
  arguments.head? = some "--version".toList &&
    (next.head? ≠ some '-' || next = ['-'] || next = ['-', '-'])

/-- The wish of a command line. Before the command only the question for the version is an option,
and it is answered whatever follows it. After `--` comes the command; if there is none of that name,
the question for the version is still looked for there. -/
def parse? : List (List Char) → Option Wish
  | [] => none
  | argument :: more =>
    if asksVersion (argument :: more) then some .version
    else if argument = ['-', '-'] then
      match more with
      | [] => none
      | name :: arguments =>
        if asksVersion more then some .version else (invocation? name arguments).map .run
    else (invocation? argument more).map .run

end KeyTree.CommandLine
