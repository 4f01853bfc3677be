import KeyTree.CommandLine.Arguments
import KeyTree.FileSystem.Rename
import KeyTree.FileSystem.Stream
import KeyTree.Number.Digits
import KeyTree.Text.Terminal

/-!
# Running commands

A command opens the file system of the bucket that its URI names and carries out one operation. The
outcome is an exit code and what is written to the two output streams. The connection to the store
is opened when the first request is sent.

## Main definitions

* `Outcome` — what a command ends with.
* `fileSystemAt` — the file system of a URI.
* `execute` — carrying out a command.
* `run` — carrying out a command line.
-/

namespace KeyTree.CommandLine

/-- What a command ends with. -/
structure Outcome where
  exitCode : Nat
  output : List Char := []
  errors : List Char := []
  /-- An error that the command did not report. -/
  escaped : Option Error := none
deriving DecidableEq

namespace Outcome

/-- Lines of output, each ended. Control sequences of a terminal are left out of each line first,
carriage returns before line feeds from the whole. -/
def lines (texts : List (List Char)) : List Char :=
  Text.withLineFeeds (texts.flatMap fun text => Text.withoutControls text ++ ['\n'])

/-- Success with lines of output. -/
def success (texts : List (List Char)) : Outcome :=
  { exitCode := 0, output := lines texts }

/-- A reported error. -/
def failure (text : List Char) : Outcome :=
  { exitCode := 1, errors := lines ["Error: ".toList ++ text] }

/-- A usage error. -/
def usage : Outcome :=
  { exitCode := 2 }

/-- An error that is not reported. -/
def escape (error : Error) : Outcome :=
  { exitCode := 1, escaped := some error }

end Outcome

/-- The file system of the bucket that a URI names. -/
def fileSystemAt (uri : Path) (connection : ConnectionConfig) (config : TreeConfig) :
    StoreM FileSystem := do
  match Location.parse uri with
  | .error fault => throw (.location fault)
  | .ok location =>
    let bucket : Bucket := ⟨location.bucket⟩
    log .debug "S3 path parsed".toList
      [("bucket", .text location.bucket), ("prefix", .text location.rest)]
    log .info "S3 client manager initialized".toList
      [("region", .text connection.region.toList)]
    log .info "S3 gateway initialized".toList [("bucket", .text location.bucket)]
    log .info "Object filesystem initialized".toList [("root", .text bucket.root)]
    return { bucket, config }

/-- What a computation ends with, as a value. -/
def outcomeOf {α : Type} (x : StoreM α) : StoreM (Except Error α) :=
  tryCatch (do return .ok (← x)) fun error => return .error error

/-- Carries out an operation and reports its errors. -/
def reporting {α : Type} (operation : StoreM α) (report : α → Outcome) : StoreM Outcome := do
  match ← outcomeOf operation with
  | .ok a => return report a
  | .error error => return .failure error.message

/-- The line of an entry in a listing. -/
def entryLine (entry : Status) : List Char :=
  if entry.isDirectory then
    "d ".toList ++ Number.flushRight ' ' 12 ['-'] ++ "  ".toList ++ entry.name ++ ['/']
  else
    "- ".toList ++ Number.flushRight ' ' 12 (Number.grouped entry.length) ++ "  ".toList ++
      entry.name

/-- The outcome of a listing. -/
def listingOutcome (uri : Path) : Option (List Status) → Outcome
  | none => .failure (uri ++ " is not a directory or cannot be listed".toList)
  | some [] => .success ["No entries found.".toList]
  | some entries => .success (entries.map entryLine)

/-- What is told about a path. -/
structure Description where
  isDirectory : Bool
  size : Int
  milliseconds : Int
  mode : Int
deriving DecidableEq, Repr

/-- Looks a path up. -/
def describe (fs : FileSystem) (path : Path) : StoreM Description := do
  let isDirectory ← fs.isDirectory path
  let size ← fs.fileSize path
  let milliseconds ← fs.modificationMilliseconds path
  return { isDirectory, size, milliseconds, mode := fs.mode path }

/-- The lines that describe a path, unless its time cannot be printed. -/
def descriptionOutcome (uri : Path) (description : Description) : Outcome :=
  let modified := Instant.ofMilliseconds description.milliseconds
  match modified.iso? with
  | none => .escape (.unprintableTime modified)
  | some date =>
    .success
      ["Path: ".toList ++ uri,
        "Type: ".toList ++ (if description.isDirectory then "directory" else "file").toList,
        "Size: ".toList ++ Number.grouped description.size ++ " bytes".toList,
        "Modified: ".toList ++ date,
        "Mode: ".toList ++ Number.octal description.mode]

/-- Carries out a command. -/
def execute (invocation : Invocation) : StoreM Outcome := do
  let fileSystem (uri : Path) := fileSystemAt uri invocation.connection .standard
  match invocation.command with
  | .mkdir uri createParents =>
    reporting (do (← fileSystem uri).mkdirs (some uri) createParents) fun created =>
      if created then .success ["Created directory: ".toList ++ uri]
      else .failure ("could not create directory ".toList ++ uri)
  | .ls uri recursive =>
    reporting (do (← fileSystem uri).listStatus uri recursive) (listingOutcome uri)
  | .mv source target =>
    let moving : StoreM Bool := do
      let fs ← fileSystem source
      -- a target outside the bucket is refused before anything is touched
      let _ ← fs.key target
      if ← fs.isFile source then fs.renameFile source target
      else fs.renameDirectory source target
    reporting moving fun moved =>
      if moved then .success ["Renamed ".toList ++ source ++ " -> ".toList ++ target]
      else .failure ("could not rename ".toList ++ source ++ " to ".toList ++ target)
  | .rm uri recursive =>
    reporting (do (← fileSystem uri).delete uri recursive) fun deleted =>
      if deleted then .success ["Deleted: ".toList ++ uri]
      else .failure ("could not delete ".toList ++ uri)
  | .stat uri =>
    reporting (do describe (← fileSystem uri) uri) (descriptionOutcome uri)

/-- What is recorded when a connection is opened. -/
def connectionEvent (connection : Connection) : Event :=
  match connection.credentials with
  | .profile name =>
    ⟨.info, "S3 client created with profile".toList, [("profile", .text name.toList)]⟩
  | .explicit .. => ⟨.info, "S3 client created with explicit credentials".toList, []⟩
  | .defaultChain => ⟨.info, "S3 client created with default credential chain".toList, []⟩

/-- Journal entries, the earliest first, with a connection opened before the first request. -/
def withConnection (connection : Connection) : List Entry → List Entry
  | [] => []
  | .request request :: more =>
    .connection connection :: .event (connectionEvent connection) :: .request request :: more
  | entry :: more => entry :: withConnection connection more

/-- The text that answers the question for the version. -/
def versionText : List Char :=
  "bucketfs 0.1.0".toList

/-- The journal of a command that began with `count` entries, with the connection that its first
request opened. -/
def connectionShown (connection : Connection) (count : Nat) (journal : List Entry) : List Entry :=
  let fresh := journal.length - count
  (withConnection connection (journal.take fresh).reverse).reverse ++ journal.drop fresh

/-- Carries out a command line. The journal shows the connection that the first request opens. -/
def run (arguments : List (List Char)) : StoreM Outcome := do
  match parse? arguments with
  | none => return .usage
  | some .version => return .success [versionText]
  | some (.run invocation) =>
    let count := (← get).journal.length
    let outcome ← execute invocation
    modify fun world =>
      { world with
        journal :=
          connectionShown (Connection.ofConfig invocation.connection) count world.journal }
    return outcome

end KeyTree.CommandLine
