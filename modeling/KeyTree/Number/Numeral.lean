import KeyTree.Number.Binary64
import KeyTree.Text.Blank

/-!
# Reading numerals

Texts that stand for numbers: integers with an optional sign, single underscores between digits and
a fraction of zeros; binary64 numbers in positional or exponent notation, or by name.

## Main definitions

* `Numeral.integer?` — the integer that a text stands for, or why it stands for none.
* `Numeral.binary64?` — the binary64 number that a text stands for.
-/

namespace KeyTree.Number.Numeral

/-- The value of digits read after `acc`, nothing if there is another character. -/
def digitsFrom (acc : Nat) : List Char → Option Nat
  | [] => some acc
  | c :: rest => if c.isDigit then digitsFrom (10 * acc + (c.toNat - '0'.toNat)) rest else none

/-- The value of a non-empty text of digits. -/
def digits? (text : List Char) : Option Nat :=
  if text.isEmpty then none else digitsFrom 0 text

/-- The text without underscores, nothing if an underscore stands at an end or beside another. -/
def withoutUnderscores? (text : List Char) : Option (List Char) :=
  let doubled := (text.zip (text.drop 1)).any fun (c, next) => c = '_' && next = '_'
  if text.head? = some '_' ∨ text.getLast? = some '_' ∨ doubled then none
  else some (text.filter (· ≠ '_'))

/-- A sign taken off the front: whether it was a minus, and the rest. -/
def splitSign : List Char → Bool × List Char
  | '-' :: rest => (true, rest)
  | '+' :: rest => (false, rest)
  | text => (false, text)

/-! ### Integers -/

/-- Why a text stands for no integer. -/
inductive IntegerFault where
  | malformed
  /-- There are more digits than `integerDigits`. -/
  | tooLong
deriving DecidableEq, Repr

/-- The largest number of digits of an integer, those dropped from its front aside. -/
def integerDigits : Nat := 4300

/-- What is left of a text after a zero in front, `last` being the character read last: zeros and
underscores are dropped up to a digit or a minus sign. The last of them stays in front of a point
and at the end. -/
def afterZero? (last : Char) : List Char → Option (List Char)
  | [] => some [last]
  | c :: rest =>
    if c = '0' ∨ c = '_' then afterZero? c rest
    else if c.isDigit ∨ c = '-' then some (c :: rest)
    else if c = '.' then some (last :: c :: rest)
    else none

/-- The text without needless zeros in front, nothing if it does not start with a digit. -/
def withoutZeros? : List Char → Option (List Char)
  | [] => none
  | c :: rest =>
    if c = '0' then afterZero? c rest else if c.isDigit then some (c :: rest) else none

/-- The text without a fraction of zeros; any other text stays as it is. -/
def withoutZeroFraction (text : List Char) : List Char :=
  let fraction := (text.dropWhile (· ≠ '.')).drop 1
  if fraction ≠ [] ∧ fraction.all (· = '0') then text.takeWhile (· ≠ '.') else text

/-- A text without sign as a plain numeral: needless zeros, a fraction of zeros and single
underscores are dropped. -/
def plain? (text : List Char) : Option (List Char) :=
  (withoutZeros? text).map fun digits =>
    let whole := withoutZeroFraction digits
    (withoutUnderscores? whole).getD whole

/-- The magnitude of digits without a needless zero in front. -/
def magnitude? (text : List Char) : Except IntegerFault Nat :=
  match text with
  | [] | '0' :: _ :: _ => .error .malformed
  | _ =>
    if integerDigits < (text.takeWhile Char.isDigit).length then .error .tooLong
    else (digits? text).elim (.error .malformed) .ok

/-- The integer of digits with a possible minus sign. -/
def signedInteger? : List Char → Except IntegerFault Int
  | '-' :: rest => (magnitude? rest).map fun n => -(n : Int)
  | text => (magnitude? text).map fun n => (n : Int)

/-- A text as a plain numeral: blanks at the ends and a plus sign are dropped, and what `plain?`
drops after the sign. -/
def tidied? (text : List Char) : Option (List Char) :=
  match Text.trimBlank text with
  | '+' :: rest => plain? rest
  | '-' :: rest => (plain? rest).map ('-' :: ·)
  | rest => plain? rest

/-- The integer that a text stands for: blanks at the ends, a sign, digits with single underscores
between them, and possibly a point with zeros and nothing but zeros after it. Zeros and underscores
in front of the digits do not count, and a minus sign may stand after them. Only a text that starts
as a plain numeral is too long; one that has to be tidied first is malformed instead. -/
def integer? (text : List Char) : Except IntegerFault Int :=
  match signedInteger? text with
  | .error .malformed =>
    ((tidied? text).bind fun plain => (signedInteger? plain).toOption).elim (.error .malformed) .ok
  | result => result

/-! ### Binary64 numbers -/

/-- The exponent after its mark, if the text has one. -/
def exponent? : List Char → Option Int
  | [] => some 0
  | mark :: rest => do
    guard (mark = 'e' ∨ mark = 'E')
    let (negative, unsigned) := splitSign rest
    let n ← digits? unsigned
    return if negative then -(n : Int) else n

/-- A text without blanks, underscores and sign as a binary64 number. -/
def unsigned? (negative : Bool) (text : List Char) : Option Binary64 :=
  let lower := text.map Char.toLower
  if lower = ['i', 'n', 'f'] ∨ lower = ['i', 'n', 'f', 'i', 'n', 'i', 't', 'y'] then
    some (.infinite negative)
  else if lower = ['n', 'a', 'n'] then some .nan
  else do
    let whole := text.takeWhile Char.isDigit
    let afterWhole := text.dropWhile Char.isDigit
    let (fraction, rest) := match afterWhole with
      | '.' :: more => (more.takeWhile Char.isDigit, more.dropWhile Char.isDigit)
      | other => ([], other)
    let coefficient ← digits? (whole ++ fraction)
    let power ← exponent? rest
    return Binary64.ofDecimal negative coefficient (power - fraction.length)

/-- A signed text without blanks and underscores as a binary64 number. -/
def signed? (text : List Char) : Option Binary64 :=
  let (negative, rest) := splitSign text
  unsigned? negative rest

/-- The binary64 number that a text stands for. Blanks at the ends are dropped; failing that, single
underscores between other characters are. -/
def binary64? (text : List Char) : Option Binary64 :=
  match signed? (Text.trimBlank text) with
  | some x => some x
  | none => (withoutUnderscores? text).bind signed?

example : plain? ['1', '_', '0', '.', '0'] = some ['1', '0'] := by decide

example : plain? ['0', '_', '_', '-', '5'] = some ['-', '5'] := by decide

example : plain? ['7', '.'] = some ['7', '.'] := by decide

end KeyTree.Number.Numeral
