import KeyTree.Number.Numeral
import KeyTree.Text.Quoted

/-!
# Configuration values

A configuration arrives as named values of no fixed type. Each field reads its value leniently: a
numeral may be written as text or as a truth value, a truth value as a word or as zero or one. What
cannot be read is a *problem*, and every field reports its own.

## Main definitions

* `Value` — a value as it arrives.
* `Problem` — why a value cannot be used, with its kind and its text.
* `Value.text?`, `Value.optionalText?`, `Value.integer?`, `Value.number?`, `Value.flag?`,
  `Value.choice?` — the readings.
-/

namespace KeyTree.Config

open Number

/-- A value as it arrives. -/
inductive Value where
  | null
  | flag (b : Bool)
  | integer (n : Int)
  | number (x : Binary64)
  | text (s : String)
  /-- A list or a record; no field takes one. -/
  | compound
deriving DecidableEq, Repr

/-- Why a value cannot be used. -/
inductive Problem where
  | notText
  | notInteger
  | noInteger
  | longInteger
  | fractional
  | notFinite
  | notNumber
  | noNumber
  | notFlag
  | noFlag
  | notAbove (bound : Int)
  | below (bound : Int)
  | notAmong (choices : List String)
  | emptySuffix
  | separatorInSuffix (suffix : List Char)
  | unknownField
  | frozen
deriving DecidableEq, Repr

namespace Problem

/-- The kind of a problem, as a short tag. -/
def kind : Problem → String
  | notText => "string_type"
  | notInteger => "int_type"
  | noInteger => "int_parsing"
  | longInteger => "int_parsing_size"
  | fractional => "int_from_float"
  | notFinite => "finite_number"
  | notNumber => "float_type"
  | noNumber => "float_parsing"
  | notFlag => "bool_type"
  | noFlag => "bool_parsing"
  | notAbove _ => "greater_than"
  | below _ => "greater_than_equal"
  | notAmong _ => "literal_error"
  | emptySuffix | separatorInSuffix _ => "value_error"
  | unknownField => "extra_forbidden"
  | frozen => "frozen_instance"

/-- Choices between single quotes, the last one after `or`. -/
def listed : List String → String
  | [] => ""
  | [a] => "'" ++ a ++ "'"
  | [a, b] => "'" ++ a ++ "' or '" ++ b ++ "'"
  | a :: more => "'" ++ a ++ "', " ++ listed more

/-- The text of a problem. -/
def message : Problem → String
  | notText => "Input should be a valid string"
  | notInteger => "Input should be a valid integer"
  | noInteger => "Input should be a valid integer, unable to parse string as an integer"
  | longInteger => "Unable to parse input string as an integer, exceeded maximum size"
  | fractional => "Input should be a valid integer, got a number with a fractional part"
  | notFinite => "Input should be a finite number"
  | notNumber => "Input should be a valid number"
  | noNumber => "Input should be a valid number, unable to parse string as a number"
  | notFlag => "Input should be a valid boolean"
  | noFlag => "Input should be a valid boolean, unable to interpret input"
  | notAbove bound => "Input should be greater than " ++ toString bound
  | below bound => "Input should be greater than or equal to " ++ toString bound
  | notAmong choices => "Input should be " ++ listed choices
  | emptySuffix => "Value error, folder_suffix must not be empty"
  | separatorInSuffix suffix =>
    "Value error, folder_suffix must not contain the path separator: " ++
      String.ofList (Text.Quoted.encode suffix)
  | unknownField => "Extra inputs are not permitted"
  | frozen => "Instance is frozen"

end Problem

/-- A value read for a field, or why it cannot be used. -/
abbrev Reading (α : Type) := Except Problem α

namespace Value

/-- A text stands for itself; nothing else does. -/
def text? : Value → Reading String
  | .text s => .ok s
  | _ => .error .notText

/-- A text, or none. -/
def optionalText? : Value → Reading (Option String)
  | .null => .ok none
  | v => v.text?.map some

/-- Whether an integer has a signed representation of 64 bits. -/
def fitsWord (n : Int) : Bool :=
  -9223372036854775808 ≤ n && n ≤ 9223372036854775807

/-- The whole number that a binary64 number equals, strictly between the ends of the signed range of
64 bits. -/
def wholeOf (x : Binary64) : Reading Int :=
  match x.whole? with
  | none => .error (if x.isFinite then .fractional else .notFinite)
  | some n => if n.natAbs < 9223372036854775808 then .ok n else .error .longInteger

/-- An integer: written as such, as a truth value, as a whole number or as a numeral. -/
def integer? : Value → Reading Int
  | .integer n => .ok n
  | .flag b => .ok (if b then 1 else 0)
  | .number x => wholeOf x
  | .text s =>
    match Numeral.integer? s.toList with
    | .ok n => .ok n
    | .error .malformed => .error .noInteger
    | .error .tooLong => .error .longInteger
  | _ => .error .notInteger

/-- A binary64 number: written as such, as an integer that is not too large, as a truth value or as
a numeral. -/
def number? : Value → Reading Binary64
  | .integer n =>
    match Binary64.ofDecimal (n < 0) n.natAbs 0 with
    | .infinite _ => .error .notNumber
    | x => .ok x
  | .number x => .ok x
  | .flag b => .ok (Binary64.ofDecimal false (if b then 1 else 0) 0)
  | .text s =>
    match Numeral.binary64? s.toList with
    | some x => .ok x
    | none => .error .noNumber
  | _ => .error .notNumber

/-- The words for yes. -/
def yesWords : List String := ["1", "t", "true", "y", "yes", "on"]

/-- The words for no. -/
def noWords : List String := ["0", "f", "false", "n", "no", "off"]

/-- Zero and one as truth values. -/
def flagOfInteger (n : Int) : Reading Bool :=
  if n = 1 then .ok true else if n = 0 then .ok false else .error .noFlag

/-- A truth value: written as such, as zero or one, or as a word in any letter case. -/
def flag? : Value → Reading Bool
  | .flag b => .ok b
  | .integer n => if fitsWord n then flagOfInteger n else .error .notFlag
  | .number x =>
    match wholeOf x with
    | .ok n => flagOfInteger n
    | .error _ => .error .notFlag
  | .text s =>
    let word := String.ofList (s.toList.map Char.toLower)
    if word ∈ yesWords then .ok true
    else if word ∈ noWords then .ok false
    else .error .noFlag
  | _ => .error .notFlag

/-- One of the given texts, spelt exactly so. -/
def choice? (choices : List String) : Value → Reading String
  | .text s => if s ∈ choices then .ok s else .error (.notAmong choices)
  | _ => .error (.notAmong choices)

end Value

end KeyTree.Config
