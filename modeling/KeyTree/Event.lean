/-!
# Events

What an operation tells about its course: a level, a text, and named data beside it.
-/

namespace KeyTree

/-- How grave an event is. -/
inductive Level where
  | debug | info | warning | error
deriving DecidableEq, Repr

namespace Level

/-- The levels in order. -/
def rank : Level → Nat
  | debug => 0
  | info => 1
  | warning => 2
  | error => 3

/-- The name of a level. -/
def name : Level → String
  | debug => "debug"
  | info => "info"
  | warning => "warning"
  | error => "error"

end Level

/-- A piece of data beside an event. -/
inductive Datum where
  | text (s : List Char)
  | number (n : Int)
  | flag (b : Bool)
deriving DecidableEq, Repr

/-- An event. -/
structure Event where
  level : Level
  text : List Char
  context : List (String × Datum)
deriving DecidableEq, Repr

end KeyTree
