/-!
# Text without terminal controls

What is written for a reader holds no control sequences of a terminal, and its lines end with a line
feed alone. A control sequence is an escape character, an opening bracket, parameters, and a letter.

## Main definitions

* `withoutControls` — a text without its control sequences.
* `withLineFeeds` — a text with a line feed for each pair of carriage return and line feed.
-/

namespace KeyTree.Text

/-- The characters between the bracket of a control sequence and its letter. -/
def isControlParameter (c : Char) : Bool :=
  c = ';' || c = '?' || c.isDigit

/-- The length of the control sequence that a text starts with, zero if it starts with none. -/
def controlLength : List Char → Nat
  | '\x1b' :: '[' :: rest =>
    match rest.dropWhile isControlParameter with
    | c :: _ => if c.isAlpha then (rest.takeWhile isControlParameter).length + 3 else 0
    | [] => 0
  | _ => 0

/-- The text from the given number of characters on, without its control sequences. -/
def withoutControlsFrom : Nat → List Char → List Char
  | _, [] => []
  | skip + 1, _ :: rest => withoutControlsFrom skip rest
  | 0, c :: rest =>
    match controlLength (c :: rest) with
    | 0 => c :: withoutControlsFrom 0 rest
    | skip + 1 => withoutControlsFrom skip rest

/-- The text without its control sequences. One that comes about by leaving out another one
stays. -/
def withoutControls (text : List Char) : List Char :=
  withoutControlsFrom 0 text

/-- The text with a line feed for each pair of carriage return and line feed. -/
def withLineFeeds : List Char → List Char
  | [] => []
  | c :: rest =>
    if c = '\r' ∧ rest.head? = some '\n' then withLineFeeds rest else c :: withLineFeeds rest

example : withoutControls ['a', '\x1b', '[', '1', ';', '3', 'm', 'b'] = ['a', 'b'] := by decide

example : withoutControls ['\x1b', '[', '\x1b', '[', 'm', '3', 'm'] = ['\x1b', '[', '3', 'm'] := by
  decide

example : withLineFeeds ['a', '\r', '\r', '\n'] = ['a', '\r', '\n'] := by decide

end KeyTree.Text
