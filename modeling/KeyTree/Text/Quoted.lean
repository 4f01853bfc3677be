import KeyTree.Text.Printable

/-!
# Quoted text

Messages that show a text verbatim put it between quotes and spell out the characters that would
not print by their code points. Single quotes are preferred; a text that holds a single quote and no
double quote stands between double quotes.
-/

namespace KeyTree.Text.Quoted

/-- A digit of base sixteen, in lower case. -/
def hexDigit (n : Nat) : Char :=
  if n < 10 then Char.ofNat ('0'.toNat + n) else Char.ofNat ('a'.toNat + (n - 10))

/-- The last digits of a number in base sixteen, as many as asked for. -/
def hexDigits : Nat → Nat → List Char
  | 0, _ => []
  | count + 1, n => hexDigits count (n / 16) ++ [hexDigit (n % 16)]

/-- A character spelt out by its code point, in two, four or eight digits of base sixteen. -/
def codePoint (c : Char) : List Char :=
  let n := c.toNat
  if n < 0x100 then '\\' :: 'x' :: hexDigits 2 n
  else if n < 0x10000 then '\\' :: 'u' :: hexDigits 4 n
  else '\\' :: 'U' :: hexDigits 8 n

/-- A character as it stands between the quote characters `quote`. -/
def escape (quote c : Char) : List Char :=
  if c = '\\' ∨ c = quote then ['\\', c]
  else if c = '\n' then ['\\', 'n']
  else if c = '\t' then ['\\', 't']
  else if c = '\r' then ['\\', 'r']
  else if isPrintable c then [c]
  else codePoint c

/-- The quote character that a text is put between. -/
def quoteFor (text : List Char) : Char :=
  if '\'' ∈ text ∧ '"' ∉ text then '"' else '\''

/-- The text between quotes. -/
def encode (text : List Char) : List Char :=
  let quote := quoteFor text
  quote :: (text.flatMap (escape quote) ++ [quote])

example : encode ['i', 't', '\'', 's'] = ['"', 'i', 't', '\'', 's', '"'] := by decide

example : encode ['\'', '"'] = ['\'', '\\', '\'', '"', '\''] := by decide

example : encode ['\x00', '\n'] = ['\'', '\\', 'x', '0', '0', '\\', 'n', '\''] := by
  decide +kernel

end KeyTree.Text.Quoted
