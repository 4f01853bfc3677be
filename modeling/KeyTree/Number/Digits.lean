/-!
# Digits of integers

Sizes are shown with a comma before every third digit from the right, and flush right in columns.
Dates and exponents have a least number of digits.
-/

namespace KeyTree.Number

/-- The text with copies of `fill` in front, at least `width` characters long. -/
def flushRight (fill : Char) (width : Nat) (text : List Char) : List Char :=
  List.replicate (width - text.length) fill ++ text

/-- Decimal digits with zeros in front, at least `width` of them. -/
def padded (width n : Nat) : List Char :=
  flushRight '0' width (Nat.toDigits 10 n)

/-- The digits of a magnitude with a minus in front for negative integers. -/
def signed (n : Int) (digits : List Char) : List Char :=
  if n < 0 then '-' :: digits else digits

/-- The decimal digits of an integer. -/
def plain (n : Int) : List Char :=
  signed n (Nat.toDigits 10 n.natAbs)

/-- A comma after every third digit, on digits from the last to the first. -/
def groupReversed : List Char → List Char
  | a :: b :: c :: d :: rest => a :: b :: c :: ',' :: groupReversed (d :: rest)
  | few => few

/-- The decimal digits of an integer in groups of three. -/
def grouped (n : Int) : List Char :=
  signed n (groupReversed (Nat.toDigits 10 n.natAbs).reverse).reverse

/-- The octal digits of an integer after the mark `0o`. -/
def octal (n : Int) : List Char :=
  signed n ('0' :: 'o' :: Nat.toDigits 8 n.natAbs)

example : grouped (-1234567) = ['-', '1', ',', '2', '3', '4', ',', '5', '6', '7'] := by decide

example : grouped 100 = ['1', '0', '0'] := by decide

example : octal 511 = ['0', 'o', '7', '7', '7'] := by decide

end KeyTree.Number
