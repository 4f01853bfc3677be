import KeyTree.Number.Numeral

/-!
# Addresses of hosts

The numeric addresses that can stand for a host: four octets with points between them, eight groups
of sixteen bits with colons between them, and addresses of a version that is still to come, which
name it.

## Main definitions

* `Host.isVersion4` — four octets.
* `Host.isVersion6` — eight groups, a run of zero groups possibly left out.
* `Host.isFuture` — a version and something after it.
-/

namespace KeyTree.Host

/-- The pieces of a text between occurrences of a character, empty ones included. -/
def piecesBetween (mark : Char) : List Char → List (List Char)
  | [] => [[]]
  | c :: rest =>
    if c = mark then [] :: piecesBetween mark rest
    else match piecesBetween mark rest with
      | [] => [[c]]
      | piece :: more => (c :: piece) :: more

/-- A digit of base sixteen, in either letter case. -/
def isHexDigit (c : Char) : Bool :=
  c.isDigit || ('a' ≤ c && c ≤ 'f') || ('A' ≤ c && c ≤ 'F')

/-! ### Version 4 -/

/-- A number up to 255 without a needless zero in front. -/
def isOctet (text : List Char) : Bool :=
  (text.head? ≠ some '0' || text.length = 1) &&
    (Number.Numeral.digits? text).any (· ≤ 255)

/-- Four octets with points between them. -/
def isVersion4 (text : List Char) : Bool :=
  let octets := piecesBetween '.' text
  octets.length = 4 && octets.all isOctet

/-! ### Version 6 -/

/-- Up to four digits of base sixteen. -/
def isGroup (text : List Char) : Bool :=
  text ≠ [] && text.length ≤ 4 && text.all isHexDigit

/-- The pieces with two groups in place of an address of version 4 at the end, nothing if what
stands there has a point and is no such address. -/
def withoutOctets? (pieces : List (List Char)) : Option (List (List Char)) :=
  let last := pieces.getLast?.getD []
  if '.' ∉ last then some pieces
  else if isVersion4 last then some (pieces.dropLast ++ [['0'], ['0']])
  else none

/-- The number of groups on one side of the gap, nothing if one is no group. A side may be
empty. -/
def sideLength? (side : List (List Char)) : Option Nat :=
  if side = [[]] then some 0 else if side.all isGroup then some side.length else none

/-- Whether pieces are the groups of an address: eight groups, or fewer on both sides of one gap.
The gap is an empty piece between two others. -/
def areGroups (pieces : List (List Char)) : Bool :=
  let inner := (pieces.drop 1).dropLast
  match inner.dropWhile (· ≠ []) with
  | [] => pieces.length = 8 && pieces.all isGroup
  | _ :: after =>
    match sideLength? (pieces.take 1 ++ inner.takeWhile (· ≠ [])),
        sideLength? (after ++ pieces.getLast?.toList) with
    | some before, some behind => before + behind ≤ 7
    | _, _ => false

/-- An address of version 6. A zone may follow a percent sign. -/
def isVersion6 (text : List Char) : Bool :=
  let zone := text.dropWhile (· ≠ '%')
  (zone = [] || (zone.length ≠ 1 && '%' ∉ zone.drop 1)) &&
    (withoutOctets? (piecesBetween ':' (text.takeWhile (· ≠ '%')))).any areGroups

/-! ### Later versions -/

/-- The letter `v`, a version in digits of base sixteen, a point, and something after it. -/
def isFuture : List Char → Bool
  | 'v' :: rest =>
    let version := rest.takeWhile isHexDigit
    let address := rest.dropWhile isHexDigit
    version ≠ [] && address.head? = some '.' && 2 ≤ address.length
  | _ => false

example : isVersion4 ['1', '.', '2', '.', '0', '.', '2', '5', '5'] = true := by decide

example : isVersion6 [':', ':', '1', '%', 'z'] = true := by decide

example : isVersion6 ['1', ':', ':', '2', ':', ':', '3'] = false := by decide

example : isFuture ['v', '1', 'F', '.', 'x'] = true := by decide

end KeyTree.Host
