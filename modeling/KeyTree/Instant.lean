import KeyTree.Number.Binary64
import KeyTree.Number.Digits

/-!
# Instants

Modification times are whole microseconds since 1970-01-01 in universal time. They are reported in
milliseconds, by way of a binary64 count of seconds, and printed as calendar dates.

## Main definitions

* `Instant.milliseconds` — seconds and then milliseconds as binary64 numbers, cut toward zero.
* `Instant.ofMilliseconds` — back to microseconds by way of binary64 seconds.
* `Instant.iso?` — the date and time of day in the years 1 to 9999.
-/

namespace KeyTree

open Number

/-- Microseconds since the start of 1970 in universal time. -/
abbrev Instant := Int

namespace Instant

/-- An integer with the magnitude `n` and the sign of `like`. -/
def withSignOf (like : Int) (n : Nat) : Int :=
  if like < 0 then -(n : Int) else n

/-- The milliseconds of an instant: the nearest binary64 count of seconds times a thousand,
rounded, and cut toward zero. -/
def milliseconds (t : Instant) : Int :=
  let seconds := Dyadic.nearest t.natAbs 1000000
  withSignOf t (seconds.timesNat 1000).floor

/-- The instant of a count of milliseconds: the nearest binary64 count of seconds, its fraction
times a million, rounded, and rounded again to the even neighbour. -/
def ofMilliseconds (ms : Int) : Instant :=
  let seconds := Dyadic.nearest ms.natAbs 1000
  let whole := seconds.floor
  let (num, den) := seconds.ratio
  let micros := Dyadic.nearest ((num - whole * den) * 1000000) den
  withSignOf ms (whole * 1000000 + roundEven micros.ratio.1 micros.ratio.2)

/-! ### Calendar -/

/-- A day of the proleptic Gregorian calendar. -/
structure Date where
  year : Int
  month : Nat
  day : Nat
deriving DecidableEq, Repr

/-- The date of the day that many days after 1970-01-01. Years are counted from March on, so that
the leap day is the last day of its year, and cut into eras of four hundred years. -/
def dateOfDays (days : Int) : Date :=
  let fromEra := days + 719468
  let era := fromEra.fdiv 146097
  let dayOfEra := (fromEra - era * 146097).toNat
  let yearOfEra := (dayOfEra - dayOfEra / 1460 + dayOfEra / 36524 - dayOfEra / 146096) / 365
  let dayOfYear := dayOfEra - (365 * yearOfEra + yearOfEra / 4 - yearOfEra / 100)
  let shifted := (5 * dayOfYear + 2) / 153
  let month := if shifted < 10 then shifted + 3 else shifted - 9
  let year := (yearOfEra : Int) + era * 400
  ⟨if month ≤ 2 then year + 1 else year, month, dayOfYear - (153 * shifted + 2) / 5 + 1⟩

/-- The date and time of day, with six digits of a second if it is not whole, and the offset of
universal time; nothing outside the years 1 to 9999. -/
def iso? (t : Instant) : Option (List Char) :=
  let seconds := Int.fdiv t 1000000
  let micros := (t - seconds * 1000000).toNat
  let days := seconds.fdiv 86400
  let time := (seconds - days * 86400).toNat
  let date := dateOfDays days
  if 1 ≤ date.year ∧ date.year ≤ 9999 then
    some <| padded 4 date.year.toNat ++ '-' :: padded 2 date.month ++
      '-' :: padded 2 date.day ++ 'T' :: padded 2 (time / 3600) ++
      ':' :: padded 2 (time / 60 % 60) ++ ':' :: padded 2 (time % 60) ++
      (if micros = 0 then [] else '.' :: padded 6 micros) ++ ['+', '0', '0', ':', '0', '0']
  else none

example : milliseconds 1001000 = 1000 := by decide +kernel

example : dateOfDays 18321 = ⟨2020, 2, 29⟩ := by decide

end Instant

end KeyTree
