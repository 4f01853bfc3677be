import KeyTree.Instant
import KeyTree.Key
import Std.Data.ExtTreeMap.Basic
import Std.Data.ExtTreeMap.Lemmas

/-!
# Objects

A bucket's contents: a finite map from keys to objects, in the order of the keys by code point.
Two contents are equal exactly when every key has the same object in both.

## Main results

* `Key.compare_eq_lt` — the order of the map is the order of texts by code point.
-/

namespace KeyTree

/-- The bytes of a body. -/
abbrev Bytes := List UInt8

/-- A stored object. -/
structure Object where
  body : Bytes
  modified : Instant
deriving DecidableEq

/-- Characters compare by code point. -/
theorem Key.compare_char_eq_lt {a b : Char} : compare a b = .lt ↔ a < b :=
  compareOfLessAndEq_eq_lt

/-- The order of the map is the order of texts by code point. -/
theorem Key.compare_eq_lt {a b : Key} : compare a b = .lt ↔ a < b := by
  induction a generalizing b with
  | nil => cases b <;> simp [compare, List.compareLex]
  | cons x a ih =>
    cases b with
    | nil => simp [compare, List.compareLex]
    | cons y b =>
      rw [List.cons_lt_cons_iff, ← ih, ← Key.compare_char_eq_lt,
        List.compare_eq_compareLex, List.compareLex_cons_cons, ← List.compare_eq_compareLex,
        Ordering.then_eq_lt, Std.compare_eq_iff_eq]

/-- The contents of a bucket. -/
abbrev Objects := Std.ExtTreeMap Key Object

end KeyTree
