/-!
# Rounding quotients

The nearest integer to a quotient of natural numbers, a tie going to the even neighbour.

## Main results

* `two_mul_roundEven_le`, `le_two_mul_roundEven` — the result is at most half a unit away.
-/

namespace KeyTree.Number

/-- The integer nearest to `num / den`; of two that are equally near, the even one. -/
def roundEven (num den : Nat) : Nat :=
  let q := num / den
  let twice := 2 * (num % den)
  if twice < den ∨ (twice = den ∧ q % 2 = 0) then q else q + 1

/-- Rounding down or to the even neighbour adds at most half a unit. -/
theorem two_mul_roundEven_le (num : Nat) {den : Nat} (h : 0 < den) :
    2 * (roundEven num den * den) ≤ 2 * num + den := by
  have hdiv := Nat.div_add_mod num den
  rw [Nat.mul_comm] at hdiv
  unfold roundEven
  dsimp only
  split
  · omega
  · rw [Nat.add_mul]; omega

/-- Rounding takes away at most half a unit. -/
theorem le_two_mul_roundEven (num : Nat) {den : Nat} (h : 0 < den) :
    2 * num ≤ 2 * (roundEven num den * den) + den := by
  have hdiv := Nat.div_add_mod num den
  have hmod := Nat.mod_lt num h
  rw [Nat.mul_comm] at hdiv
  unfold roundEven
  dsimp only
  split
  · omega
  · rw [Nat.add_mul]; omega

end KeyTree.Number
