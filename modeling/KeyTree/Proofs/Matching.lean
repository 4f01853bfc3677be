import KeyTree.Proofs.Computation

/-!
# Runs that match

Two computations match when, from worlds that are related, they end alike: both with results that
go together or both with the same error, and again in related worlds. What two computations answer
is compared in this way without saying what they answer. A computation that matches itself ends only
in the errors that are allowed.

## Main definitions

* `Comparison` — which runs are compared, and the errors that they may end with.
* `Comparison.Matches` — computations that end alike.

## Main results

* `Comparison.Matches.bind`, `Comparison.matches_allM` — sequences and loops.
* `Comparison.matches_of_returns` — from what each of the computations returns.
-/

namespace KeyTree

/-- What is compared: runs under one plan that start in related worlds, and the errors that these
runs may end with. -/
structure Comparison where
  plan : Plan
  related : World → World → Prop
  raises : Error → Prop

namespace Comparison

variable {c : Comparison} {α β γ δ : Type}

/-- Outcomes that go together: results that do, or one error that is allowed, in related worlds. -/
inductive Outcomes (c : Comparison) (same : α → β → Prop) :
    Except Error α × World → Except Error β × World → Prop
  | ok {a : α} {b : β} {after other : World} (hsame : same a b) (h : c.related after other) :
      Outcomes c same (.ok a, after) (.ok b, other)
  | error {error : Error} {after other : World} (hraises : c.raises error)
      (h : c.related after other) : Outcomes c same (.error error, after) (.error error, other)

/-- Computations *match* when they have outcomes that go together from all related worlds. -/
def Matches (c : Comparison) (same : α → β → Prop) (x : StoreM α) (y : StoreM β) : Prop :=
  ∀ world other, c.related world other →
    c.Outcomes same (x.exec c.plan world) (y.exec c.plan other)

/-- The comparison goes on after an event that both runs record. -/
def Notes (c : Comparison) : Prop :=
  ∀ world other event, c.related world other →
    c.related { world with journal := .event event :: world.journal }
      { other with journal := .event event :: other.journal }

variable {same : α → β → Prop} {next : γ → δ → Prop} {x : StoreM α} {y : StoreM β}

theorem Outcomes.mono {same' : α → β → Prop} (himp : ∀ a b, same a b → same' a b)
    {outcome : Except Error α × World} {outcome' : Except Error β × World}
    (h : c.Outcomes same outcome outcome') : c.Outcomes same' outcome outcome' := by
  cases h with
  | ok hsame h => exact .ok (himp _ _ hsame) h
  | error hraises h => exact .error hraises h

theorem Matches.mono {same' : α → β → Prop} (h : c.Matches same x y)
    (himp : ∀ a b, same a b → same' a b) : c.Matches same' x y :=
  fun world other hrelated => (h world other hrelated).mono himp

theorem matches_pure {a : α} {b : β} (h : same a b) : c.Matches same (pure a) (pure b) :=
  fun _ _ hrelated => .ok h hrelated

theorem matches_throw {error : Error} (h : c.raises error) :
    c.Matches same (throw error) (throw error) :=
  fun _ _ hrelated => .error h hrelated

theorem Matches.bind {f : α → StoreM γ} {g : β → StoreM δ} (h : c.Matches same x y)
    (hnext : ∀ a b, same a b → c.Matches next (f a) (g b)) :
    c.Matches next (x >>= f) (y >>= g) := by
  intro world other hrelated
  rw [StoreM.exec_bind, StoreM.exec_bind]
  have houtcomes := h world other hrelated
  generalize x.exec c.plan world = outcome at houtcomes
  generalize y.exec c.plan other = outcome' at houtcomes
  cases houtcomes with
  | ok hsame hafter => exact hnext _ _ hsame _ _ hafter
  | error hraises hafter => exact .error hraises hafter

/-- After equal results the runs go on alike. -/
theorem Matches.bind_eq {x y : StoreM α} {f : α → StoreM γ} {g : α → StoreM δ}
    (h : c.Matches Eq x y) (hnext : ∀ a, c.Matches next (f a) (g a)) :
    c.Matches next (x >>= f) (y >>= g) :=
  h.bind fun a _ hab => hab ▸ hnext a

theorem Matches.bind_pure {f : α → γ} {g : β → δ} (h : c.Matches same x y)
    (hnext : ∀ a b, same a b → next (f a) (g b)) :
    c.Matches next (x >>= fun a => pure (f a)) (y >>= fun b => pure (g b)) :=
  h.bind fun a b hab => matches_pure (hnext a b hab)

theorem Matches.map {f : α → γ} {g : β → δ} (h : c.Matches same x y)
    (hnext : ∀ a b, same a b → next (f a) (g b)) : c.Matches next (f <$> x) (g <$> y) := by
  rw [map_eq_pure_bind, map_eq_pure_bind]
  exact h.bind_pure hnext

theorem matches_log (hnotes : c.Notes) {level : Level} {text : List Char}
    {context : List (String × Datum)} :
    c.Matches Eq (log level text context) (log level text context) := by
  intro world other hrelated
  rw [exec_log, exec_log]
  exact .ok rfl (hnotes _ _ _ hrelated)

theorem matches_log_bind (hnotes : c.Notes) {level : Level} {text : List Char}
    {context : List (String × Datum)} (h : c.Matches same x y) :
    c.Matches same (log level text context >>= fun _ => x)
      (log level text context >>= fun _ => y) :=
  (matches_log hnotes).bind_eq fun _ => h

/-- A "no" that is recorded on both sides. -/
theorem matches_recorded (hnotes : c.Notes) (done : Bool) {level : Level} {text : List Char}
    {context : List (String × Datum)} :
    c.Matches Eq
      (if done = true then pure true else do
        log level text context
        pure false : StoreM Bool)
      (if done = true then pure true else do
        log level text context
        pure false : StoreM Bool) := by
  cases done with
  | true => exact matches_pure rfl
  | false => exact matches_log_bind hnotes (matches_pure rfl)

/-- Loops over lists that go together match if their rounds do. -/
theorem matches_allM {R : α → β → Prop} {f : α → StoreM Bool} {g : β → StoreM Bool} {l : List α}
    {l' : List β} (hl : List.Forall₂ R l l')
    (hround : ∀ a b, a ∈ l → R a b → c.Matches Eq (f a) (g b)) :
    c.Matches Eq (l.allM f) (l'.allM g) := by
  induction hl with
  | nil =>
    rw [List.allM, List.allM]
    exact matches_pure rfl
  | cons hab _ ih =>
    rw [List.allM, List.allM]
    refine (hround _ _ List.mem_cons_self hab).bind_eq fun more => ?_
    cases more with
    | true => exact ih fun a b ha => hround a b (List.mem_cons_of_mem _ ha)
    | false => exact matches_pure rfl

/-- Computations match if what they return from related worlds goes together. -/
theorem matches_of_returns
    (h : ∀ world other, c.related world other → x.Returns c.plan world fun a after =>
      y.Returns c.plan other fun b after' => same a b ∧ c.related after after') :
    c.Matches same x y := by
  intro world other hrelated
  obtain ⟨a, after, hx, b, after', hy, hsame, hafter⟩ := h world other hrelated
  rw [hx, hy]
  exact .ok hsame hafter

end Comparison

end KeyTree
