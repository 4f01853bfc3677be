import KeyTree.Proofs.Key.Normal

/-!
# Trees of keys

The tree of a directory consists of its marker and of the keys below it. Two directories are
*unrelated* when they differ and neither lies below the other; their trees are then disjoint. The
keys in a tree are read as continuations of its directory.

## Main definitions

* `Key.InTree` — the marker of a directory and the keys below it.
* `Key.Touches` — these and the key itself.
* `Key.Unrelated` — directories of which neither contains the other.
* `Key.Unmarked` — keys whose segments do not end the way markers do.
* `Key.IsTail` — how the keys in a tree continue its directory.

## Main results

* `Key.Unrelated.not_inTree` — trees of unrelated directories are disjoint.
* `Key.InTree.exists_tail`, `Key.IsTail.append_inj` — keys in a tree as names and tails.
-/

namespace KeyTree.Key

/-! ### What lies below a key -/

@[simp] theorem childPrefix_nil : childPrefix [] = [] := rfl

theorem childPrefix_of_ne_nil {key : Key} (h : key ≠ []) :
    childPrefix key = key ++ [separator] := by
  rw [childPrefix, isRoot, if_neg (by simpa using h)]

theorem prefix_childPrefix (key : Key) : key <+: childPrefix key := by
  by_cases hkey : key = []
  · exact hkey ▸ List.nil_prefix
  · exact childPrefix_of_ne_nil hkey ▸ List.prefix_append ..

@[simp] theorem childPrefix_append_cons (key : Key) (c : Char) (rest : Key) :
    childPrefix (key ++ c :: rest) = key ++ c :: rest ++ [separator] :=
  childPrefix_of_ne_nil (by simp)

/-- The keys below a directory continue its own key after a separator. -/
theorem childPrefix_prefix_iff {key k : Key} (h : key ≠ []) :
    childPrefix key <+: k ↔ ∃ rest, k = key ++ separator :: rest := by
  rw [childPrefix_of_ne_nil h]
  constructor
  · rintro ⟨rest, rfl⟩
    exact ⟨rest, by simp⟩
  · rintro ⟨rest, rfl⟩
    exact ⟨rest, by simp⟩

/-- A text that ends with a separator is not continued by a text without. -/
theorem prefix_of_prefix_append {left a b : List Char} (hb : separator ∉ b)
    (h : left ++ [separator] <+: a ++ b) : left ++ [separator] <+: a := by
  rcases List.prefix_or_prefix_of_prefix h (List.prefix_append a b) with hle | ⟨t, ht⟩
  · exact hle
  · obtain ⟨rest, hrest⟩ := h
    rcases List.eq_nil_or_concat t with rfl | ⟨t, c, rfl⟩
    · exact ⟨[], by simpa using ht.symm⟩
    · have hc : c = separator := by
        have := congrArg List.getLast? ht
        simpa [← List.append_assoc] using this
      have hmem : separator ∈ b := by
        rw [← ht, List.append_assoc, List.append_cancel_left_eq] at hrest
        rw [← hrest, hc]
        simp
      exact absurd hmem hb

theorem childPrefix_prefix_of_append {key a b : Key} (hkey : key ≠ []) (hb : separator ∉ b)
    (h : childPrefix key <+: a ++ b) : childPrefix key <+: a := by
  rw [childPrefix_of_ne_nil hkey] at h ⊢
  exact prefix_of_prefix_append hb h

/-- What lies below a key together with a child lies below the key's directory, or is it. -/
theorem eq_or_prefix_of_prefix_child {key other name : Key} (hkey : key ≠ [])
    (hname : separator ∉ name) (h : childPrefix key <+: other ++ separator :: name) :
    key = other ∨ childPrefix key <+: other := by
  have hp : childPrefix key <+: other ++ [separator] :=
    childPrefix_prefix_of_append hkey hname (by simpa using h)
  rw [childPrefix_of_ne_nil hkey, List.prefix_concat_iff] at hp
  rw [childPrefix_of_ne_nil hkey]
  rcases hp with heq | hp
  · exact Or.inl (List.append_cancel_right heq)
  · exact Or.inr hp

/-- What lies below a child lies below its directory. -/
theorem childPrefix_trans {key name k : Key} (hkey : key ≠ [])
    (h : childPrefix (key ++ separator :: name) <+: k) : childPrefix key <+: k := by
  rw [childPrefix_append_cons] at h
  rw [childPrefix_of_ne_nil hkey]
  refine List.IsPrefix.trans ⟨name ++ [separator], ?_⟩ h
  simp

/-! ### Markers -/

theorem marker_injective {suffix a b : Key} (h : marker suffix a = marker suffix b) : a = b :=
  List.append_cancel_right h

theorem childPrefix_prefix_of_marker {suffix key other : Key} (hs : separator ∉ suffix)
    (hkey : key ≠ []) (h : childPrefix key <+: marker suffix other) : childPrefix key <+: other :=
  childPrefix_prefix_of_append hkey hs h

/-- A marker lies beside its directory and not below it. -/
theorem not_childPrefix_prefix_marker {suffix key : Key} (hs : separator ∉ suffix)
    (hkey : key ≠ []) : ¬ childPrefix key <+: marker suffix key := by
  intro h
  have hlen := (childPrefix_prefix_of_marker hs hkey h).length_le
  rw [childPrefix_of_ne_nil hkey, List.length_append, List.length_singleton] at hlen
  omega

theorem marker_child (suffix key name : Key) :
    marker suffix (key ++ separator :: name) = key ++ separator :: (name ++ suffix) := by
  simp [marker]

/-- The segments of an *unmarked* key do not end the way markers do. -/
def Unmarked (suffix key : Key) : Prop :=
  ∀ piece ∈ pieces key, ¬ suffix <:+ piece

instance (suffix key : Key) : Decidable (Unmarked suffix key) :=
  inferInstanceAs (Decidable (∀ piece ∈ pieces key, ¬ suffix <:+ piece))

theorem unmarked_child {suffix key name : Key} (hname : separator ∉ name) :
    Unmarked suffix (key ++ separator :: name) ↔ Unmarked suffix key ∧ ¬ suffix <:+ name := by
  rw [Unmarked, pieces_append_separator, pieces_of_notMem hname]
  simp [Unmarked, or_imp, forall_and]

/-- An end without separators is an end of the last piece. -/
theorem suffix_of_suffix_append_separator {suffix left right : Key} (hs : separator ∉ suffix)
    (h : suffix <:+ left ++ separator :: right) : suffix <:+ right := by
  have hright : right <:+ left ++ separator :: right := ⟨left ++ [separator], by simp⟩
  rcases List.suffix_or_suffix_of_suffix h hright with hle | ⟨t, rfl⟩
  · exact hle
  · rcases List.eq_nil_or_concat t with rfl | ⟨t, c, rfl⟩
    · exact ⟨[], by simp⟩
    · obtain ⟨front, hfront⟩ := h
      have hcancel : front ++ (t ++ [c]) ++ right = left ++ [separator] ++ right := by
        simpa using hfront
      replace hcancel := List.append_cancel_right hcancel
      have hc : c = separator := by
        have := congrArg List.getLast? hcancel
        simpa [← List.append_assoc] using this
      exact absurd (by simp [hc]) hs

/-- A key that ends with the suffix has a segment that does. -/
theorem not_suffix_of_unmarked {suffix key : Key} (hs : separator ∉ suffix)
    (h : Unmarked suffix key) : ¬ suffix <:+ key := by
  intro hsuffix
  by_cases hmem : separator ∈ key
  · obtain ⟨init, last, rfl, hlast⟩ := exists_last_piece hmem
    exact ((unmarked_child hlast).mp h).2 (suffix_of_suffix_append_separator hs hsuffix)
  · exact h key (by simp [pieces_of_notMem hmem]) hsuffix

/-! ### Trees -/

/-- The tree of a directory: its marker and the keys below it. -/
def InTree (suffix key k : Key) : Prop :=
  k = marker suffix key ∨ childPrefix key <+: k

/-- A key *touches* what may be stored for it: itself, its marker and the keys below it. -/
inductive Touches (suffix key : Key) : Key → Prop
  | self : Touches suffix key key
  | marker : Touches suffix key (marker suffix key)
  | below {k : Key} (h : childPrefix key <+: k) : Touches suffix key k

theorem InTree.touches {suffix key k : Key} (h : InTree suffix key k) : Touches suffix key k := by
  rcases h with rfl | h
  · exact .marker
  · exact .below h

/-- Directories are *unrelated* when neither is the other or lies below it. -/
structure Unrelated (a b : Key) : Prop where
  ne : a ≠ b
  not_below : ¬ childPrefix a <+: b
  not_above : ¬ childPrefix b <+: a

theorem Unrelated.symm {a b : Key} (h : Unrelated a b) : Unrelated b a :=
  ⟨h.ne.symm, h.not_above, h.not_below⟩

/-- The tree of a child lies below its directory. -/
theorem InTree.of_child {suffix key name k : Key} (hkey : key ≠ [])
    (h : InTree suffix (key ++ separator :: name) k) : childPrefix key <+: k := by
  rcases h with rfl | h
  · rw [marker_child, childPrefix_of_ne_nil hkey]
    simp
  · exact childPrefix_trans hkey h

/-- What a child touches lies below its directory. -/
theorem Touches.of_child {suffix key name k : Key} (hkey : key ≠ [])
    (h : Touches suffix (key ++ separator :: name) k) : childPrefix key <+: k := by
  cases h with
  | self => exact (childPrefix_prefix_iff hkey).mpr ⟨name, rfl⟩
  | marker => exact InTree.of_child hkey (Or.inl rfl)
  | below h => exact childPrefix_trans hkey h

/-- One of two directories with a common key below them lies below the other. -/
theorem eq_or_prefix_of_below_both {a b k : Key} (ha : a ≠ []) (hb : b ≠ [])
    (hak : childPrefix a <+: k) (hbk : childPrefix b <+: k) :
    a = b ∨ childPrefix a <+: b ∨ childPrefix b <+: a := by
  rcases List.prefix_or_prefix_of_prefix hak hbk with h | h
  · rw [childPrefix_of_ne_nil hb] at h
    rcases eq_or_prefix_of_prefix_child ha List.not_mem_nil h with h | h
    · exact Or.inl h
    · exact Or.inr (Or.inl h)
  · rw [childPrefix_of_ne_nil ha] at h
    rcases eq_or_prefix_of_prefix_child hb List.not_mem_nil h with h | h
    · exact Or.inl h.symm
    · exact Or.inr (Or.inr h)

/-- The trees of unrelated directories are disjoint. -/
theorem Unrelated.not_inTree {suffix a b k : Key} (hs : separator ∉ suffix) (ha : a ≠ [])
    (hb : b ≠ []) (h : Unrelated a b) (hak : InTree suffix a k) : ¬ InTree suffix b k := by
  rcases hak with rfl | hak
  · rintro (heq | hbk)
    · exact h.ne (marker_injective heq)
    · exact h.not_above (childPrefix_prefix_of_marker hs hb hbk)
  · rintro (rfl | hbk)
    · exact h.not_below (childPrefix_prefix_of_marker hs ha hak)
    · rcases eq_or_prefix_of_below_both ha hb hak hbk with heq | hab | hba
      · exact h.ne heq
      · exact h.not_below hab
      · exact h.not_above hba

/-- That a target is not in its source carries over to the children of one name. -/
theorem not_prefix_child {a b name : Key} (ha : a ≠ []) (hname : separator ∉ name) (hne : b ≠ a)
    (h : ¬ childPrefix a <+: b) :
    b ++ separator :: name ≠ a ++ separator :: name ∧
      ¬ childPrefix (a ++ separator :: name) <+: b ++ separator :: name := by
  refine ⟨by simpa using hne, fun hp => ?_⟩
  rcases eq_or_prefix_of_prefix_child ha hname (childPrefix_trans ha hp) with heq | hp
  · exact hne heq.symm
  · exact h hp

/-! ### Tails -/

/-- The keys in a tree continue its directory by a *tail*: the suffix of markers, or a separator and
any text. -/
def IsTail (suffix t : Key) : Prop :=
  t = suffix ∨ ∃ rest, t = separator :: rest

theorem inTree_append_iff {suffix key t : Key} (hkey : key ≠ []) :
    InTree suffix key (key ++ t) ↔ IsTail suffix t := by
  rw [InTree, marker, List.append_cancel_left_eq, childPrefix_prefix_iff hkey]
  simp [IsTail]

theorem InTree.exists_tail {suffix key k : Key} (hkey : key ≠ []) (h : InTree suffix key k) :
    ∃ t, IsTail suffix t ∧ k = key ++ t := by
  rcases h with rfl | h
  · exact ⟨suffix, Or.inl rfl, rfl⟩
  · obtain ⟨rest, rfl⟩ := (childPrefix_prefix_iff hkey).mp h
    exact ⟨separator :: rest, Or.inr ⟨rest, rfl⟩, rfl⟩

theorem IsTail.eq_suffix {suffix t : Key} (h : IsTail suffix t) (hmem : separator ∉ t) :
    t = suffix := by
  rcases h with rfl | ⟨rest, rfl⟩
  · rfl
  · exact absurd List.mem_cons_self hmem

/-- A name and a tail are read off their concatenation. -/
theorem IsTail.append_inj {suffix a b s t : Key} (hs : IsTail suffix s) (ht : IsTail suffix t)
    (hsuffix : separator ∉ suffix) (ha : separator ∉ a) (hb : separator ∉ b)
    (h : a ++ s = b ++ t) : a = b ∧ s = t := by
  have hiff : separator ∈ s ↔ separator ∈ t := by
    have := congrArg (separator ∈ ·) h
    simpa [ha, hb] using this
  by_cases hmem : separator ∈ s
  · rcases hs with rfl | ⟨s, rfl⟩
    · exact absurd hmem hsuffix
    · rcases ht with rfl | ⟨t, rfl⟩
      · exact absurd (hiff.mp hmem) hsuffix
      · obtain ⟨hab, hst⟩ := append_separator_inj ha hb h
        exact ⟨hab, by rw [hst]⟩
  · rw [hs.eq_suffix hmem, ht.eq_suffix (hiff.not.mp hmem)] at h ⊢
    exact ⟨List.append_cancel_right h, rfl⟩

/-! ### Depth -/

theorem count_child (key name : Key) (hname : separator ∉ name) :
    (key ++ separator :: name).count separator = key.count separator + 1 := by
  simp [List.count_append, List.count_eq_zero_of_not_mem hname]

theorem count_marker {suffix : Key} (hs : separator ∉ suffix) (key : Key) :
    (marker suffix key).count separator = key.count separator := by
  simp [marker, List.count_append, List.count_eq_zero_of_not_mem hs]

/-- A key below a directory has more separators than the directory. -/
theorem count_separator_lt {key k : Key} (hkey : key ≠ []) (h : childPrefix key <+: k) :
    key.count separator < k.count separator := by
  rw [childPrefix_of_ne_nil hkey] at h
  have := h.sublist.count_le separator
  simp [List.count_append] at this
  omega

theorem count_le_of_inTree {suffix key k : Key} (hs : separator ∉ suffix) (hkey : key ≠ [])
    (h : InTree suffix key k) : key.count separator ≤ k.count separator := by
  rcases h with rfl | h
  · rw [count_marker hs]
  · exact (count_separator_lt hkey h).le

end KeyTree.Key
