import KeyTree.Proofs.Key.Tree

/-!
# Ancestors of keys

The ancestors of a key are the texts before its separators. A normal key is its parent and a name,
so the chain of keys from the topmost ancestor down to the key is the chain of its parent and the
key itself.

## Main definitions

* `Key.chain` — the keys from the topmost ancestor of a key down to the key.
* `Key.IsChild` — a normal key and its parent.

## Main results

* `Key.mem_ancestors_iff`, `Key.mem_chain_iff` — what the ancestors and the chain of a key are.
* `Key.IsNormal.exists_name`, `Key.IsNormal.exists_parent` — every normal key is a name below its
  parent.
* `Key.lastSegment_childPrefix_append` — and its last segment is that name.
-/

namespace KeyTree.Key

/-! ### Ancestors -/

/-- The ancestors of a key are the texts that it continues after a separator. -/
theorem mem_ancestors_iff {key a : Key} : a ∈ ancestors key ↔ a ++ [separator] <+: key := by
  induction key generalizing a with
  | nil => simp [ancestors]
  | cons c rest ih =>
    cases a with
    | nil =>
      rw [ancestors, List.nil_append, List.cons_prefix_cons]
      split <;> simp_all [eq_comm]
    | cons d a =>
      rw [ancestors, List.cons_append, List.cons_prefix_cons, ← ih]
      split <;> simp [eq_comm, and_comm]

theorem mem_ancestors_iff_childPrefix {key a : Key} (ha : a ≠ []) :
    a ∈ ancestors key ↔ childPrefix a <+: key := by
  rw [mem_ancestors_iff, childPrefix_of_ne_nil ha]

theorem ancestors_of_notMem {name : Key} (h : separator ∉ name) : ancestors name = [] := by
  rw [List.eq_nil_iff_forall_not_mem]
  intro a ha
  exact h ((mem_ancestors_iff.mp ha).subset (by simp))

/-- The ancestors of a child are those of its directory and the directory. -/
theorem ancestors_child {key name : Key} (hname : separator ∉ name) :
    ancestors (key ++ separator :: name) = ancestors key ++ [key] := by
  induction key with
  | nil => simp [ancestors, ancestors_of_notMem hname]
  | cons c key ih =>
    rw [List.cons_append, ancestors, ih, ancestors]
    split <;> simp

/-- What is above a key is shorter. -/
theorem length_lt_of_mem_ancestors {key a : Key} (h : a ∈ ancestors key) :
    a.length < key.length := by
  have hle := (mem_ancestors_iff.mp h).length_le
  rw [List.length_append, List.length_singleton] at hle
  omega

/-- The ancestors of a normal key are normal. -/
theorem IsNormal.of_mem_ancestors {key a : Key} (h : IsNormal key) (ha : a ∈ ancestors key) :
    IsNormal a := by
  obtain ⟨rest, rfl⟩ := mem_ancestors_iff.mp ha
  rw [List.append_assoc, List.singleton_append] at h
  refine ⟨?_, fun piece hpiece => h.2 piece ?_⟩
  · rintro rfl
    exact h.2 [] (by simp) rfl
  · rw [pieces_append_separator]
    exact List.mem_append_left _ hpiece

/-- The ancestors of an unmarked key are unmarked. -/
theorem Unmarked.of_mem_ancestors {suffix key a : Key} (h : Unmarked suffix key)
    (ha : a ∈ ancestors key) : Unmarked suffix a := by
  obtain ⟨rest, rfl⟩ := mem_ancestors_iff.mp ha
  intro piece hpiece
  refine h piece ?_
  rw [List.append_assoc, List.singleton_append, pieces_append_separator]
  exact List.mem_append_left _ hpiece

/-- A marker has the ancestors of its directory. -/
theorem mem_ancestors_marker_iff {suffix key a : Key} (hs : separator ∉ suffix) :
    a ∈ ancestors (marker suffix key) ↔ a ∈ ancestors key := by
  rw [mem_ancestors_iff, mem_ancestors_iff]
  exact ⟨prefix_of_prefix_append hs, fun h => h.trans (List.prefix_append ..)⟩

/-! ### Parents -/

theorem beforeLast_of_notMem {name : Key} (h : separator ∉ name) : beforeLast name = [] := by
  cases name with
  | nil => rfl
  | cons c rest => rw [beforeLast, if_neg fun hmem => h (List.mem_cons_of_mem c hmem)]

theorem beforeLast_child {key name : Key} (hname : separator ∉ name) :
    beforeLast (key ++ separator :: name) = key := by
  induction key with
  | nil => rw [List.nil_append, beforeLast, if_neg hname]
  | cons c key ih => rw [List.cons_append, beforeLast, if_pos (by simp), ih]

theorem lastSegment_of_notMem {name : Key} (h : separator ∉ name) : lastSegment name = name := by
  cases name with
  | nil => rfl
  | cons c rest =>
    obtain ⟨hc, hrest⟩ : c ≠ separator ∧ separator ∉ rest := by
      simpa [eq_comm] using h
    rw [lastSegment, if_neg hrest, if_neg hc]

/-- The last segment of a name below a directory is the name. -/
theorem lastSegment_childPrefix_append {name : Key} (hname : separator ∉ name) (key : Key) :
    lastSegment (childPrefix key ++ name) = name := by
  by_cases hkey : key = []
  · rw [hkey, childPrefix_nil, List.nil_append, lastSegment_of_notMem hname]
  rw [childPrefix_of_ne_nil hkey, List.append_assoc, List.singleton_append]
  clear hkey
  induction key with
  | nil => rw [List.nil_append, lastSegment, if_neg hname, if_pos rfl]
  | cons c key ih => rw [List.cons_append, lastSegment, if_pos (by simp), ih]

/-- The keys from the topmost ancestor of a key down to the key. The chain of the root is empty. -/
def chain (key : Key) : List Key :=
  if key = [] then [] else ancestors key ++ [key]

@[simp] theorem chain_nil : chain [] = [] := rfl

theorem mem_chain_iff {key k : Key} :
    k ∈ chain key ↔ key ≠ [] ∧ (k = key ∨ k ∈ ancestors key) := by
  by_cases hkey : key = []
  · simp [hkey]
  · simp [chain, hkey, or_comm]

/-- The members of the chain of a normal key are normal. -/
theorem isNormal_of_mem_chain {key k : Key} (hkey : key = [] ∨ IsNormal key) (hk : k ∈ chain key) :
    IsNormal k := by
  obtain ⟨hne, rfl | hk⟩ := mem_chain_iff.mp hk
  · exact hkey.resolve_left hne
  · exact (hkey.resolve_left hne).of_mem_ancestors hk

/-- A normal key and its parent, which is the root or normal. -/
structure IsChild (parent key : Key) : Prop where
  isNormal : IsNormal key
  parent_normal : parent = [] ∨ IsNormal parent
  parent?_eq : parent? key = some parent
  chain_eq : chain key = chain parent ++ [key]
  below : childPrefix parent <+: key
  length_lt : parent.length < key.length

/-- A name below a normal key is a child of the key. -/
theorem IsNormal.isChild {key name : Key} (hkey : IsNormal key) (hname : IsName name) :
    IsChild key (key ++ separator :: name) := by
  have hchild := hkey.child hname
  refine ⟨hchild, Or.inr hkey, ?_, ?_, (childPrefix_prefix_iff hkey.1).mpr ⟨name, rfl⟩, by simp⟩
  · rw [parent?, if_neg (by simp [isRoot]), beforeLast_child hname.separator_notMem]
  · rw [chain, if_neg hchild.1, chain, if_neg hkey.1, ancestors_child hname.separator_notMem]

/-- A name is a child of the root. -/
theorem IsName.isChild {name : Key} (h : IsName name) : IsChild [] name := by
  refine ⟨h.isNormal, Or.inl rfl, ?_, ?_, List.nil_prefix, List.length_pos_iff.mpr h.ne_nil⟩
  · rw [parent?, if_neg (by simpa [isRoot] using h.ne_nil), beforeLast_of_notMem h.separator_notMem]
  · rw [chain, if_neg h.ne_nil, ancestors_of_notMem h.separator_notMem, chain_nil]

/-- Every normal key is a name below its parent. -/
theorem IsNormal.exists_name {key : Key} (h : IsNormal key) :
    ∃ parent name, IsName name ∧ key = childPrefix parent ++ name ∧ IsChild parent key := by
  by_cases hmem : separator ∈ key
  · obtain ⟨parent, name, rfl, hname⟩ := exists_last_piece hmem
    have hparent : IsNormal parent := by
      refine h.of_mem_ancestors ?_
      rw [ancestors_child hname]
      simp
    have hne : name ≠ [] := h.2 name (by simp [pieces_append_separator, pieces_of_notMem hname])
    refine ⟨parent, name, ⟨hne, hname⟩, ?_, hparent.isChild ⟨hne, hname⟩⟩
    rw [childPrefix_of_ne_nil hparent.1, List.append_assoc, List.singleton_append]
  · exact ⟨[], key, ⟨h.1, hmem⟩, rfl, IsName.isChild ⟨h.1, hmem⟩⟩

/-- Every normal key has a parent. -/
theorem IsNormal.exists_parent {key : Key} (h : IsNormal key) : ∃ parent, IsChild parent key := by
  obtain ⟨parent, -, -, -, hchild⟩ := h.exists_name
  exact ⟨parent, hchild⟩

theorem IsChild.mem_chain {parent key : Key} (h : IsChild parent key) : key ∈ chain key := by
  rw [h.chain_eq]
  simp

/-- The members of the chain of a parent are in the chain of its child. -/
theorem IsChild.mem_chain_of_parent {parent key k : Key} (h : IsChild parent key)
    (hk : k ∈ chain parent) : k ∈ chain key := by
  rw [h.chain_eq]
  exact List.mem_append_left _ hk

/-- The ancestors of a child are the chain of its parent. -/
theorem IsChild.ancestors_eq {parent key : Key} (h : IsChild parent key) :
    ancestors key = chain parent := by
  have hchain := h.chain_eq
  rw [chain, if_neg h.isNormal.1] at hchain
  exact List.append_cancel_right hchain

/-- The members of a chain are above its last one. -/
theorem eq_or_childPrefix_of_mem_chain {key k : Key} (h : k ∈ chain key) :
    k = key ∨ childPrefix k <+: key := by
  refine (mem_chain_iff.mp h).2.imp_right fun hk => ?_
  rw [mem_ancestors_iff] at hk
  cases k with
  | nil => exact List.nil_prefix
  | cons c k => exact hk

/-- No member of a chain lies below its last one. -/
theorem not_below_of_mem_chain {key k : Key} (h : k ∈ chain key) : ¬ childPrefix key <+: k := by
  obtain ⟨hkey, hk⟩ := mem_chain_iff.mp h
  intro hbelow
  have hle := hbelow.length_le
  rw [childPrefix_of_ne_nil hkey, List.length_append, List.length_singleton] at hle
  rcases hk with rfl | hk
  · omega
  · have hlt := length_lt_of_mem_ancestors hk
    omega

/-- The chain of a member of a chain is a part of the chain. -/
theorem mem_chain_trans {key m k : Key} (hm : m ∈ chain key) (hk : k ∈ chain m) :
    k ∈ chain key := by
  obtain ⟨hkey, rfl | hm⟩ := mem_chain_iff.mp hm
  · exact hk
  · refine mem_chain_iff.mpr ⟨hkey, Or.inr ?_⟩
    obtain ⟨-, rfl | hk⟩ := mem_chain_iff.mp hk
    · exact hm
    · rw [mem_ancestors_iff] at hm hk ⊢
      exact hk.trans ((List.prefix_append ..).trans hm)

/-- The members of the chain of a key below a directory are on the chain of the directory or below
it. -/
theorem mem_chain_or_below {top key k : Key} (hbelow : childPrefix top <+: key)
    (hk : k ∈ chain key) : k ∈ chain top ∨ childPrefix top <+: k := by
  by_cases htop : top = []
  · subst htop
    exact Or.inr List.nil_prefix
  obtain ⟨-, rfl | hk⟩ := mem_chain_iff.mp hk
  · exact Or.inr hbelow
  rw [mem_ancestors_iff] at hk
  rw [mem_chain_iff, and_iff_right htop, mem_ancestors_iff]
  rw [childPrefix_of_ne_nil htop] at hbelow ⊢
  rcases List.prefix_or_prefix_of_prefix hk hbelow with h | h
  · rcases List.prefix_concat_iff.mp h with heq | h
    · exact Or.inl (Or.inl (List.append_cancel_right heq))
    · exact Or.inl (Or.inr h)
  · rcases List.prefix_concat_iff.mp h with heq | h
    · exact Or.inl (Or.inl (List.append_cancel_right heq).symm)
    · exact Or.inr h

/-! ### Lengths -/

theorem length_join_cons (segment : Key) (segments : List Key) :
    (join (segment :: segments)).length =
      segment.length + if segments = [] then 0 else (join segments).length + 1 := by
  cases segments with
  | nil => simp [join]
  | cons next more => simp [join]

/-- Leaving out segments does not make a text longer. -/
theorem length_join_filter_le (p : Key → Bool) (segments : List Key) :
    (join (segments.filter p)).length ≤ (join segments).length := by
  induction segments with
  | nil => simp
  | cons segment segments ih =>
    rw [List.filter_cons, length_join_cons]
    split
    · rw [length_join_cons]
      by_cases hnil : segments = []
      · simp [hnil]
      · rw [if_neg hnil]
        split <;> omega
    · by_cases hnil : segments = []
      · simp [hnil, join]
      · rw [if_neg hnil]
        omega

/-- The key of a path is no longer than the path. -/
theorem length_le_of_normalize? {root path : Path} {key : Key}
    (h : normalize? root path = some key) : key.length ≤ path.length := by
  obtain ⟨rest, hrest, rfl⟩ := Option.map_eq_some_iff.mp h
  have hlength : rest.length ≤ path.length := by
    rw [below?] at hrest
    split at hrest
    · obtain rfl := Option.some.inj hrest
      rw [List.length_drop]
      omega
    · split at hrest
      · simp at hrest
      · exact (congrArg List.length (Option.some.inj hrest)).ge
  refine le_trans ?_ hlength
  calc (join (segments rest)).length ≤ (join (pieces rest)).length :=
        length_join_filter_le _ (pieces rest)
    _ = rest.length := by rw [join_pieces]

end KeyTree.Key
