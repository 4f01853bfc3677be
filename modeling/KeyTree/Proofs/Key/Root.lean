import KeyTree.Proofs.Key.Normal

/-!
# Paths and the root

A path that spells the root, or continues it after a separator, is read below the root. Every other
URI of the store lies outside, also if its bucket has a name that begins with the name of this one.
A path that is no URI is relative, so it never lies outside.

Separators that a root ends with are left out when a path is looked for below the root, and they
count when a path is to spell the root. So they change what one path is: the root without them is
no longer spelled by itself and, as it does not continue itself either, lies outside.

## Main definitions

* `Key.Outside` — URIs of the store that are not below a root.

## Main results

* `Key.normalize?_eq_none_iff` — the paths without a key are those outside.
* `Key.normalize?_uri` — the key of a URI of the bucket.
* `Key.normalize?_trailing_iff` — which paths separators at the end of the root make no difference
  to.
-/

namespace KeyTree.Key

/-- A path is *outside* a root when it is a URI of the store that neither spells the root nor
continues it. Separators that the root ends with do not count. -/
structure Outside (root path : Path) : Prop where
  isUri : scheme <+: path
  ne_root : path ≠ root
  not_below : ¬ trimEnd root ++ [separator] <+: path

theorem rootOf_ne_nil (bucket : List Char) : rootOf bucket ≠ [] := by
  simp [rootOf, scheme]

/-- The paths without a key are those outside the root. -/
theorem normalize?_eq_none_iff {root path : Path} (hroot : root ≠ []) :
    normalize? root path = none ↔ Outside root path := by
  rw [normalize?, Option.map_eq_none_iff, below?]
  constructor
  · intro h
    split at h
    · cases h
    · rename_i hinside
      have hout := not_or.mp fun hin => hinside ⟨hroot, hin⟩
      split at h
      · exact ⟨‹_›, hout.1, hout.2⟩
      · cases h
  · intro h
    rw [if_neg fun hinside => hinside.2.elim h.ne_root h.not_below, if_pos h.isUri]

theorem exists_ne_separator {bucket : List Char} (hne : bucket ≠ [])
    (hbucket : separator ∉ bucket) : ∃ c ∈ bucket, c ≠ separator := by
  obtain ⟨c, rest, rfl⟩ := List.exists_cons_of_ne_nil hne
  refine ⟨c, List.mem_cons_self, ?_⟩
  rintro rfl
  exact hbucket List.mem_cons_self

theorem trimEnd_rootOf {bucket : List Char} (hne : bucket ≠ []) (hbucket : separator ∉ bucket) :
    trimEnd (rootOf bucket) = rootOf bucket := by
  rw [rootOf, trimEnd_append_of_exists scheme (exists_ne_separator hne hbucket),
    trimEnd_of_notMem hbucket]

theorem segments_separator_cons (path : Path) : segments (separator :: path) = segments path := by
  rw [segments, pieces_separator_cons]
  rfl

/-- A URI of the bucket has the key of what follows the root. -/
theorem normalize?_uri {bucket : List Char} (hne : bucket ≠ []) (hbucket : separator ∉ bucket)
    (rest : Path) :
    normalize? (rootOf bucket) (rootOf bucket ++ separator :: rest) =
      some (join (segments rest)) := by
  have hbelow : trimEnd (rootOf bucket) ++ [separator] <+: rootOf bucket ++ separator :: rest := by
    rw [trimEnd_rootOf hne hbucket]
    exact ⟨rest, by simp⟩
  have hrest : below? (rootOf bucket) (rootOf bucket ++ separator :: rest) =
      some (separator :: rest) := by
    rw [below?, if_pos ⟨rootOf_ne_nil bucket, Or.inr hbelow⟩, trimEnd_rootOf hne hbucket,
      List.drop_left]
  rw [normalize?, hrest, Option.map_some, segments_separator_cons]

/-- The root spells itself. -/
theorem normalize?_rootOf {bucket : List Char} (hne : bucket ≠ []) (hbucket : separator ∉ bucket) :
    normalize? (rootOf bucket) (rootOf bucket) = some [] := by
  rw [normalize?, below?, if_pos ⟨rootOf_ne_nil bucket, Or.inl rfl⟩, trimEnd_rootOf hne hbucket,
    List.drop_length]
  rfl

/-! ### Separators at the end of the root -/

section

variable {bucket : List Char} (hne : bucket ≠ []) (hbucket : separator ∉ bucket) {m : Nat}
  {path : Path}

include hne hbucket

theorem trimEnd_rootOf_append (m : Nat) :
    trimEnd (rootOf bucket ++ List.replicate m separator) = rootOf bucket := by
  rw [trimEnd_append_separators _ fun c hc => List.eq_of_mem_replicate hc,
    trimEnd_rootOf hne hbucket]

/-- A path other than the root loses the same root, with separators at its end or without. -/
theorem below?_append_separators (hm : 0 < m) (hpath : path ≠ rootOf bucket) :
    below? (rootOf bucket ++ List.replicate m separator) path = below? (rootOf bucket) path := by
  -- what spells the root with its separators also continues the root
  have hspelled : path = rootOf bucket ++ List.replicate m separator →
      rootOf bucket ++ [separator] <+: path := by
    rintro rfl
    obtain ⟨n, rfl⟩ := Nat.exists_eq_add_of_lt hm
    rw [Nat.zero_add, List.replicate_succ]
    exact (List.prefix_append_right_inj _).mpr ⟨List.replicate n separator, rfl⟩
  have hiff : (rootOf bucket ++ List.replicate m separator ≠ [] ∧
        (path = rootOf bucket ++ List.replicate m separator ∨
          rootOf bucket ++ [separator] <+: path)) ↔
      rootOf bucket ≠ [] ∧ (path = rootOf bucket ∨ rootOf bucket ++ [separator] <+: path) := by
    rw [and_iff_right (rootOf_ne_nil bucket), or_iff_right hpath, or_iff_right_of_imp hspelled,
      and_iff_right (List.append_ne_nil_of_left_ne_nil (rootOf_ne_nil bucket) _)]
  simp only [below?, trimEnd_rootOf_append hne hbucket, trimEnd_rootOf hne hbucket, hiff]

/-- The root lies outside the root that has separators at its end. -/
theorem outside_append_separators (hm : 0 < m) :
    Outside (rootOf bucket ++ List.replicate m separator) (rootOf bucket) := by
  refine ⟨List.prefix_append .., fun heq => ?_, fun hbelow => ?_⟩
  · have hlength := congrArg List.length heq
    rw [List.length_append, List.length_replicate] at hlength
    omega
  · have hlength := hbelow.length_le
    rw [trimEnd_rootOf_append hne hbucket, List.length_append, List.length_singleton] at hlength
    omega

/-- Separators at the end of the root make no difference to any path but the root itself. They put
that one outside, where it was the root of the tree. -/
theorem normalize?_trailing_iff (m : Nat) (path : Path) :
    (normalize? (rootOf bucket ++ List.replicate m separator) path =
        normalize? (rootOf bucket) path ↔ m = 0 ∨ path ≠ rootOf bucket) ∧
      (0 < m → normalize? (rootOf bucket ++ List.replicate m separator) (rootOf bucket) = none) ∧
      normalize? (rootOf bucket) (rootOf bucket) = some [] := by
  have hroot := normalize?_rootOf hne hbucket
  have houtside : 0 < m →
      normalize? (rootOf bucket ++ List.replicate m separator) (rootOf bucket) = none :=
    fun hm => (normalize?_eq_none_iff
      (List.append_ne_nil_of_left_ne_nil (rootOf_ne_nil bucket) _)).mpr
        (outside_append_separators hne hbucket hm)
  refine ⟨?_, houtside, hroot⟩
  rcases Nat.eq_zero_or_pos m with rfl | hm
  · simp
  · rw [or_iff_right hm.ne']
    constructor
    · rintro heq rfl
      rw [houtside hm, hroot] at heq
      exact Option.some_ne_none [] heq.symm
    · intro hpath
      rw [normalize?, below?_append_separators hne hbucket hm hpath, normalize?]

end

/-- Two separators at the end of the root make no difference to a path that spells more of them. -/
theorem normalize?_trailing_doubled :
    ['b'] ≠ [] ∧ separator ∉ ['b'] ∧
      normalize? (rootOf ['b'] ++ List.replicate 2 separator) "s3://b///x/".toList =
        some ['x'] ∧
      normalize? (rootOf ['b'] ++ List.replicate 2 separator) (rootOf ['b']) = none := by
  have hne : ['b'] ≠ [] := List.cons_ne_nil 'b' []
  have hbucket : separator ∉ ['b'] := by decide
  obtain ⟨hiff, houtside, -⟩ := normalize?_trailing_iff hne hbucket 2 "s3://b///x/".toList
  have hsame := hiff.mpr (Or.inr (by decide +kernel))
  have hkey : normalize? (rootOf ['b']) "s3://b///x/".toList = some ['x'] := by decide +kernel
  exact ⟨hne, hbucket, hsame.trans hkey, houtside (by decide)⟩

/-- With one separator at the end of the root, the URI of the bucket has no key. -/
theorem normalize?_trailing_bareRoot :
    ['b'] ≠ [] ∧ separator ∉ ['b'] ∧
      normalize? (rootOf ['b'] ++ List.replicate 1 separator) "s3://b".toList = none ∧
      normalize? (rootOf ['b']) "s3://b".toList = some [] :=
  ⟨List.cons_ne_nil 'b' [], by decide, by decide +kernel, by decide +kernel⟩

end KeyTree.Key
