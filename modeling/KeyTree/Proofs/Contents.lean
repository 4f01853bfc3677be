import KeyTree.Proofs.Key.Tree
import KeyTree.Store.Basic

/-!
# Directories in the contents of a bucket

A key is a directory of some contents when it is the root, when its marker is stored, or when a key
lies below it. Whether a key is a directory, and whether its tree is well-formed, depends only on
what is stored in the tree.

## Main definitions

* `Store.holding` — the store with given bodies.
* `Objects.body?` — the body stored under a key.
* `Objects.IsDirectory`, `Objects.IsImplicit`, `Objects.IsVacant` — directories, those without a
  marker, and keys with an empty tree.
* `Objects.WellFormed`, `Objects.WellFormedIn` — contents that spell a directory tree, as a whole
  and in the tree of one directory.

## Main results

* `Objects.not_isDirectory_iff` — what is no directory is vacant.
* `Objects.WellFormed.within`, `Objects.WellFormedIn.child`, `Objects.WellFormedIn.congr` — from the
  whole to its parts, and from contents to others that agree with them.
-/

namespace KeyTree

/-- The store of a bucket in which some bodies have been stored, one after another. -/
def Store.holding (bucket : List Char) (bodies : List (Key × Bytes)) : Store :=
  bodies.foldl (fun store entry => store.put entry.1 entry.2)
    { bucket, objects := ∅, clock := 0, tick := 1 }

theorem Store.mem_foldl_put (bodies : List (Key × Bytes)) (store : Store) (key : Key) :
    key ∈ (bodies.foldl (fun store entry => store.put entry.1 entry.2) store).objects ↔
      key ∈ store.objects ∨ ∃ entry ∈ bodies, entry.1 = key := by
  induction bodies generalizing store with
  | nil => simp
  | cons entry bodies ih =>
    rw [List.foldl_cons, ih, objects_put, Std.ExtTreeMap.mem_insert,
      Std.LawfulEqCmp.compare_eq_iff_eq]
    simp only [List.exists_mem_cons_iff, or_assoc, or_left_comm]

theorem Store.mem_holding {bucket : List Char} {bodies : List (Key × Bytes)} {key : Key} :
    key ∈ (holding bucket bodies).objects ↔ ∃ entry ∈ bodies, entry.1 = key := by
  rw [holding, mem_foldl_put]
  simp

namespace Objects

open Key

variable {suffix : List Char} {objects objects' : Objects} {key : Key}

/-- The body stored under a key. -/
def body? (objects : Objects) (key : Key) : Option Bytes :=
  objects[key]?.map Object.body

theorem mem_of_getElem? {o : Object} (h : objects[key]? = some o) : key ∈ objects :=
  Std.ExtTreeMap.mem_iff_isSome_getElem?.mpr (by rw [h]; rfl)

theorem exists_getElem?_of_mem (h : key ∈ objects) : ∃ o, objects[key]? = some o :=
  Option.isSome_iff_exists.mp (Std.ExtTreeMap.mem_iff_isSome_getElem?.mp h)

theorem notMem_iff : key ∉ objects ↔ objects[key]? = none := by
  rw [Std.ExtTreeMap.mem_iff_isSome_getElem?]
  simp

theorem body?_of_getElem? {o : Object} (h : objects[key]? = some o) :
    objects.body? key = some o.body := by
  rw [body?, h, Option.map_some]

theorem exists_of_body? {body : Bytes} (h : objects.body? key = some body) :
    ∃ o, objects[key]? = some o ∧ o.body = body :=
  Option.map_eq_some_iff.mp h

theorem body?_congr (h : objects'[key]? = objects[key]?) :
    objects'.body? key = objects.body? key := by
  rw [body?, h, body?]

theorem mem_congr (h : objects'[key]? = objects[key]?) : key ∈ objects' ↔ key ∈ objects := by
  rw [Std.ExtTreeMap.mem_iff_isSome_getElem?, h, Std.ExtTreeMap.mem_iff_isSome_getElem?]

/-! ### Changes -/

@[simp] theorem getElem?_put_self (store : Store) (key : Key) (body : Bytes) :
    (store.put key body).objects[key]? = some ⟨body, store.clock + store.tick⟩ := by
  simp

theorem getElem?_put_of_ne (store : Store) {key k : Key} (body : Bytes) (h : k ≠ key) :
    (store.put key body).objects[k]? = store.objects[k]? := by
  rw [Store.objects_put, Std.ExtTreeMap.getElem?_insert, if_neg]
  rw [Std.LawfulEqCmp.compare_eq_iff_eq]
  exact h.symm

@[simp] theorem getElem?_remove_self (store : Store) (key : Key) :
    (store.remove key).objects[key]? = none := by
  simp

theorem getElem?_remove_of_ne (store : Store) {key k : Key} (h : k ≠ key) :
    (store.remove key).objects[k]? = store.objects[k]? := by
  rw [Store.objects_remove, Std.ExtTreeMap.getElem?_erase, if_neg]
  rw [Std.LawfulEqCmp.compare_eq_iff_eq]
  exact h.symm

theorem body?_put_self (store : Store) (key : Key) (body : Bytes) :
    (store.put key body).objects.body? key = some body := by
  rw [body?, getElem?_put_self, Option.map_some]

theorem body?_put_of_ne (store : Store) {key k : Key} (body : Bytes) (h : k ≠ key) :
    (store.put key body).objects.body? k = store.objects.body? k :=
  body?_congr (getElem?_put_of_ne store body h)

theorem body?_remove_self (store : Store) (key : Key) :
    (store.remove key).objects.body? key = none := by
  rw [body?, getElem?_remove_self, Option.map_none]

theorem mem_put_iff {store : Store} {k : Key} {body : Bytes} :
    k ∈ (store.put key body).objects ↔ k = key ∨ k ∈ store.objects := by
  rw [Store.objects_put, Std.ExtTreeMap.mem_insert, Std.LawfulEqCmp.compare_eq_iff_eq, eq_comm]

theorem mem_put {store : Store} {k : Key} {body : Bytes} (h : k ∈ store.objects) :
    k ∈ (store.put key body).objects :=
  mem_put_iff.mpr (Or.inr h)

theorem mem_put_self (store : Store) (key : Key) (body : Bytes) :
    key ∈ (store.put key body).objects :=
  mem_put_iff.mpr (Or.inl rfl)

theorem mem_remove_iff {store : Store} {k : Key} :
    k ∈ (store.remove key).objects ↔ k ≠ key ∧ k ∈ store.objects := by
  rw [Store.objects_remove, Std.ExtTreeMap.mem_erase, ne_eq, Std.LawfulEqCmp.compare_eq_iff_eq,
    ne_comm]

/-! ### Directories -/

/-- Some key lies below. -/
def HasBelow (objects : Objects) (key : Key) : Prop :=
  ∃ k ∈ objects, childPrefix key <+: k

/-- A key is a *directory* when it is the root, when its marker is stored, or when a key lies below
it. -/
def IsDirectory (suffix : List Char) (objects : Objects) (key : Key) : Prop :=
  key = [] ∨ marker suffix key ∈ objects ∨ objects.HasBelow key

theorem hasBelow_holding {bucket : List Char} {bodies : List (Key × Bytes)} :
    (Store.holding bucket bodies).objects.HasBelow key ↔
      ∃ entry ∈ bodies, childPrefix key <+: entry.1 := by
  simp only [HasBelow, Store.mem_holding]
  constructor
  · rintro ⟨_, ⟨entry, hentry, rfl⟩, hbelow⟩
    exact ⟨entry, hentry, hbelow⟩
  · rintro ⟨entry, hentry, hbelow⟩
    exact ⟨_, ⟨entry, hentry, rfl⟩, hbelow⟩

/-- The marker of a directory with keys below gives no other directory keys below. -/
theorem hasBelow_put_marker_iff {store : Store} {other : Key} (hs : separator ∉ suffix)
    (hbelow : store.objects.HasBelow key) (hother : other ≠ []) :
    (store.put (marker suffix key) []).objects.HasBelow other ↔ store.objects.HasBelow other := by
  constructor
  · rintro ⟨k, hk, hunder⟩
    rcases mem_put_iff.mp hk with rfl | hk
    · obtain ⟨k, hk, hp⟩ := hbelow
      have habove := childPrefix_prefix_of_marker hs hother hunder
      exact ⟨k, hk, (habove.trans (prefix_childPrefix key)).trans hp⟩
    · exact ⟨k, hk, hunder⟩
  · rintro ⟨k, hk, hunder⟩
    exact ⟨k, mem_put hk, hunder⟩

/-- A key is *vacant* when nothing is stored in its tree. -/
def IsVacant (suffix : List Char) (objects : Objects) (key : Key) : Prop :=
  ∀ k, InTree suffix key k → k ∉ objects

/-- A directory below the root is *implicit* when keys lie below it and its marker is not stored. -/
def IsImplicit (suffix : List Char) (objects : Objects) (key : Key) : Prop :=
  key ≠ [] ∧ marker suffix key ∉ objects ∧ objects.HasBelow key

theorem not_isDirectory_iff (hkey : key ≠ []) :
    ¬ IsDirectory suffix objects key ↔ IsVacant suffix objects key := by
  constructor
  · rintro h k (rfl | hk) hmem
    · exact h (Or.inr (Or.inl hmem))
    · exact h (Or.inr (Or.inr ⟨k, hmem, hk⟩))
  · rintro h (hnil | hmarker | ⟨k, hmem, hk⟩)
    · exact hkey hnil
    · exact h _ (Or.inl rfl) hmarker
    · exact h k (Or.inr hk) hmem

theorem HasBelow.isDirectory (h : objects.HasBelow key) : IsDirectory suffix objects key :=
  Or.inr (Or.inr h)

/-- A directory stays one while nothing is removed. -/
theorem IsDirectory.mono (h : IsDirectory suffix objects key) (hsub : ∀ k ∈ objects, k ∈ objects') :
    IsDirectory suffix objects' key := by
  rcases h with hnil | hmarker | ⟨k, hk, hbelow⟩
  · exact Or.inl hnil
  · exact Or.inr (Or.inl (hsub _ hmarker))
  · exact Or.inr (Or.inr ⟨k, hsub k hk, hbelow⟩)

/-- Vacancy depends on the tree alone. -/
theorem IsVacant.congr (hvacant : IsVacant suffix objects key)
    (h : ∀ k, InTree suffix key k → objects'[k]? = objects[k]?) : IsVacant suffix objects' key :=
  fun k hk => (mem_congr (h k hk)).not.mpr (hvacant k hk)

/-- Being a directory depends on the tree alone. -/
theorem IsDirectory.congr (hdir : IsDirectory suffix objects key)
    (h : ∀ k, InTree suffix key k → objects'[k]? = objects[k]?) :
    IsDirectory suffix objects' key := by
  rcases hdir with hnil | hmarker | ⟨k, hmem, hk⟩
  · exact Or.inl hnil
  · exact Or.inr (Or.inl ((mem_congr (h _ (Or.inl rfl))).mpr hmarker))
  · exact Or.inr (Or.inr ⟨k, (mem_congr (h k (Or.inr hk))).mpr hmem, hk⟩)

/-! ### Well-formed contents -/

/-- Contents are *well-formed* when every key is a normal key without marked segments or the marker
of one, markers are empty, and what is stored as a file is no directory. -/
structure WellFormed (suffix : List Char) (objects : Objects) : Prop where
  shape : ∀ k ∈ objects, ∃ p, IsNormal p ∧ Unmarked suffix p ∧ (k = p ∨ k = marker suffix p)
  marker_empty : ∀ p o, IsNormal p → Unmarked suffix p →
    objects[marker suffix p]? = some o → o.body = []
  file_alone : ∀ p ∈ objects, IsNormal p → Unmarked suffix p →
    marker suffix p ∉ objects ∧ ¬ objects.HasBelow p

/-- The tree of one directory is *well-formed* when what is stored in it is. -/
structure WellFormedIn (suffix : List Char) (objects : Objects) (key : Key) : Prop where
  shape : ∀ k ∈ objects, childPrefix key <+: k →
    ∃ p, IsNormal p ∧ Unmarked suffix p ∧ (k = p ∨ k = marker suffix p)
  marker_empty : ∀ k o, InTree suffix key k → suffix <:+ k → objects[k]? = some o → o.body = []
  file_alone : ∀ p ∈ objects, childPrefix key <+: p → ¬ suffix <:+ p →
    marker suffix p ∉ objects ∧ ¬ objects.HasBelow p

theorem suffix_marker (suffix key : Key) : suffix <:+ marker suffix key :=
  List.suffix_append ..

/-- A stored key that ends the way markers do is a marker. -/
theorem WellFormed.eq_marker (h : WellFormed suffix objects) (hs : separator ∉ suffix) {k : Key}
    (hk : k ∈ objects) (hsuffix : suffix <:+ k) :
    ∃ p, IsNormal p ∧ Unmarked suffix p ∧ k = marker suffix p := by
  obtain ⟨p, hnormal, hunmarked, rfl | rfl⟩ := h.shape k hk
  · exact absurd hsuffix (not_suffix_of_unmarked hs hunmarked)
  · exact ⟨p, hnormal, hunmarked, rfl⟩

theorem WellFormed.within (h : WellFormed suffix objects) (hs : separator ∉ suffix) (key : Key) :
    WellFormedIn suffix objects key := by
  refine ⟨fun k hk _ => h.shape k hk, fun k o _ hsuffix hk => ?_, fun p hp _ hsuffix => ?_⟩
  · obtain ⟨p, hnormal, hunmarked, rfl⟩ := h.eq_marker hs (mem_of_getElem? hk) hsuffix
    exact h.marker_empty p o hnormal hunmarked hk
  · obtain ⟨p, hnormal, hunmarked, rfl | rfl⟩ := h.shape p hp
    · exact h.file_alone p hp hnormal hunmarked
    · exact absurd (suffix_marker suffix p) hsuffix

/-- A bucket of files, none of which has a key below it, is well-formed. -/
theorem wellFormed_of_files (hs : separator ∉ suffix)
    (hkeys : ∀ k ∈ objects, IsNormal k ∧ Unmarked suffix k ∧ ¬ objects.HasBelow k) :
    WellFormed suffix objects := by
  have hmarker : ∀ p, marker suffix p ∉ objects := fun p hp =>
    not_suffix_of_unmarked hs (hkeys _ hp).2.1 (suffix_marker suffix p)
  exact ⟨fun k hk => ⟨k, (hkeys k hk).1, (hkeys k hk).2.1, Or.inl rfl⟩,
    fun p o _ _ ho => absurd (mem_of_getElem? ho) (hmarker p),
    fun p hp _ _ => ⟨hmarker p, (hkeys p hp).2.2⟩⟩

theorem WellFormedIn.child (h : WellFormedIn suffix objects key) (hkey : key ≠ []) (name : Key) :
    WellFormedIn suffix objects (key ++ separator :: name) :=
  ⟨fun k hk hbelow => h.shape k hk (childPrefix_trans hkey hbelow),
    fun k o htree => h.marker_empty k o (Or.inr (htree.of_child hkey)),
    fun p hp hbelow => h.file_alone p hp (childPrefix_trans hkey hbelow)⟩

/-- Well-formedness of a tree depends on the tree alone. -/
theorem WellFormedIn.congr (hwf : WellFormedIn suffix objects key) (hkey : key ≠ [])
    (h : ∀ k, InTree suffix key k → objects'[k]? = objects[k]?) :
    WellFormedIn suffix objects' key := by
  refine ⟨fun k hk hbelow => ?_, fun k o htree hsuffix hk => ?_, fun p hp hbelow hsuffix => ?_⟩
  · exact hwf.shape k ((mem_congr (h k (Or.inr hbelow))).mp hk) hbelow
  · exact hwf.marker_empty k o htree hsuffix ((h k htree).symm.trans hk)
  · obtain ⟨hmarker, hnone⟩ := hwf.file_alone p ((mem_congr (h p (Or.inr hbelow))).mp hp) hbelow
      hsuffix
    obtain ⟨rest, rfl⟩ := (childPrefix_prefix_iff hkey).mp hbelow
    refine ⟨(mem_congr (h _ (Or.inr ?_))).not.mpr hmarker, fun ⟨k, hk, hp⟩ => hnone ⟨k, ?_, hp⟩⟩
    · exact hbelow.trans (List.prefix_append ..)
    · exact (mem_congr (h k (Or.inr (childPrefix_trans hkey hp)))).mp hk

end Objects

end KeyTree
