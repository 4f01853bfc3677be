import KeyTree.Proofs.Contents
import KeyTree.Proofs.Listing.Entries

/-!
# What a renamed directory carries over

A directory is renamed entry by entry, so what is carried over is what the listings on the way show:
its marker, its files, and what the directories in it carry over. A key with an empty segment is not
shown, a directory with the name of a file is hidden by the file, and an object whose key ends the
way markers do counts as a marker. In a well-formed tree nothing is left out.

## Main definitions

* `Objects.Carries` — the tails that a renamed directory carries over.
* `Status.Covers` — the tails that belong to one entry of a directory.

## Main results

* `Status.Covers.name_eq` — a tail belongs to one name.
* `Status.IsListing.exists_covers` — a stored tail that is carried over belongs to an entry.
* `Objects.WellFormedIn.carries_below` — in a well-formed tree everything is carried over.
-/

namespace KeyTree

open Key

theorem Key.childPrefix_append {key : Key} (hkey : key ≠ []) (rest : Key) :
    childPrefix key ++ rest = key ++ separator :: rest := by
  rw [childPrefix_of_ne_nil hkey, List.append_assoc, List.singleton_append]

namespace Objects

variable {suffix : List Char} {objects objects' : Objects} {key : Key}

/-- What a renamed directory carries over, as tails of its key: its marker, its files, and what the
directories in it carry over that no file hides. -/
inductive Carries (suffix : List Char) (objects : Objects) : Key → Key → Prop
  | marker {key : Key} : Carries suffix objects key suffix
  | file {key name : Key} (hname : IsName name) (hplain : ¬ suffix <:+ name) :
      Carries suffix objects key (separator :: name)
  | child {key name t : Key} (hname : IsName name)
      (hfile : ¬ (key ++ separator :: name ∈ objects ∧ ¬ suffix <:+ name))
      (h : Carries suffix objects (key ++ separator :: name) t) :
      Carries suffix objects key (separator :: (name ++ t))

theorem Carries.isTail {t : Key} (h : Carries suffix objects key t) : IsTail suffix t := by
  cases h with
  | marker => exact Or.inl rfl
  | file => exact Or.inr ⟨_, rfl⟩
  | child => exact Or.inr ⟨_, rfl⟩

/-- What is carried over depends only on which keys lie below the directory. -/
theorem Carries.congr {t : Key} (h : Carries suffix objects key t) (hkey : key ≠ [])
    (hsame : ∀ k, childPrefix key <+: k → (k ∈ objects' ↔ k ∈ objects)) :
    Carries suffix objects' key t := by
  induction h with
  | marker => exact .marker
  | file hname hplain => exact .file hname hplain
  | @child key name t hname hfile _ ih =>
    refine .child hname ?_ (ih (by simp) fun k hk => hsame k (childPrefix_trans hkey hk))
    rwa [hsame _ ((childPrefix_prefix_iff hkey).mpr ⟨name, rfl⟩)]

end Objects

namespace Status

variable {suffix : List Char} {objects : Objects} {key : Key} {entry : Status} {t : Key}

/-- The tails of a directory that belong to an entry: the name of a file, or the name of a directory
and a tail of its own. -/
inductive Covers (suffix : List Char) (entry : Status) : Key → Prop
  | file (h : entry.isDirectory = false) : Covers suffix entry (separator :: entry.name)
  | directory {t : Key} (h : entry.isDirectory = true) (ht : IsTail suffix t) :
      Covers suffix entry (separator :: (entry.name ++ t))

theorem Covers.isTail (h : Covers suffix entry t) : IsTail suffix t := by
  cases h with
  | file => exact Or.inr ⟨_, rfl⟩
  | directory => exact Or.inr ⟨_, rfl⟩

/-- The names of a directory's entries; the name of a file does not end the way markers do. -/
structure IsEntry (suffix : List Char) (entry : Status) : Prop where
  isName : IsName entry.name
  file_plain : entry.isDirectory = false → ¬ suffix <:+ entry.name

theorem Reads.isEntry {under : Key} (h : Reads suffix objects under entry) :
    IsEntry suffix entry := by
  cases h with
  | file hname hplain => exact ⟨hname, fun _ => hplain⟩
  | directory hname => exact ⟨hname, fun h => Bool.noConfusion h⟩

/-- A tail belongs to entries of one name only. -/
theorem Covers.name_eq {other : Status} (hs : separator ∉ suffix) (h : Covers suffix entry t)
    (h' : Covers suffix other t) (hentry : IsEntry suffix entry) (hother : IsEntry suffix other) :
    entry.name = other.name := by
  have hplain : ∀ {a b : Status} {t : Key}, IsEntry suffix a → a.isDirectory = false →
      IsTail suffix t → a.name ≠ b.name ++ t := by
    intro a b t ha hfile ht heq
    have hmem : separator ∉ b.name ++ t := heq ▸ ha.isName.separator_notMem
    rw [ht.eq_suffix fun h => hmem (List.mem_append_right _ h)] at heq
    exact ha.file_plain hfile (heq ▸ List.suffix_append ..)
  cases h with
  | file hfile =>
    generalize hwhole : separator :: entry.name = whole at h'
    cases h' with
    | file => exact (List.cons.inj hwhole).2
    | directory _ ht => exact absurd (List.cons.inj hwhole).2 (hplain hentry hfile ht)
  | @directory t _ ht =>
    generalize hwhole : separator :: (entry.name ++ t) = whole at h'
    cases h' with
    | file hfile => exact absurd (List.cons.inj hwhole).2.symm (hplain hother hfile ht)
    | directory _ ht' =>
      exact (ht.append_inj ht' hs hentry.isName.separator_notMem hother.isName.separator_notMem
        (List.cons.inj hwhole).2).1

/-- The entries before another one have other names. -/
theorem IsListing.name_ne {under : Key} {past rest : List Status}
    (h : IsListing suffix objects under (past ++ entry :: rest)) :
    ∀ e ∈ past, IsEntry suffix e ∧ e.name ≠ entry.name := by
  intro e he
  refine ⟨((h.mem_iff e).mp (List.mem_append_left _ he)).isEntry, fun heq => ?_⟩
  have hlt := (List.pairwise_append.mp h.sorted).2.2 e he entry List.mem_cons_self
  rw [heq] at hlt
  exact List.lt_irrefl _ hlt

/-- A stored tail that is carried over and is not the marker belongs to an entry. -/
theorem IsListing.exists_covers {entries : List Status} (hkey : key ≠ [])
    (h : IsListing suffix objects (childPrefix key) entries)
    (hcarries : objects.Carries suffix key t) (ht : t ≠ suffix) (hstored : key ++ t ∈ objects) :
    ∃ entry ∈ entries, Covers suffix entry t := by
  cases hcarries with
  | marker => exact absurd rfl ht
  | @file _ name hname hplain =>
    obtain ⟨o, ho⟩ := Objects.exists_getElem?_of_mem hstored
    rw [← childPrefix_append hkey] at ho
    exact ⟨_, (h.mem_iff _).mpr (.file hname hplain ho), .file rfl⟩
  | @child _ name t hname hfile hchild =>
    refine ⟨directory name, (h.mem_iff _).mpr (.directory hname ?_ ?_),
      .directory rfl hchild.isTail⟩
    · rwa [childPrefix_append hkey]
    · simp only [childPrefix_append hkey]
      rcases hchild.isTail with rfl | ⟨rest, rfl⟩
      · exact Or.inl hstored
      · exact Or.inr ⟨_, hstored, rest, by simp⟩

/-- The object of a file entry is stored. -/
theorem Reads.mem_file (hkey : key ≠ []) (h : Reads suffix objects (childPrefix key) entry)
    (hfile : entry.isDirectory = false) : key ++ separator :: entry.name ∈ objects := by
  obtain ⟨-, object, hstored, -⟩ := h.exists_object hfile
  rw [← childPrefix_append hkey]
  exact Objects.mem_of_getElem? hstored

/-- A directory entry is a directory. -/
theorem Reads.isDirectory (hkey : key ≠ []) (h : Reads suffix objects (childPrefix key) entry)
    (hdir : entry.isDirectory = true) :
    objects.IsDirectory suffix (key ++ separator :: entry.name) := by
  rw [← childPrefix_append hkey]
  exact h.isDirectory_append hdir

/-- The tails of a file entry are carried over. -/
theorem Reads.carries_file (h : Reads suffix objects (childPrefix key) entry)
    (hfile : entry.isDirectory = false) : objects.Carries suffix key (separator :: entry.name) := by
  cases h with
  | file hname hplain => exact .file hname hplain
  | directory => exact Bool.noConfusion hfile

/-- A directory carries over in an entry what the entry carries over by itself. -/
theorem Reads.carries_directory_iff (hs : separator ∉ suffix) (hkey : key ≠ [])
    (h : Reads suffix objects (childPrefix key) entry) (hdir : entry.isDirectory = true)
    (ht : IsTail suffix t) :
    objects.Carries suffix key (separator :: (entry.name ++ t)) ↔
      objects.Carries suffix (key ++ separator :: entry.name) t := by
  cases h with
  | file => exact Bool.noConfusion hdir
  | @directory name hname hfile =>
    rw [childPrefix_append hkey] at hfile
    refine ⟨fun hcarries => ?_, .child hname hfile⟩
    generalize hwhole : separator :: ((Status.directory name).name ++ t) = whole at hcarries
    cases hcarries with
    | marker => exact absurd (hwhole ▸ List.mem_cons_self) hs
    | @file _ name' hname' hplain =>
      have heq : name ++ t = name' := (List.cons.inj hwhole).2
      have hnone : separator ∉ t := fun hmem =>
        hname'.separator_notMem (heq ▸ List.mem_append_right _ hmem)
      rw [ht.eq_suffix hnone] at heq
      exact absurd (heq ▸ List.suffix_append ..) hplain
    | @child _ name' t' hname' _ hchild =>
      obtain ⟨rfl, rfl⟩ := ht.append_inj hchild.isTail hs hname.separator_notMem
        hname'.separator_notMem (List.cons.inj hwhole).2
      exact hchild

end Status

namespace Objects.WellFormedIn

variable {suffix : List Char} {objects : Objects} {key : Key}

/-- The names on the way to a stored key are names of directories. -/
theorem name_of_prefix (hs : separator ∉ suffix) (hkey : key ≠ [])
    (h : WellFormedIn suffix objects key) {name k : Key} (hname : separator ∉ name)
    (hk : k ∈ objects) (hway : key ++ separator :: (name ++ [separator]) <+: k) :
    name ≠ [] ∧ ¬ suffix <:+ name := by
  have hbelow : childPrefix key <+: k := by
    rw [childPrefix_of_ne_nil hkey]
    exact List.IsPrefix.trans ⟨name ++ [separator], by simp⟩ hway
  obtain ⟨p, hnormal, hunmarked, hp⟩ := h.shape k hk hbelow
  have hpath : (key ++ separator :: name) ++ [separator] <+: p := by
    rcases hp with rfl | rfl
    · simpa using hway
    · exact prefix_of_prefix_append hs (by simpa [marker] using hway)
  obtain ⟨rest, rfl⟩ := hpath
  have hpiece : name ∈ pieces ((key ++ separator :: name) ++ [separator] ++ rest) := by
    rw [List.append_assoc, List.singleton_append, pieces_append_separator,
      pieces_append_separator, pieces_of_notMem hname]
    simp
  exact ⟨hnormal.2 name hpiece, hunmarked name hpiece⟩

/-- A stored name is that of a file or that of a marker. -/
theorem name_of_leaf (hs : separator ∉ suffix) (hkey : key ≠ [])
    (h : WellFormedIn suffix objects key) {name : Key} (hname : separator ∉ name)
    (hk : key ++ separator :: name ∈ objects) :
    (name ≠ [] ∧ ¬ suffix <:+ name) ∨
      ∃ directory, name = directory ++ suffix ∧ directory ≠ [] ∧ ¬ suffix <:+ directory := by
  obtain ⟨p, hnormal, hunmarked, rfl | hp⟩ :=
    h.shape _ hk ((childPrefix_prefix_iff hkey).mpr ⟨name, rfl⟩)
  · have hpiece : name ∈ pieces (key ++ separator :: name) := by
      rw [pieces_append_separator, pieces_of_notMem hname]
      simp
    exact Or.inl ⟨hnormal.2 name hpiece, hunmarked name hpiece⟩
  · have hpath : key ++ [separator] <+: p :=
      prefix_of_prefix_append hs ⟨name, by simpa [marker] using hp⟩
    obtain ⟨directory, rfl⟩ := hpath
    have heq : name = directory ++ suffix := by
      simpa [marker] using hp
    have hpiece : directory ∈ pieces (key ++ [separator] ++ directory) := by
      have hseparator : separator ∉ directory :=
        fun hmem => hname (heq ▸ List.mem_append_left _ hmem)
      rw [List.append_assoc, List.singleton_append, pieces_append_separator,
        pieces_of_notMem hseparator]
      simp
    exact Or.inr ⟨directory, heq, hnormal.2 _ hpiece, hunmarked _ hpiece⟩

/-- In a well-formed tree everything below the directory is carried over. -/
theorem carries_below {key : Key} (hs : separator ∉ suffix) (hkey : key ≠ [])
    (h : WellFormedIn suffix objects key) {rest : Key}
    (hstored : key ++ separator :: rest ∈ objects) :
    objects.Carries suffix key (separator :: rest) := by
  have hfile : ∀ {name : Key}, ¬ suffix <:+ name → key ++ separator :: name ∈ objects →
      marker suffix (key ++ separator :: name) ∉ objects ∧
        ¬ objects.HasBelow (key ++ separator :: name) := fun hplain hmem =>
    h.file_alone _ hmem ((childPrefix_prefix_iff hkey).mpr ⟨_, rfl⟩)
      fun hsuffix => hplain (suffix_of_suffix_append_separator hs hsuffix)
  rcases Listing.separator_cases rest with hrest | ⟨name, further, hname, heq⟩
  · rcases h.name_of_leaf hs hkey hrest hstored with ⟨hne, hplain⟩ | ⟨directory, rfl, hne, hplain⟩
    · exact .file ⟨hne, hrest⟩ hplain
    · have hname : IsName directory := ⟨hne, fun hmem => hrest (List.mem_append_left _ hmem)⟩
      refine .child hname (fun hmem => (hfile hplain hmem.1).1 ?_) .marker
      rwa [marker_child]
  · have hchild : objects.Carries suffix (key ++ separator :: name) (separator :: further) :=
      (h.child hkey name).carries_below hs (by simp) (by simpa [heq] using hstored)
    subst heq
    have hbelow : key ++ separator :: (name ++ [separator]) <+:
        key ++ separator :: (name ++ separator :: further) := ⟨further, by simp⟩
    obtain ⟨hne, hplain⟩ := h.name_of_prefix hs hkey hname hstored hbelow
    refine .child ⟨hne, hname⟩ (fun hmem => (hfile hplain hmem.1).2 ⟨_, hstored, ?_⟩) hchild
    simp
termination_by rest.length
decreasing_by
  simp only [heq, List.length_append, List.length_cons]
  omega

/-- In a well-formed tree no entry has a name that ends the way markers do. -/
theorem not_suffix_of_reads (hs : separator ∉ suffix) (hkey : key ≠ [])
    (h : WellFormedIn suffix objects key) {entry : Status}
    (hentry : Status.Reads suffix objects (childPrefix key) entry) : ¬ suffix <:+ entry.name := by
  cases hentry with
  | file _ hplain => exact hplain
  | @directory name hname _ hshown =>
    simp only [childPrefix_append hkey] at hshown
    rcases hshown with hmarker | ⟨k, hk, hbelow⟩
    · have hleaf : separator ∉ name ++ suffix := by simp [hname.separator_notMem, hs]
      rcases h.name_of_leaf hs hkey hleaf hmarker with ⟨-, hplain⟩ | ⟨directory, heq, -, hplain⟩
      · exact absurd (List.suffix_append ..) hplain
      · rwa [← List.append_cancel_right heq] at hplain
    · exact (h.name_of_prefix hs hkey hname.separator_notMem hk hbelow).2

end Objects.WellFormedIn

end KeyTree
