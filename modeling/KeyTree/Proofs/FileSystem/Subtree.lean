import KeyTree.Proofs.FileSystem.ConflictFree
import KeyTree.Proofs.FileSystem.Materialization

/-!
# Listings of subtrees

A listing of one level and a listing of the subtree read the keys below a directory in two ways: the
one goes by what stands before the next separator, the other looks at whole keys and makes up the
directories above them. If every key is normal and no file is a directory, both ways lead to one
tree: the subtree shows the entries of the level and, for each directory among them, the entries of
the subtree of that directory, each under the name of the directory.

## Main definitions

* `Status.ReadsSubtree` — which entries the contents of a bucket give the subtree of a directory.
* `Status.within` — an entry of a directory as one of the directory above.
* `Status.Composes` — when a listing of a subtree is put together from other listings.

## Main results

* `Status.mem_entriesOf_recursive_iff` — the listing of a subtree gives exactly its entries.
* `Status.readsSubtree_iff` — the entries of a subtree by those of one level.
* `Status.entriesOf_recursive_composes` — the listing of a subtree by those of its parts.
* `Session.listStatus_composes` — listings in a session.
-/

namespace KeyTree

open Key Listing

/-! ### Normal keys by their first names -/

namespace Key

variable {name rest r front suffix n : Key}

/-- A normal key is a name, or a name before a normal key. -/
theorem IsNormal.first_cases (h : IsNormal r) :
    IsName r ∨ ∃ name rest, IsName name ∧ IsNormal rest ∧ r = name ++ separator :: rest := by
  rcases separator_cases r with hmem | ⟨name, rest, hname, rfl⟩
  · exact Or.inl ⟨h.1, hmem⟩
  · have hpieces := h.2
    rw [pieces_append_separator, pieces_of_notMem hname] at hpieces
    have hne : name ≠ [] := hpieces name List.mem_cons_self
    have hrest : IsNormal (childPrefix name ++ rest) := by
      rwa [childPrefix_of_ne_nil hne, List.append_assoc, List.singleton_append]
    exact Or.inr ⟨name, rest, ⟨hne, hname⟩, hrest.of_childPrefix_append, rfl⟩

/-- A normal key below a directory is named there by itself. -/
theorem IsNormal.childName (h : IsNormal r) (key : Key) :
    childName (childPrefix key ++ r) (childPrefix key) = r := by
  have hname := h.childName_append (childPrefix key) []
  rwa [List.append_nil, h.trimEnd] at hname

/-- What stands before the suffix of a normal key is empty, normal, or normal before a separator. -/
theorem IsNormal.front_cases (h : IsNormal (front ++ suffix)) :
    front = [] ∨ IsNormal front ∨ ∃ r, IsNormal r ∧ front = r ++ [separator] := by
  by_cases hmem : separator ∈ front
  · obtain ⟨parent, name, rfl, hname⟩ := exists_last_piece hmem
    have hparent : IsNormal parent := by
      refine h.of_mem_ancestors (mem_ancestors_iff.mpr ⟨name ++ suffix, by simp⟩)
    by_cases hnil : name = []
    · exact Or.inr (Or.inr ⟨parent, hparent, by rw [hnil]⟩)
    · exact Or.inr (Or.inl (hparent.child ⟨hnil, hname⟩))
  · by_cases hnil : front = []
    · exact Or.inl hnil
    · exact Or.inr (Or.inl (IsName.isNormal ⟨hnil, hmem⟩))

end Key

namespace Status

variable {suffix : List Char} {objects : Objects} {key under name r front : Key} {entry : Status}
  {o : Object}

/-! ### What a normal key shows -/

/-- The entries that a key shows in a listing of the subtree: the directory that it flags, those
that it lies in, and a file if it does not end the way markers do. -/
inductive ShownBy (suffix r : Key) (o : Object) : Status → Prop
  | directory {n : Key} (hn : IsNormal n) (h : n ++ suffix = r ∨ n ∈ ancestors r) :
      ShownBy suffix r o (directory n)
  | file (h : ¬ suffix <:+ r) :
      ShownBy suffix r o { name := r, isDirectory := false, length := o.body.length,
                           modified := some o.modified }

variable (hseparator : separator ∉ suffix)

include hseparator in
/-- A key that does not end the way markers do shows a file and the directories that it lies in. -/
theorem mem_ofItem_file_iff (hr : IsNormal r) (hplain : ¬ suffix <:+ r) :
    entry ∈ ofItem suffix (childPrefix key) true (.object (childPrefix key ++ r) o) ↔
      ShownBy suffix r o entry := by
  have hends : ¬ suffix <:+ childPrefix key ++ r := by
    rwa [suffix_childPrefix_append_iff hseparator]
  have hslash : ¬ [separator] <:+ childPrefix key ++ r := by
    intro h
    exact hr.not_separator_suffix (List.suffix_of_suffix_length_le h (List.suffix_append ..)
      (List.length_pos_iff.mpr hr.1))
  have habove : entry ∈ (if separator ∈ r then directoriesOf true (beforeLast r) else []) ↔
      entry = directory entry.name ∧ entry.name ∈ ancestors r := by
    by_cases hmem : separator ∈ r
    · obtain ⟨parent, last, rfl, hlast⟩ := exists_last_piece hmem
      rw [if_pos hmem, mem_directoriesOf_iff, beforeLast_child hlast, ancestors_child hlast,
        List.mem_append, List.mem_singleton, or_comm]
    · rw [if_neg hmem, ancestors_of_notMem hmem]
      simp
  simp only [ofItem, ofSummary, hr.childName, hends, hslash, hr.1, if_false, true_and]
  rw [List.mem_append, habove, List.mem_singleton]
  constructor
  · rintro (⟨hentry, hn⟩ | rfl)
    · rw [hentry]
      exact .directory (hr.of_mem_ancestors hn) (Or.inr hn)
    · exact .file hplain
  · rintro (⟨hn, rfl | hn⟩ | -)
    · exact absurd (List.suffix_append ..) hplain
    · exact Or.inl ⟨rfl, hn⟩
    · exact Or.inr rfl

include hseparator in
/-- A key that ends the way markers do shows no file. -/
theorem shownBy_marker_iff :
    ShownBy suffix (front ++ suffix) o entry ↔ entry = directory entry.name ∧
      IsNormal entry.name ∧ (entry.name = front ∨ entry.name ∈ ancestors front) := by
  constructor
  · rintro (⟨hn, h | h⟩ | h)
    · exact ⟨rfl, hn, Or.inl (List.append_cancel_right h)⟩
    · exact ⟨rfl, hn, Or.inr ((mem_ancestors_marker_iff hseparator).mp h)⟩
    · exact absurd (List.suffix_append ..) h
  · rintro ⟨hentry, hn, h⟩
    rw [hentry]
    exact .directory hn (h.imp (congrArg (· ++ suffix)) (mem_ancestors_marker_iff hseparator).mpr)

/-- The directories that are read off the text before the suffix of a marker: the text itself, if it
is a key, and those above it. -/
theorem mem_directoriesOf_trimEnd_iff (hr : IsNormal (front ++ suffix)) :
    entry ∈ (if trimEnd front = [] then [] else directoriesOf true (trimEnd front)) ↔
      entry = directory entry.name ∧ IsNormal entry.name ∧
        (entry.name = front ∨ entry.name ∈ ancestors front) := by
  rcases hr.front_cases with rfl | hfront | ⟨p, hp, rfl⟩
  · rw [if_pos (show trimEnd [] = [] from rfl)]
    refine iff_of_false List.not_mem_nil ?_
    rintro ⟨-, hn, hnil | h⟩
    · exact hn.1 hnil
    · exact List.not_mem_nil h
  · rw [hfront.trimEnd, if_neg hfront.1, mem_directoriesOf_iff]
    refine and_congr_right fun _ => (and_iff_right_of_imp ?_).symm
    rintro (hn | hn)
    · exact hn ▸ hfront
    · exact hfront.of_mem_ancestors hn
  · -- the last segment is the bare suffix, so the text is no key and only shows what it lies in
    rw [trimEnd_append_separators p (by simp), hp.trimEnd, if_neg hp.1, mem_directoriesOf_iff,
      ancestors_child List.not_mem_nil, List.mem_append, List.mem_singleton]
    refine and_congr_right fun _ => ⟨?_, ?_⟩
    · rintro (hn | hn)
      · exact ⟨hn ▸ hp, Or.inr (Or.inr hn)⟩
      · exact ⟨hp.of_mem_ancestors hn, Or.inr (Or.inl hn)⟩
    · rintro ⟨hn, hself | habove | hn'⟩
      · exact absurd (hself ▸ List.suffix_append ..) hn.not_separator_suffix
      · exact Or.inr habove
      · exact Or.inl hn'

include hseparator in
/-- A key that ends the way markers do shows the directory before the suffix, if it has a name, and
the directories that it lies in. -/
theorem mem_ofItem_marker_iff (hr : IsNormal (front ++ suffix)) :
    entry ∈ ofItem suffix (childPrefix key) true
        (.object (childPrefix key ++ (front ++ suffix)) o) ↔
      ShownBy suffix (front ++ suffix) o entry := by
  have hends : suffix <:+ childPrefix key ++ (front ++ suffix) := by
    rw [suffix_childPrefix_append_iff hseparator]
    exact List.suffix_append ..
  have hcut : (front ++ suffix).take ((front ++ suffix).length - suffix.length) = front := by
    rw [List.length_append, Nat.add_sub_cancel, List.take_left]
  simp only [ofItem, ofSummary, hr.childName, hends, hcut, if_true]
  rw [shownBy_marker_iff hseparator, mem_directoriesOf_trimEnd_iff hr]

include hseparator in
/-- What a stored key shows in a listing of the subtree. -/
theorem mem_ofItem_recursive_iff (hr : IsNormal r) :
    entry ∈ ofItem suffix (childPrefix key) true (.object (childPrefix key ++ r) o) ↔
      ShownBy suffix r o entry := by
  by_cases hplain : suffix <:+ r
  · obtain ⟨front, rfl⟩ := hplain
    exact mem_ofItem_marker_iff hseparator hr
  · exact mem_ofItem_file_iff hseparator hr hplain

/-! ### The entries of a subtree -/

/-- The entries that the contents of a bucket give the subtree below a text: a file for each key
that is stored and does not end the way markers do, and a directory for each key with a marker or
with keys below it. -/
inductive ReadsSubtree (suffix : List Char) (objects : Objects) (under : Key) : Status → Prop
  | file {name : Key} {object : Object} (hname : IsNormal name) (hsuffix : ¬ suffix <:+ name)
      (hstored : objects[under ++ name]? = some object) :
      ReadsSubtree suffix objects under
        { name, isDirectory := false, length := object.body.length,
          modified := some object.modified }
  | directory {name : Key} (hname : IsNormal name)
      (hshown : under ++ (name ++ suffix) ∈ objects ∨
        ∃ k ∈ objects, under ++ (name ++ [separator]) <+: k) :
      ReadsSubtree suffix objects under (directory name)

section

variable (hnormal : ∀ k ∈ objects, IsNormal k) (hfree : objects.ConflictFree suffix)

include hseparator hnormal in
/-- What the items of a listing of the subtree show together. -/
theorem mem_flatMap_ofItem_iff :
    entry ∈ (items objects (childPrefix key) (delimiterOf true)).flatMap
        (ofItem suffix (childPrefix key) true) ↔
      ReadsSubtree suffix objects (childPrefix key) entry := by
  rw [List.mem_flatMap]
  constructor
  · rintro ⟨item, hitem, hentry⟩
    obtain ⟨_, o, ho, ⟨r, rfl⟩, rfl⟩ := mem_items_iff.mp hitem
    have hstored := Objects.mem_of_getElem? ho
    have hr : IsNormal r := (hnormal _ hstored).of_childPrefix_append
    rw [itemOf_recursive, mem_ofItem_recursive_iff hseparator hr] at hentry
    rcases hentry with ⟨hn, rfl | habove⟩ | hplain
    · exact .directory hn (Or.inl hstored)
    · refine .directory hn (Or.inr ⟨_, hstored, ?_⟩)
      exact (List.prefix_append_right_inj _).mpr (mem_ancestors_iff.mp habove)
    · exact .file hr hplain ho
  · intro hreads
    have hshows : ∀ {r : Key} {o : Object}, objects[childPrefix key ++ r]? = some o →
        ShownBy suffix r o entry → ∃ item ∈ items objects (childPrefix key) (delimiterOf true),
          entry ∈ ofItem suffix (childPrefix key) true item := by
      intro r o ho hentry
      have hr : IsNormal r := (hnormal _ (Objects.mem_of_getElem? ho)).of_childPrefix_append
      exact ⟨_, mem_items_iff.mpr ⟨_, o, ho, List.prefix_append .., itemOf_recursive ..⟩,
        (mem_ofItem_recursive_iff hseparator hr).mpr hentry⟩
    rcases hreads with ⟨hname, hplain, ho⟩ | ⟨hname, hmarker | ⟨k, hk, rest, rfl⟩⟩
    · exact hshows ho (.file hplain)
    · obtain ⟨o, ho⟩ := Objects.exists_getElem?_of_mem hmarker
      exact hshows ho (.directory hname (Or.inl rfl))
    · obtain ⟨o, ho⟩ := Objects.exists_getElem?_of_mem hk
      rw [List.append_assoc] at ho
      exact hshows ho (.directory hname (Or.inr (mem_ancestors_iff.mpr (List.prefix_append ..))))

include hfree in
/-- A stored file has no marker and no keys below it. -/
theorem not_shown_of_file (hseparator : separator ∉ suffix)
    (hstored : childPrefix key ++ name ∈ objects) (hplain : ¬ suffix <:+ name) :
    ¬ (childPrefix key ++ (name ++ suffix) ∈ objects ∨
      ∃ k ∈ objects, childPrefix key ++ (name ++ [separator]) <+: k) := by
  have hfile : ¬ suffix <:+ childPrefix key ++ name := by
    rwa [suffix_childPrefix_append_iff hseparator]
  rw [← List.append_assoc, ← List.append_assoc]
  rintro (hmarker | ⟨k, hk, hbelow⟩)
  · exact hfree _ hstored _ hmarker ⟨hfile, Or.inl rfl⟩
  · exact hfree _ hstored _ hk ⟨hfile, Or.inr hbelow⟩

include hseparator hfree in
/-- A subtree has one entry of each name. -/
theorem ReadsSubtree.unique {entry' : Status}
    (h : ReadsSubtree suffix objects (childPrefix key) entry)
    (h' : ReadsSubtree suffix objects (childPrefix key) entry') (hname : entry.name = entry'.name) :
    entry = entry' := by
  rcases h with ⟨-, hplain, ho⟩ | ⟨-, hshown⟩ <;> rcases h' with ⟨-, hplain', ho'⟩ | ⟨-, hshown'⟩
  all_goals obtain rfl := hname
  · rw [ho] at ho'
    rw [Option.some.inj ho']
  · exact absurd hshown'
      (not_shown_of_file hfree hseparator (Objects.mem_of_getElem? ho) hplain)
  · exact absurd hshown
      (not_shown_of_file hfree hseparator (Objects.mem_of_getElem? ho') hplain')
  · rfl

include hseparator hnormal hfree in
/-- A listing of the subtree gives exactly the entries of the subtree. -/
theorem mem_entriesOf_recursive_iff :
    entry ∈ entriesOf suffix objects key true ↔
      ReadsSubtree suffix objects (childPrefix key) entry := by
  have hmem := fun e => @mem_flatMap_ofItem_iff suffix objects key e hseparator hnormal
  rw [entriesOf, mem_ofPages_iff, List.flatMap_cons, List.flatMap_nil, List.append_nil,
    ofPage_of_isObject fun item h => isObject_of_mem_items h, ← hmem]
  constructor
  · exact List.mem_of_find?_eq_some
  · intro hentry
    have hfound := (List.find?_isSome (p := fun e => e.name = entry.name)).mpr
      ⟨entry, hentry, by simp⟩
    obtain ⟨e, he⟩ := Option.isSome_iff_exists.mp hfound
    have hname : e.name = entry.name := by simpa using List.find?_some he
    rw [he, ((hmem e).mp (List.mem_of_find?_eq_some he)).unique hseparator hfree
      ((hmem entry).mp hentry) hname]

/-! ### Composition -/

/-- An entry of a directory as one of the directory above. -/
def within (name : Key) (entry : Status) : Status :=
  { entry with name := name ++ separator :: entry.name }

/-- A listing of a subtree *composes* the listing of one level and those of the subtrees of its
directories: it has the entries of the level and, under the name of each directory among them, the
entries of the subtree of that directory, once each and in the order of their names. -/
structure Composes (level : List Status) (below : Key → List Status) (whole : List Status) :
    Prop where
  sorted : whole.Pairwise fun a b => a.name < b.name
  mem_iff : ∀ entry, entry ∈ whole ↔ entry ∈ level ∨
    ∃ e ∈ level, e.isDirectory = true ∧ ∃ f ∈ below e.name, entry = f.within e.name

/-- What lies below a child of a directory lies below the directory under the name of the child. -/
theorem childPrefix_child_append (hname : IsName name) (rest : Key) :
    childPrefix (childPrefix key ++ name) ++ rest =
      childPrefix key ++ (name ++ separator :: rest) := by
  rw [childPrefix_of_ne_nil (List.append_ne_nil_of_right_ne_nil _ hname.ne_nil)]
  simp

/-- The subtree of a child is part of the subtree of the directory. -/
theorem readsSubtree_child_iff (hseparator : separator ∉ suffix) (hname : IsName name) :
    ReadsSubtree suffix objects (childPrefix (childPrefix key ++ name)) entry ↔
      IsNormal entry.name ∧ ReadsSubtree suffix objects (childPrefix key) (entry.within name) := by
  have hends : ∀ rest : Key, suffix <:+ name ++ separator :: rest ↔ suffix <:+ rest := fun rest =>
    ⟨suffix_of_suffix_append_separator hseparator,
      fun h => h.trans ⟨name ++ [separator], by simp⟩⟩
  constructor
  · rintro (⟨hn, hplain, ho⟩ | ⟨hn, hshown⟩)
    · rw [childPrefix_child_append hname] at ho
      exact ⟨hn, .file (hname.isNormal.append hn) (mt (hends _).mp hplain) ho⟩
    · simp only [childPrefix_child_append hname] at hshown
      refine ⟨hn, .directory (hname.isNormal.append hn) ?_⟩
      simp only [List.append_assoc, List.cons_append]
      exact hshown
  · rintro ⟨hn, h⟩
    obtain ⟨n, d, l, m⟩ := entry
    obtain ⟨whole, hwhole⟩ : ∃ whole, whole = within name ⟨n, d, l, m⟩ := ⟨_, rfl⟩
    rw [← hwhole] at h
    rcases h with ⟨-, hplain, ho⟩ | ⟨-, hshown⟩
    · cases hwhole
      rw [← childPrefix_child_append hname] at ho
      exact .file hn (mt (hends _).mpr hplain) ho
    · cases hwhole
      refine .directory hn ?_
      simpa only [childPrefix_child_append hname, List.append_assoc, List.cons_append] using hshown

theorem ReadsSubtree.isNormal (h : ReadsSubtree suffix objects under entry) :
    IsNormal entry.name := by
  cases h with
  | file hname => exact hname
  | directory hname => exact hname

/-- An entry of a subtree comes from a key at its place or below it. -/
theorem ReadsSubtree.exists_key (h : ReadsSubtree suffix objects under entry) :
    ∃ k ∈ objects, under ++ entry.name <+: k := by
  cases h with
  | file _ _ ho => exact ⟨_, Objects.mem_of_getElem? ho, List.prefix_rfl⟩
  | @directory name _ hshown =>
    rcases hshown with hmarker | ⟨k, hk, hbelow⟩
    · exact ⟨_, hmarker, (List.prefix_append_right_inj _).mpr (List.prefix_append ..)⟩
    · exact ⟨k, hk, ((List.prefix_append_right_inj _).mpr (List.prefix_append ..)).trans hbelow⟩

theorem ReadsSubtree.isDirectory (h : ReadsSubtree suffix objects (childPrefix key) entry)
    (hdir : entry.isDirectory = true) :
    objects.IsDirectory suffix (childPrefix key ++ entry.name) := by
  cases h with
  | file => exact Bool.noConfusion hdir
  | @directory name hname hshown =>
    have hne : childPrefix key ++ name ≠ [] := List.append_ne_nil_of_right_ne_nil _ hname.1
    refine Or.inr (hshown.imp ?_ ?_)
    · rw [← List.append_assoc]
      exact id
    · rintro ⟨k, hk, hbelow⟩
      refine ⟨k, hk, ?_⟩
      rwa [← List.append_assoc, ← childPrefix_of_ne_nil hne] at hbelow

/-- An entry of one level is one of the subtree. -/
theorem Reads.inSubtree (h : Reads suffix objects under entry) :
    ReadsSubtree suffix objects under entry := by
  cases h with
  | file hname hplain ho => exact .file hname.isNormal hplain ho
  | directory hname _ hshown => exact .directory hname.isNormal hshown

include hseparator hfree in
/-- What a normal key shows at the level of a directory. -/
theorem ReadsSubtree.level (h : ReadsSubtree suffix objects (childPrefix key) entry)
    (hname : IsName entry.name) : Reads suffix objects (childPrefix key) entry := by
  cases h with
  | file _ hplain ho => exact .file hname hplain ho
  | directory _ hshown =>
    refine .directory hname ?_ hshown
    rintro ⟨hstored, hplain⟩
    exact not_shown_of_file hfree hseparator hstored hplain hshown

include hseparator hfree in
/-- The entries of a subtree are those of the level and, for each directory among them, those of the
subtree of that directory. -/
theorem readsSubtree_iff :
    ReadsSubtree suffix objects (childPrefix key) entry ↔
      Reads suffix objects (childPrefix key) entry ∨
        ∃ e, Reads suffix objects (childPrefix key) e ∧ e.isDirectory = true ∧
          ∃ f, ReadsSubtree suffix objects (childPrefix (childPrefix key ++ e.name)) f ∧
            entry = f.within e.name := by
  constructor
  · intro h
    -- a name alone is an entry of the level; before more it names a directory there, marker or not
    rcases h.isNormal.first_cases with hname | ⟨name, rest, hname, hrest, heq⟩
    · exact Or.inl (h.level hseparator hfree hname)
    · obtain ⟨k, hk, hbelow⟩ := h.exists_key
      have hdir : ReadsSubtree suffix objects (childPrefix key) (directory name) := by
        refine .directory hname.isNormal (Or.inr ⟨k, hk, ?_⟩)
        rw [heq] at hbelow
        refine List.IsPrefix.trans ((List.prefix_append_right_inj _).mpr ?_) hbelow
        exact ⟨rest, by simp⟩
      have hself : entry = within name { entry with name := rest } := by rw [within, ← heq]
      refine Or.inr ⟨_, hdir.level hseparator hfree hname, rfl, { entry with name := rest }, ?_,
        hself⟩
      exact (readsSubtree_child_iff hseparator hname).mpr ⟨hrest, hself ▸ h⟩
  · rintro (h | ⟨e, he, -, f, hf, rfl⟩)
    · exact h.inSubtree
    · exact ((readsSubtree_child_iff hseparator he.isName).mp hf).2

include hseparator hnormal hfree in
/-- The listing of a subtree composes those of its top level and of the subtrees there. -/
theorem entriesOf_recursive_composes (hs : suffix ≠ []) :
    Composes (entriesOf suffix objects key false)
      (fun name => entriesOf suffix objects (childPrefix key ++ name) true)
      (entriesOf suffix objects key true) := by
  refine ⟨ofPages_sorted .., fun entry => ?_⟩
  simp only [mem_entriesOf_recursive_iff hseparator hnormal hfree,
    (isListing_entriesOf hs hseparator).mem_iff]
  exact readsSubtree_iff hseparator hfree

end

end Status

/-! ### Listings in a session -/

namespace Session

variable {session : Session} {path : Path} {key : Key}

/-- If nothing fails, a listing of a directory has the entries of the directory at the start,
whatever is asked before. -/
theorem listStatus_after (hquiet : session.plan = .quiet)
    (hm : session.fs.Mounted session.world.store)
    (hpath : normalize? session.fs.root path = some key)
    (hdir : session.world.store.objects.IsDirectory session.fs.config.suffix key)
    {calls : List PathCall} (hcalls : ∀ call ∈ calls, (session.fs.askedKey? call).isSome)
    (recursive : Bool) :
    ((session.performAll (calls.map .path)).2.perform (.path (.listStatus path recursive))).1 =
      .ok (.statuses (Status.entriesOf session.fs.config.suffix session.world.store.objects key
        recursive)) := by
  obtain ⟨after, hafter, hm', hlooks⟩ := performAll_looksLike hquiet hm hcalls
  obtain ⟨answer, _, hperform, htells, -⟩ :=
    @perform_asks { session with world := after } hquiet hm' (.listStatus path recursive) key hpath
  rw [hafter, hperform]
  rcases htells with ⟨-, rfl⟩ | ⟨hno, -⟩
  · rw [hlooks.entriesOf_eq]
  · exact absurd ((hlooks.isDirectory_iff key).mpr hdir) hno

/-- If nothing fails, every key is normal and no file is a directory, a listing of the subtree of a
directory composes the listing of its level and those of the subtrees of the directories in it,
whatever is asked before each of them. -/
theorem listStatus_composes (hquiet : session.plan = .quiet)
    (hm : session.fs.Mounted session.world.store)
    (hnormal : ∀ k ∈ session.world.store.objects, IsNormal k)
    (hfree : session.world.store.objects.ConflictFree session.fs.config.suffix)
    (hpath : normalize? session.fs.root path = some key)
    (hdir : session.world.store.objects.IsDirectory session.fs.config.suffix key) :
    ∃ level below whole, Status.Composes level below whole ∧
      (∀ e ∈ level, normalize? session.fs.root (childPrefix key ++ e.name) =
        some (childPrefix key ++ e.name)) ∧
      ∀ calls : List PathCall, (∀ call ∈ calls, (session.fs.askedKey? call).isSome) →
        ((session.performAll (calls.map .path)).2.perform (.path (.listStatus path false))).1 =
            .ok (.statuses level) ∧
          ((session.performAll (calls.map .path)).2.perform (.path (.listStatus path true))).1 =
            .ok (.statuses whole) ∧
          ∀ e ∈ level, e.isDirectory = true → ∀ child : Path,
            normalize? session.fs.root child = some (childPrefix key ++ e.name) →
            ((session.performAll (calls.map .path)).2.perform (.path (.listStatus child true))).1 =
              .ok (.statuses (below e.name)) := by
  have hs := session.fs.config.suffix_ne_nil
  have hseparator := session.fs.config.separator_notMem_suffix
  have hcomposes := @Status.entriesOf_recursive_composes _ _ key hseparator hnormal hfree hs
  have hreads := fun e => ((@Status.isListing_entriesOf _ key hs hseparator
    session.world.store.objects).mem_iff e).mp
  refine ⟨_, _, _, hcomposes, fun e he => hm.normalize? ?_, fun calls hcalls => ?_⟩
  · have hname := (hreads e he).isName
    rcases isNormal_of_normalize? hpath with rfl | hkey
    · exact hname.isNormal
    · rw [childPrefix_append hkey.1]
      exact hkey.child hname
  · refine ⟨listStatus_after hquiet hm hpath hdir hcalls false,
      listStatus_after hquiet hm hpath hdir hcalls true, fun e he hdir' child hchild => ?_⟩
    have hbelow := (hreads e he).inSubtree.isDirectory hdir'
    exact listStatus_after hquiet hm hchild hbelow hcalls true

/-- A session over a tree with a file in an implicit directory, a marker that is the bare suffix, a
marker without a parent, and a directory that is named like a marker. -/
def markedTree : Session :=
  { fs := { bucket := ⟨['b']⟩, config := { suffix := ['#'], pageSize := 3 } }
    world := { store := .holding ['b'] [("s/a/#".toList, []), ("s/a/x".toList, [1]),
      ("s/n/o#".toList, []), ("s/z#/y".toList, [2]), ("t".toList, [3])] } }

/-- The directory `z#` is read off the file in it, and the bare suffix shows nothing. -/
theorem listStatus_composes_markedTree :
    (∀ k ∈ markedTree.world.store.objects, IsNormal k) ∧
      markedTree.world.store.objects.ConflictFree ['#'] ∧
      (markedTree.perform (.path (.listStatus "/s//".toList true))).1 =
        .ok (.statuses (Status.entriesOf ['#'] markedTree.world.store.objects ['s'] true)) ∧
      (Status.entriesOf ['#'] markedTree.world.store.objects ['s'] true).map Status.name =
        [['a'], "a/x".toList, ['n'], "n/o".toList, "z#".toList, "z#/y".toList] ∧
      ∃ below, Status.Composes
          (Status.entriesOf ['#'] markedTree.world.store.objects ['s'] false) below
          (Status.entriesOf ['#'] markedTree.world.store.objects ['s'] true) ∧
        below ['n'] = Status.entriesOf ['#'] markedTree.world.store.objects "s/n".toList true := by
  have hnormal : ∀ k ∈ markedTree.world.store.objects, IsNormal k := by
    simp only [markedTree, Store.mem_holding, forall_exists_index, and_imp,
      forall_apply_eq_imp_iff₂]
    decide
  have hfree : markedTree.world.store.objects.ConflictFree ['#'] :=
    Objects.conflictFree_holding.mpr (by decide)
  have hdir : markedTree.world.store.objects.IsDirectory ['#'] ['s'] :=
    Or.inr (Or.inr (Objects.hasBelow_holding.mpr (by decide)))
  have hpath : normalize? markedTree.fs.root "/s//".toList = some ['s'] := by decide +kernel
  obtain ⟨level, below, whole, hcomposes, -, hanswers⟩ := @listStatus_composes markedTree
    "/s//".toList ['s'] rfl ⟨rfl, 'b', by decide, by decide⟩ hnormal hfree hpath hdir
  obtain ⟨hlevel, hwhole, hbelow⟩ := hanswers [] nofun
  have hwhole' : (markedTree.perform (.path (.listStatus "/s//".toList true))).1 =
      .ok (.statuses (Status.entriesOf ['#'] markedTree.world.store.objects ['s'] true)) := by
    decide +kernel
  have hlevel' : (markedTree.perform (.path (.listStatus "/s//".toList false))).1 =
      .ok (.statuses (Status.entriesOf ['#'] markedTree.world.store.objects ['s'] false)) := by
    decide +kernel
  obtain rfl := Answer.statuses.inj (Except.ok.inj (hlevel.symm.trans hlevel'))
  obtain rfl := Answer.statuses.inj (Except.ok.inj (hwhole.symm.trans hwhole'))
  have hn := hbelow (.directory ['n']) (by decide +kernel) rfl "s/n".toList (by decide +kernel)
  have hn' : (markedTree.perform (.path (.listStatus "s/n".toList true))).1 =
      .ok (.statuses
        (Status.entriesOf ['#'] markedTree.world.store.objects "s/n".toList true)) := by
    decide +kernel
  exact ⟨hnormal, hfree, hwhole', by decide +kernel, below, hcomposes,
    Answer.statuses.inj (Except.ok.inj (hn.symm.trans hn'))⟩

end Session

end KeyTree
