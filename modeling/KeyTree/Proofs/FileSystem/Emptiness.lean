import KeyTree.Proofs.FileSystem.Asking

/-!
# Deletions that keep the contents

A deletion that is not recursive goes by the entries of the directory, and the entries are got from
all pages of the listing or not at all. So a directory with an entry is never taken for an empty
one, whichever requests fail and wherever the pages are cut: its marker stays. A file is removed
without a look at what lies below its key, and nothing else is removed then.

## Main definitions

* `Objects.HasEntry` — contents that show an entry below a text.
* `FileSystem.KeepsContents` — what a deletion that is not recursive keeps.

## Main results

* `Status.IsListing.eq_nil_iff` — a listing is empty exactly if there is no entry.
* `FileSystem.delete_keepsContents` — deletions that are not recursive keep the contents.
-/

namespace KeyTree

open Key StoreM

/-- There *is an entry* below a text when a name is stored there that is more than the suffix of
markers, or when keys lie below a name. -/
def Objects.HasEntry (suffix : List Char) (objects : Objects) (under : Key) : Prop :=
  ∃ name, IsName name ∧ ((under ++ name ∈ objects ∧ name ≠ suffix) ∨
    ∃ k ∈ objects, under ++ (name ++ [separator]) <+: k)

/-! ### Empty listings -/

namespace Status

variable {suffix : List Char} {objects objects' : Objects} {under name : Key}

/-- A name with a marker or with keys below it is an entry. -/
theorem exists_reads_of_shown (hname : IsName name)
    (hshown : under ++ (name ++ suffix) ∈ objects ∨
      ∃ k ∈ objects, under ++ (name ++ [separator]) <+: k) :
    ∃ entry, Reads suffix objects under entry := by
  by_cases hfile : under ++ name ∈ objects ∧ ¬ suffix <:+ name
  · obtain ⟨object, hstored⟩ := Objects.exists_getElem?_of_mem hfile.1
    exact ⟨_, .file hname hfile.2 hstored⟩
  · exact ⟨_, .directory hname hfile hshown⟩

/-- An entry is shown by a key. -/
theorem Reads.hasEntry {entry : Status} (hseparator : separator ∉ suffix)
    (h : Reads suffix objects under entry) : objects.HasEntry suffix under := by
  cases h with
  | file hname hplain hstored =>
    refine ⟨_, hname, Or.inl ⟨Objects.mem_of_getElem? hstored, ?_⟩⟩
    rintro rfl
    exact hplain List.suffix_rfl
  | @directory name hname _ hshown =>
    rcases hshown with hmarker | hbelow
    · refine ⟨name ++ suffix, ⟨?_, ?_⟩, Or.inl ⟨hmarker, ?_⟩⟩
      · simp [hname.ne_nil]
      · simp [hname.separator_notMem, hseparator]
      · simp [hname.ne_nil]
    · exact ⟨name, hname, Or.inr hbelow⟩

/-- There is an entry exactly if the contents show one. -/
theorem exists_reads_iff (hseparator : separator ∉ suffix) :
    (∃ entry, Reads suffix objects under entry) ↔ objects.HasEntry suffix under := by
  refine ⟨fun ⟨_, h⟩ => h.hasEntry hseparator, ?_⟩
  rintro ⟨name, hname, ⟨hstored, hne⟩ | hbelow⟩
  · by_cases hsuffix : suffix <:+ name
    · -- a marker shows the directory that it flags
      obtain ⟨front, rfl⟩ := hsuffix
      refine exists_reads_of_shown ⟨?_, ?_⟩ (Or.inl hstored)
      · rintro rfl
        exact hne rfl
      · exact fun h => hname.separator_notMem (List.mem_append_left _ h)
    · obtain ⟨object, hobject⟩ := Objects.exists_getElem?_of_mem hstored
      exact ⟨_, .file hname hsuffix hobject⟩
  · exact exists_reads_of_shown hname (Or.inr hbelow)

/-- A listing is empty exactly if there is no entry. -/
theorem IsListing.eq_nil_iff {entries : List Status} (h : IsListing suffix objects under entries)
    (hseparator : separator ∉ suffix) : entries = [] ↔ ¬ objects.HasEntry suffix under := by
  rw [← exists_reads_iff hseparator, List.eq_nil_iff_forall_not_mem, not_exists]
  exact forall_congr' fun entry => not_congr (h.mem_iff entry)

end Status

/-- Entries depend only on what is stored below the text. -/
theorem Objects.hasEntry_congr {suffix : List Char} {objects objects' : Objects} {under : Key}
    (hseparator : separator ∉ suffix) (hsame : ∀ k, under <+: k → objects'[k]? = objects[k]?) :
    objects'.HasEntry suffix under ↔ objects.HasEntry suffix under := by
  rw [← Status.exists_reads_iff hseparator, ← Status.exists_reads_iff hseparator]
  exact ⟨fun ⟨entry, h⟩ => ⟨entry, h.congr fun k hk => (hsame k hk).symm⟩,
    fun ⟨entry, h⟩ => ⟨entry, h.congr hsame⟩⟩

namespace FileSystem

variable {fs : FileSystem} {plan : Plan} {world after : World} {path : Path} {key : Key}
  {result : Except Error Bool}

/-- Removing an object removes it or does nothing, whatever is reported. -/
theorem returns_deleteKey_of_onlyFails (hplan : plan.OnlyFails) (key : Key) :
    (fs.deleteKey key).Returns plan world fun _ after =>
      after.store = world.store ∨ after.store = world.store.remove key := by
  rw [deleteKey]
  refine (returns_send_of_onlyFails hplan (.delete key)).bind ?_
  rintro reply between ⟨-, hstore⟩
  cases reply with
  | ok _ => exact StoreM.returns_pure_iff.mpr hstore
  | error fault =>
    refine StoreM.returns_log_bind fun after hafter _ => StoreM.returns_pure_iff.mpr ?_
    rwa [hafter]

/-! ### What is kept -/

/-- What a deletion that is not recursive *keeps*: everything but the file or else the marker of its
path, the marker, too, unless the directory has no entries, and everything if it is refused. -/
structure KeepsContents (fs : FileSystem) (path : Path) (key : Key) (before after : Objects)
    (result : Except Error Bool) : Prop where
  others : ∀ k : Key, k ≠ key → k ≠ marker fs.config.suffix key → after[k]? = before[k]?
  file : key ∈ before → key ∉ after → ∀ k : Key, k ≠ key → after[k]? = before[k]?
  emptied : marker fs.config.suffix key ∈ before → marker fs.config.suffix key ∉ after →
    key ≠ [] ∧ ¬ before.HasEntry fs.config.suffix (childPrefix key)
  refused : ∀ error, result = .error error → error = .notEmpty path ∧
    before.HasEntry fs.config.suffix (childPrefix key) ∧ ∀ k ∈ before, k ∈ after

theorem KeepsContents.same (objects : Objects) (done : Bool) :
    fs.KeepsContents path key objects objects (.ok done) :=
  ⟨fun _ _ _ => rfl, fun hmem hgone => absurd hmem hgone, fun hmem hgone => absurd hmem hgone,
    fun _ => nofun⟩

theorem KeepsContents.refusal {objects : Objects}
    (h : objects.HasEntry fs.config.suffix (childPrefix key)) :
    fs.KeepsContents path key objects objects (.error (.notEmpty path)) := by
  refine ⟨fun _ _ _ => rfl, fun hmem hgone => absurd hmem hgone,
    fun hmem hgone => absurd hmem hgone, ?_⟩
  rintro _ ⟨⟩
  exact ⟨rfl, h, fun _ => id⟩

theorem KeepsContents.file_removed (store : Store) (done : Bool) :
    fs.KeepsContents path key store.objects (store.remove key).objects (.ok done) := by
  refine ⟨fun k hk _ => Objects.getElem?_remove_of_ne store hk,
    fun _ _ k hk => Objects.getElem?_remove_of_ne store hk, fun hmem hgone => ?_, fun _ => nofun⟩
  exact absurd (Objects.mem_remove_iff.mpr ⟨(fs.ne_marker key).symm, hmem⟩) hgone

theorem KeepsContents.marker_removed {store : Store} (done : Bool) (hkey : key ≠ [])
    (hempty : ¬ store.objects.HasEntry fs.config.suffix (childPrefix key)) :
    fs.KeepsContents path key store.objects (store.remove (marker fs.config.suffix key)).objects
      (.ok done) := by
  refine ⟨fun k _ hk => Objects.getElem?_remove_of_ne store hk, fun hmem hgone => ?_,
    fun _ _ => ⟨hkey, hempty⟩, fun _ => nofun⟩
  exact absurd (Objects.mem_remove_iff.mpr ⟨fs.ne_marker key, hmem⟩) hgone

/-- A question before a deletion that leaves the file alone does not matter for what is kept. -/
theorem KeepsContents.of_settles {store settled : Store} {objects : Objects}
    (h : fs.KeepsContents path key settled.objects objects result)
    (hfile : objects[key]? = settled.objects[key]?) (hsettles : fs.Settles plan key store settled) :
    fs.KeepsContents path key store.objects objects result := by
  have hentry : settled.objects.HasEntry fs.config.suffix (childPrefix key) ↔
      store.objects.HasEntry fs.config.suffix (childPrefix key) :=
    Objects.hasEntry_congr fs.config.separator_notMem_suffix fun _ => hsettles.getElem?_of_below
  refine ⟨fun k hk hmarker => ?_, fun hmem hgone => ?_, fun hmem hgone => ?_,
    fun error herror => ?_⟩
  · exact (h.others k hk hmarker).trans (hsettles.getElem?_of_ne hmarker)
  · exact absurd ((Objects.mem_congr hfile).mpr (hsettles.mem hmem)) hgone
  · obtain ⟨hkey, hempty⟩ := h.emptied (hsettles.mem hmem) hgone
    exact ⟨hkey, hentry.not.mp hempty⟩
  · obtain ⟨heq, hhas, hkept⟩ := h.refused error herror
    exact ⟨heq, hentry.mp hhas, fun k hk => hkept k (hsettles.mem hk)⟩

/-! ### The deletions -/

variable (hplan : plan.OnlyFails) (hm : fs.Mounted world.store)
  (hpath : normalize? fs.root path = some key)

include hplan hm hpath in
/-- A directory that is deleted without its contents keeps them. The file of its name stays. -/
theorem deleteDirectory_keepsContents
    (hrun : (fs.deleteDirectory path false).exec plan world = (result, after)) :
    fs.KeepsContents path key world.store.objects after.store.objects result ∧
      after.store.objects[key]? = world.store.objects[key]? := by
  rw [deleteDirectory, key_eq hpath, pure_bind, clearDirectory, if_neg (by simp)] at hrun
  simp only [bind_assoc] at hrun
  obtain ⟨reply, between, ⟨⟨kind, hlooked⟩, hreply⟩, hrun⟩ :=
    (returns_listStatus_of_onlyFails hplan hm (hm.normalize?_key hpath) false).of_bind hrun
  have hsettles := hlooked.settles
  suffices hkeeps : fs.KeepsContents path key between.store.objects after.store.objects result ∧
      after.store.objects[key]? = between.store.objects[key]? from
    ⟨hkeeps.1.of_settles hkeeps.2 hsettles,
      hkeeps.2.trans (hsettles.getElem?_of_ne (fs.ne_marker key))⟩
  cases reply with
  | none =>
    cases hrun
    exact ⟨.same _ _, rfl⟩
  | some entries =>
    have hlisting : Status.IsListing fs.config.suffix between.store.objects (childPrefix key)
        entries := by
      rw [hreply entries rfl]
      exact Status.isListing_entriesOf fs.config.suffix_ne_nil fs.config.separator_notMem_suffix
    have hnil := hlisting.eq_nil_iff fs.config.separator_notMem_suffix
    cases entries with
    | cons entry entries =>
      cases hrun
      exact ⟨.refusal (by simpa using hnil), rfl⟩
    | nil =>
      rw [pure_bind, if_neg (by simp)] at hrun
      split at hrun
      · cases hrun
        exact ⟨.same _ _, rfl⟩
      · rename_i hroot
        rw [markerKey_eq (hm.normalize?_key hpath), pure_bind] at hrun
        obtain ⟨done, rfl, hsame | hremoved⟩ :=
          (returns_deleteKey_of_onlyFails hplan _).of_exec hrun
        · rw [hsame]
          exact ⟨.same _ done, rfl⟩
        · rw [hremoved]
          exact ⟨.marker_removed done (by simpa [isRoot] using hroot) (hnil.mp rfl),
            Objects.getElem?_remove_of_ne _ (fs.ne_marker key)⟩

include hplan hm hpath in
/-- Whichever requests fail, a deletion that is not recursive keeps the contents. A directory that
is deleted keeps the file of its name, too. -/
theorem delete_keepsContents :
    ((fs.delete path false).exec plan world = (result, after) →
      fs.KeepsContents path key world.store.objects after.store.objects result) ∧
    ((fs.deleteDirectory path false).exec plan world = (result, after) →
      fs.KeepsContents path key world.store.objects after.store.objects result ∧
        after.store.objects[key]? = world.store.objects[key]?) := by
  refine ⟨fun hrun => ?_, deleteDirectory_keepsContents hplan hm hpath⟩
  have hfile : (fs.isFile path).Returns plan world fun _ seen => seen.store = world.store := by
    by_cases hkey : key = []
    · rw [isFile_root hpath hkey]
      exact StoreM.returns_pure_iff.mpr rfl
    · exact (returns_isFile_of_onlyFails hplan hm hpath hkey).mono fun _ _ h => h.1
  rw [delete] at hrun
  obtain ⟨found, seen, hseen, hrun⟩ := hfile.of_bind hrun
  have hmSeen := hm.of_eq hseen
  rw [← hseen]
  cases found with
  | true =>
    rw [if_pos rfl, deleteFile, key_eq hpath, pure_bind] at hrun
    obtain ⟨done, rfl, hsame | hremoved⟩ := (returns_deleteKey_of_onlyFails hplan _).of_exec hrun
    · rw [hsame]
      exact .same _ done
    · rw [hremoved]
      exact .file_removed _ done
  | false =>
    rw [if_neg (by simp)] at hrun
    obtain ⟨_, looked, ⟨kind, rfl, hlooked⟩, hrun⟩ :=
      (returns_isDirectory_of_onlyFails hplan hmSeen hpath).of_bind hrun
    have hsettles := hlooked.settles
    split at hrun
    · obtain ⟨hkeeps, hfile⟩ :=
        deleteDirectory_keepsContents hplan (hsettles.mounted hmSeen) hpath hrun
      exact hkeeps.of_settles hfile hsettles
    · obtain ⟨done, rfl, -, hsame⟩ := (returns_refuse _).of_exec hrun
      rw [hsame]
      exact (KeepsContents.same _ done).of_settles rfl hsettles

/-- A directory with a marker whose first page, of one name, shows no entry. -/
def lateEntry : World :=
  { store := .holding ['b'] [("d//x".toList, [1]), ("d/a".toList, [2]), ("d~".toList, [])] }

/-- Pages after the first one cannot be fetched. -/
def laterPagesFail : Plan :=
  Script.plan [{ method := some .list, continues := some true,
                 effect := .fail (.store (.refused (some "503") none)) false }]

/-- The directory is not taken for an empty one after its first page. -/
theorem delete_keepsContents_laterPagesFail :
    ∃ after, (narrowBucket.delete ['d'] false).exec laterPagesFail lateEntry = (.ok false, after) ∧
      narrowBucket.KeepsContents ['d'] ['d'] lateEntry.store.objects after.store.objects
        (.ok false) ∧
      after.store.objects.keys = ["d//x".toList, "d/a".toList, "d~".toList] ∧
      ((narrowBucket.delete ['d'] false).exec .quiet lateEntry).1 = .error (.notEmpty ['d']) := by
  have hplan : laterPagesFail.OnlyFails := (Script.refuses_plan_singleton rfl).onlyFails
  have hm : narrowBucket.Mounted lateEntry.store := ⟨rfl, 'b', by decide, by decide⟩
  have hpath : normalize? narrowBucket.root ['d'] = some ['d'] := by decide +kernel
  have hdone : ((narrowBucket.delete ['d'] false).exec laterPagesFail lateEntry).1 =
      .ok false := by
    decide +kernel
  have hrun := StoreM.exec_eq_of_fst hdone
  exact ⟨_, hrun, (delete_keepsContents hplan hm hpath).1 hrun, by decide +kernel,
    by decide +kernel⟩

end FileSystem

end KeyTree
