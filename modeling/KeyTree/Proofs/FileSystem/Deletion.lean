import KeyTree.Proofs.FileSystem.RenameTree

/-!
# Deleted paths

A deletion looks at its path in one way only. If a file is stored there it removes that file and
stops, whatever lies below; if the path is a directory and its contents are to stay, it goes by the
entries of the directory, and a key below the directory that has no name there is no entry. Whether
a path exists is asked in another way: every key below it counts. So a path can outlast its
deletion, in these two cases and in no other one.

## Main definitions

* `Objects.Outlasts` — paths that are there after a deletion that has succeeded.

## Main results

* `FileSystem.removes_of_deleteDirectory` — what a deletion without the contents has done if it
  succeeds.
* `FileSystem.delete_exists_iff` — the paths that are there after they have been deleted.
-/

namespace KeyTree

open Key

/-- A path below the root *outlasts* its deletion if a file is stored there and hides a directory,
or if the path is a directory that is deleted without its contents while keys lie below it. -/
inductive Objects.Outlasts (suffix : List Char) (recursive : Bool) (objects : Objects) (key : Key) :
    Prop
  | hidden (hfile : key ∈ objects) (hdir : objects.IsDirectory suffix key) :
      Outlasts suffix recursive objects key
  | unnamed (hfile : key ∉ objects) (hflat : recursive = false) (hbelow : objects.HasBelow key) :
      Outlasts suffix recursive objects key

namespace FileSystem

variable {fs : FileSystem} {plan : Plan} {world after : World} {path : Path} {key : Key}
  {recursive : Bool}

/-- A key does not belong to its own tree. -/
theorem not_inTree_self (fs : FileSystem) (hkey : key ≠ []) :
    ¬ InTree fs.config.suffix key key := by
  have htail := (@inTree_append_iff fs.config.suffix key [] hkey).not.mpr ?_
  · rwa [List.append_nil] at htail
  · rintro (hnil | ⟨rest, hrest⟩)
    · exact fs.config.suffix_ne_nil hnil.symm
    · exact List.cons_ne_nil _ _ hrest.symm

/-- Whether a file is stored under a key is not changed by asking whether the key is a directory. -/
theorem Settles.mem_self_iff {store settled : Store} (h : fs.Settles plan key store settled)
    (hkey : key ≠ []) : key ∈ settled.objects ↔ key ∈ store.objects :=
  Objects.mem_congr (h.getElem?_of_ne fun heq => fs.not_inTree_self hkey (Or.inl heq))

/-- Whether keys lie below a key is not changed by asking whether the key is a directory. -/
theorem Settles.hasBelow_self_iff {store settled : Store} (h : fs.Settles plan key store settled) :
    settled.objects.HasBelow key ↔ store.objects.HasBelow key := by
  constructor
  · rintro ⟨k, hk, hbelow⟩
    exact ⟨k, (Objects.mem_congr (h.getElem?_of_below hbelow)).mp hk, hbelow⟩
  · rintro ⟨k, hk, hbelow⟩
    exact ⟨k, h.mem hk, hbelow⟩

/-! ### Deleting a directory without its contents -/

variable (hr : plan.Refuses) (hm : fs.Mounted world.store)
  (hpath : normalize? fs.root path = some key) (hkey : key ≠ [])

include hr hm hpath hkey in
/-- A deletion without the contents succeeds only if the directory has no entries, and then it has
removed the marker. -/
theorem removes_of_deleteDirectory
    (hdone : (fs.deleteDirectory path false).exec plan world = (.ok true, after)) :
    Status.IsListing fs.config.suffix world.store.objects (childPrefix key) [] ∧
      ∃ settled, fs.Settles plan key world.store settled ∧
        after.store = settled.remove (marker fs.config.suffix key) := by
  rw [deleteDirectory, key_eq hpath, pure_bind, clearDirectory, if_neg (by simp)] at hdone
  simp only [bind_assoc] at hdone
  obtain ⟨reply, between, ⟨hsettles, hreply⟩, hdone⟩ :=
    (returns_listStatus hr hm (hm.normalize?_key hpath)).of_bind hdone
  rcases reply with _ | _ | ⟨entry, entries⟩
  · cases hdone
  · -- no entries: the marker is removed
    rw [pure_bind, if_neg (by simp), if_neg (by simpa [isRoot] using hkey),
      markerKey_eq (hm.normalize?_key hpath), pure_bind] at hdone
    obtain ⟨done, hok, -, ⟨-, -, hstore⟩ | ⟨rfl, -, -⟩⟩ :=
      (returns_deleteKey hr (hsettles.mounted hm) _).of_exec hdone
    · exact ⟨hreply.2.congr fun k hk => (hsettles.getElem?_of_below hk).symm,
        between.store, hsettles, hstore⟩
    · cases hok
  · cases hdone

/-! ### What is there after a deletion -/

/-- What a deletion that has succeeded leaves of a path: no file, and a directory exactly if the
path outlasts its deletion. -/
structure Deletes (fs : FileSystem) (recursive : Bool) (key : Key) (before after : Store) :
    Prop where
  mounted : fs.Mounted after
  file : key ∉ after.objects
  isDirectory_iff : after.objects.IsDirectory fs.config.suffix key ↔
    before.objects.Outlasts fs.config.suffix recursive key

include hkey in
/-- The directory of the name of a file is there after the file has been removed. -/
theorem deletes_file {store : Store} (hm : fs.Mounted store) (hfile : key ∈ store.objects) :
    fs.Deletes recursive key store (store.remove key) := by
  have hsame : ∀ k, InTree fs.config.suffix key k →
      (store.remove key).objects[k]? = store.objects[k]? := by
    intro k hk
    refine Objects.getElem?_remove_of_ne store ?_
    rintro rfl
    exact fs.not_inTree_self hkey hk
  refine ⟨hm.remove key, Objects.notMem_iff.mpr (Objects.getElem?_remove_self store key), ?_, ?_⟩
  · intro hdir
    exact .hidden hfile (hdir.congr fun k hk => (hsame k hk).symm)
  · rintro (⟨-, hdir⟩ | ⟨hnone, -, -⟩)
    · exact hdir.congr hsame
    · exact absurd hfile hnone

/-- Nothing of a directory is there after it has been removed with everything in it. -/
theorem deletes_tree {store removed : Store} (hm : fs.Mounted removed)
    (hfile : key ∉ store.objects) (hgone : key ∉ removed.objects)
    (hdir : ¬ removed.objects.IsDirectory fs.config.suffix key) :
    fs.Deletes true key store removed := by
  refine ⟨hm, hgone, fun h => absurd h hdir, ?_⟩
  rintro (⟨hmem, -⟩ | ⟨-, hflat, -⟩)
  · exact absurd hmem hfile
  · exact absurd hflat.symm Bool.false_ne_true

include hkey in
/-- After its marker has been removed a directory is one as long as keys lie below it. -/
theorem deletes_marker {store : Store} (hm : fs.Mounted store) (hfile : key ∉ store.objects) :
    fs.Deletes false key store (store.remove (marker fs.config.suffix key)) := by
  have hsame : ∀ k, k ≠ marker fs.config.suffix key →
      (store.remove (marker fs.config.suffix key)).objects[k]? = store.objects[k]? :=
    fun k hk => Objects.getElem?_remove_of_ne store hk
  have hself : key ≠ marker fs.config.suffix key := fun h => fs.not_inTree_self hkey (Or.inl h)
  have hbelow : ∀ k, childPrefix key <+: k → k ≠ marker fs.config.suffix key := by
    rintro k hk rfl
    exact not_childPrefix_prefix_marker fs.config.separator_notMem_suffix hkey hk
  refine ⟨hm.remove _, (Objects.mem_congr (hsame key hself)).not.mpr hfile, ?_, ?_⟩
  · rintro (hnil | hmarker | ⟨k, hk, hunder⟩)
    · exact absurd hnil hkey
    · exact absurd rfl (Objects.mem_remove_iff.mp hmarker).1
    · exact .unnamed hfile rfl ⟨k, (Objects.mem_remove_iff.mp hk).2, hunder⟩
  · rintro (⟨hmem, -⟩ | ⟨-, -, k, hk, hunder⟩)
    · exact absurd hmem hfile
    · exact Or.inr (Or.inr ⟨k, Objects.mem_remove_iff.mpr ⟨hbelow k hunder, hk⟩, hunder⟩)

/-- A question before a deletion does not matter for what the deletion leaves. -/
theorem Deletes.of_settles {store settled removed : Store}
    (h : fs.Deletes recursive key settled removed) (hsettles : fs.Settles plan key store settled)
    (hkey : key ≠ []) : fs.Deletes recursive key store removed := by
  refine ⟨h.mounted, h.file, h.isDirectory_iff.trans ?_⟩
  have hfile := hsettles.mem_self_iff hkey
  constructor
  · rintro (⟨hmem, hdir⟩ | ⟨hnone, hflat, hbelow⟩)
    · exact .hidden (hfile.mp hmem) (hsettles.isDirectory_of hdir)
    · exact .unnamed (hfile.not.mp hnone) hflat (hsettles.hasBelow_self_iff.mp hbelow)
  · rintro (⟨hmem, hdir⟩ | ⟨hnone, hflat, hbelow⟩)
    · exact .hidden (hfile.mpr hmem) (hsettles.isDirectory hdir)
    · exact .unnamed (hfile.not.mpr hnone) hflat (hsettles.hasBelow_self_iff.mpr hbelow)

include hr hm hpath hkey in
/-- A directory that is no file is deleted with everything in it, or its marker is removed. -/
theorem deletes_of_deleteDirectory (hfile : key ∉ world.store.objects)
    (hdone : (fs.deleteDirectory path recursive).exec plan world = (.ok true, after)) :
    fs.Deletes recursive key world.store after.store := by
  cases recursive with
  | true =>
    obtain ⟨done, hok, hm', hprunes, hvacant, -⟩ :=
      (returns_deleteDirectory hr hm hpath hkey).of_exec hdone
    obtain rfl := Except.ok.inj hok
    have hsame : key ∈ after.store.objects ↔ key ∈ world.store.objects :=
      Objects.mem_congr (hprunes.getElem?_eq (fs.not_inTree_self hkey))
    exact deletes_tree hm' hfile (hsame.not.mpr hfile)
      ((Objects.not_isDirectory_iff hkey).mpr (hvacant rfl))
  | false =>
    obtain ⟨-, settled, hsettles, hstore⟩ := removes_of_deleteDirectory hr hm hpath hkey hdone
    rw [hstore]
    exact (deletes_marker hkey (hsettles.mounted hm)
      ((hsettles.mem_self_iff hkey).not.mpr hfile)).of_settles hsettles hkey

include hm hpath hkey in
/-- If nothing fails, a deletion that succeeds leaves no file, and a directory exactly if the path
outlasts its deletion. -/
theorem deletes_of_delete
    (hdone : (fs.delete path recursive).exec .quiet world = (.ok true, after)) :
    fs.Deletes recursive key world.store after.store := by
  have hr := Plan.refuses_quiet
  rw [delete] at hdone
  obtain ⟨found, seen, ⟨hseen, -, hfound⟩, hdone⟩ :=
    (returns_isFile hr hm hpath hkey).of_bind hdone
  rw [Plan.finds_quiet_iff hkey] at hfound
  have hmSeen := hm.of_eq hseen
  cases found with
  | true =>
    rw [if_pos rfl, deleteFile, key_eq hpath, pure_bind] at hdone
    obtain ⟨done, hok, -, ⟨-, -, hstore⟩ | ⟨rfl, -, -⟩⟩ :=
      (returns_deleteKey hr hmSeen key).of_exec hdone
    · rw [hstore, hseen]
      exact deletes_file hkey hm (hfound.mp rfl)
    · cases hok
  | false =>
    rw [if_neg (by simp)] at hdone
    have hfile : key ∉ world.store.objects := fun h => Bool.false_ne_true (hfound.mpr h)
    obtain ⟨isDirectory, looked, ⟨-, -, -, hsettles⟩, hdone⟩ :=
      (returns_isDirectory hr hmSeen hpath).of_bind hdone
    rw [hseen] at hsettles
    cases isDirectory with
    | true =>
      exact (deletes_of_deleteDirectory hr (hsettles.mounted hm) hpath hkey
        ((hsettles.mem_self_iff hkey).not.mpr hfile) hdone).of_settles hsettles hkey
    | false =>
      rw [if_neg (by simp)] at hdone
      obtain ⟨done, hok, rfl, -⟩ := (returns_refuse _).of_exec hdone
      cases hok

include hm hpath hkey in
/-- If nothing fails, a path that has been deleted exists afterwards exactly if it outlasts its
deletion. -/
theorem delete_exists_iff
    (hdone : (fs.delete path recursive).exec .quiet world = (.ok true, after)) :
    (fs.exists? path).Returns .quiet after fun found _ =>
      found = true ↔ world.store.objects.Outlasts fs.config.suffix recursive key := by
  have hdeletes := deletes_of_delete hm hpath hkey hdone
  refine (returns_exists? Plan.refuses_quiet hdeletes.mounted hpath).mono
    fun found _ ⟨htrue, hquiet, _⟩ => ?_
  rw [← hdeletes.isDirectory_iff]
  exact ⟨fun h => (htrue h).resolve_left hdeletes.file, fun h => hquiet rfl (Or.inr h)⟩

/-- A file with the name of a directory that holds another file. -/
def hidingFile : World :=
  { store := .holding ['b'] [(['a'], [1]), ("a/x".toList, [2])] }

/-- The file is removed, and the directory that it hid is there, although everything was to be
removed. -/
theorem delete_exists_hidingFile :
    ∃ after, (plainBucket.delete ['a'] true).exec .quiet hidingFile = (.ok true, after) ∧
      hidingFile.store.objects.Outlasts plainBucket.config.suffix true ['a'] ∧
      (plainBucket.exists? ['a']).Returns .quiet after fun found _ => found = true := by
  have hm : plainBucket.Mounted hidingFile.store := ⟨rfl, 'b', by decide, by decide⟩
  have hpath : normalize? plainBucket.root ['a'] = some ['a'] := by decide +kernel
  have hdone : ((plainBucket.delete ['a'] true).exec .quiet hidingFile).1 = .ok true := by
    decide +kernel
  have houtlasts : hidingFile.store.objects.Outlasts plainBucket.config.suffix true ['a'] :=
    .hidden (Store.mem_holding.mpr ⟨_, List.mem_cons_self, rfl⟩)
      (Objects.hasBelow_holding.mpr ⟨("a/x".toList, [2]), by simp, by decide⟩).isDirectory
  refine ⟨_, StoreM.exec_eq_of_fst hdone, houtlasts, ?_⟩
  exact (delete_exists_iff hm hpath (by decide) (StoreM.exec_eq_of_fst hdone)).mono
    fun found _ hfound => hfound.mpr houtlasts

/-- A directory with one key that has an empty segment. -/
def unnamedKey : World :=
  { store := .holding ['b'] [("d//x".toList, [1])] }

/-- A directory whose only key has no name there is deleted as if it were empty, and the key keeps
it. -/
theorem delete_keeps_unnamedKey :
    ((plainBucket.delete ['d'] false).exec .quiet unnamedKey).1 = .ok true ∧
      ((plainBucket.delete ['d'] false).exec .quiet unnamedKey).2.store.objects.keys =
        ["d//x".toList] ∧
      ((plainBucket.exists? ['d']).exec .quiet
        ((plainBucket.delete ['d'] false).exec .quiet unnamedKey).2).1 = .ok true := by
  decide +kernel

end FileSystem

end KeyTree
