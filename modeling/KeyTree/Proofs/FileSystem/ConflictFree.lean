import KeyTree.Proofs.FileSystem.Footprint
import KeyTree.Proofs.FileSystem.RenameTree
import KeyTree.Proofs.Session

/-!
# Files that are directories too

Nothing in a flat key space prevents that an object is stored under a key and others below it, so
that one path is a file and a directory. A bucket without such conflicts stays so under every call
but a rename to a path below a file: the creation of a directory looks for files above its path, and
a rename does not.

## Main definitions

* `Key.Clashes` — keys that make a directory of a file.
* `Objects.ConflictFree` — contents in which no file is a directory.
* `Objects.Clear` — keys at which and above which there is no file.
* `FileSystem.MovesBelowFile` — renames to a path below a file.

## Main results

* `FileSystem.leaves_renameWithin` — a rename of a directory to a clear target makes no conflict.
* `FileSystem.performPath_conflictFree_iff` — which calls make a conflict.
* `FileSystem.performAll_conflictFree_iff` — which sessions do.
-/

namespace KeyTree

open Key StoreM

/-! ### Clashes -/

namespace Key

variable {suffix p k m : Key}

/-- A key *clashes* with a file when it is the marker of the file or lies below it. A key that ends
the way markers do is no file. -/
def Clashes (suffix p k : Key) : Prop :=
  ¬ suffix <:+ p ∧ (k = marker suffix p ∨ p ++ [separator] <+: k)

instance (suffix p k : Key) : Decidable (Clashes suffix p k) :=
  inferInstanceAs (Decidable (_ ∧ _))

/-- A marker clashes with the files on the chain of its directory. -/
theorem clashes_marker_iff (hs : separator ∉ suffix) (hm : m ≠ []) :
    Clashes suffix p (marker suffix m) ↔ ¬ suffix <:+ p ∧ p ∈ chain m := by
  rw [Clashes, mem_chain_iff, and_iff_right hm, ← mem_ancestors_iff, mem_ancestors_marker_iff hs]
  refine and_congr_right fun _ => or_congr_left ⟨fun h => (marker_injective h).symm, ?_⟩
  rintro rfl
  rfl

/-- A file clashes with the files above it. -/
theorem clashes_file_iff (hk : ¬ suffix <:+ k) :
    Clashes suffix p k ↔ ¬ suffix <:+ p ∧ p ∈ ancestors k := by
  rw [Clashes, ← mem_ancestors_iff]
  refine and_congr_right fun _ => or_iff_right ?_
  rintro rfl
  exact hk (List.suffix_append ..)

end Key

namespace Objects

variable {suffix : List Char} {objects objects' : Objects} {key m k target : Key}

/-- Contents are *conflict-free* when nothing that is stored clashes with a file. -/
def ConflictFree (suffix : List Char) (objects : Objects) : Prop :=
  ∀ p ∈ objects, ∀ k ∈ objects, ¬ Clashes suffix p k

theorem conflictFree_holding {bucket : List Char} {bodies : List (Key × Bytes)} :
    (Store.holding bucket bodies).objects.ConflictFree suffix ↔
      ∀ p ∈ bodies, ∀ k ∈ bodies, ¬ Clashes suffix p.1 k.1 := by
  simp only [ConflictFree, Store.mem_holding, forall_exists_index, and_imp,
    forall_apply_eq_imp_iff₂]

/-- Fewer objects have no more conflicts. -/
theorem ConflictFree.anti (h : objects.ConflictFree suffix) (hsub : ∀ k ∈ objects', k ∈ objects) :
    objects'.ConflictFree suffix :=
  fun p hp k hk => h p (hsub p hp) k (hsub k hk)

theorem ConflictFree.remove {store : Store} (h : store.objects.ConflictFree suffix) (key : Key) :
    (store.remove key).objects.ConflictFree suffix :=
  h.anti fun _ hk => (mem_remove_iff.mp hk).2

/-- A key is *clear* when no member of its chain is stored as a file. -/
def Clear (suffix : List Char) (objects : Objects) (key : Key) : Prop :=
  ∀ p ∈ chain key, p ∈ objects → suffix <:+ p

/-- In conflict-free contents directories are clear. -/
theorem ConflictFree.clear (h : objects.ConflictFree suffix)
    (hdir : objects.IsDirectory suffix key) : objects.Clear suffix key := by
  intro p hp hstored
  by_contra hfile
  obtain ⟨hkey, hp⟩ := mem_chain_iff.mp hp
  rw [mem_ancestors_iff] at hp
  rcases hdir.resolve_left hkey with hmarker | ⟨k, hk, hbelow⟩
  · refine h p hstored _ hmarker ⟨hfile, ?_⟩
    rcases hp with rfl | habove
    · exact Or.inl rfl
    · exact Or.inr (habove.trans (List.prefix_append ..))
  · refine h p hstored k hk ⟨hfile, Or.inr ?_⟩
    rw [childPrefix_of_ne_nil hkey] at hbelow
    rcases hp with rfl | habove
    · exact hbelow
    · exact habove.trans ((List.prefix_append ..).trans hbelow)

/-- Markers of clear keys make no conflict. -/
theorem ConflictFree.add_markers (h : objects.ConflictFree suffix) (hs : separator ∉ suffix)
    (hadd : ∀ k ∈ objects', k ∈ objects ∨
      ∃ m, m ≠ [] ∧ objects.Clear suffix m ∧ k = marker suffix m) :
    objects'.ConflictFree suffix := by
  intro p hp k hk hclash
  have hstored : p ∈ objects := by
    refine (hadd p hp).resolve_right ?_
    rintro ⟨m, -, -, rfl⟩
    exact hclash.1 (suffix_marker ..)
  rcases hadd k hk with hk | ⟨m, hm, hclear, rfl⟩
  · exact h p hstored k hk hclash
  · obtain ⟨hfile, hp⟩ := (clashes_marker_iff hs hm).mp hclash
    exact hfile (hclear p hp hstored)

theorem ConflictFree.put_marker {store : Store} (h : store.objects.ConflictFree suffix)
    (hs : separator ∉ suffix) (hm : m ≠ []) (hclear : store.objects.Clear suffix m) (body : Bytes) :
    (store.put (marker suffix m) body).objects.ConflictFree suffix := by
  refine h.add_markers hs fun k hk => (mem_put_iff.mp hk).symm.imp_right ?_
  rintro rfl
  exact ⟨m, hm, hclear, rfl⟩

/-- A file makes no conflict where there is neither a directory nor a file above. -/
theorem ConflictFree.add_file (h : objects.ConflictFree suffix) (hplain : ¬ suffix <:+ target)
    (hadd : ∀ k ∈ objects', k = target ∨ k ∈ objects)
    (habove : ∀ p ∈ ancestors target, p ∈ objects' → suffix <:+ p)
    (hbelow : objects.IsVacant suffix target) (hne : target ≠ []) :
    objects'.ConflictFree suffix := by
  intro p hp k hk hclash
  have hnone : ∀ k ∈ objects, ¬ Clashes suffix target k := by
    rintro k hk ⟨-, h⟩
    refine hbelow k ?_ hk
    rwa [InTree, childPrefix_of_ne_nil hne]
  rcases hadd k hk with rfl | hk
  · obtain ⟨hfile, hmem⟩ := (clashes_file_iff hplain).mp hclash
    exact hfile (habove p hmem hp)
  · rcases hadd p hp with rfl | hp
    · exact hnone k hk hclash
    · exact h p hp k hk hclash

/-- What is added below a clear key or as a marker leaves the key clear. -/
theorem Clear.congr (h : objects.Clear suffix key)
    (hsame : ∀ p ∈ chain key, p ∈ objects' → suffix <:+ p ∨ p ∈ objects) :
    objects'.Clear suffix key :=
  fun p hp hstored => (hsame p hp hstored).elim id (h p hp)

/-- A child of a clear key is clear if it is not stored. -/
theorem Clear.child {parent : Key} (h : objects.Clear suffix parent) (hchild : IsChild parent key)
    (hfree : key ∉ objects) : objects.Clear suffix key := by
  intro p hp hstored
  rw [hchild.chain_eq, List.mem_append, List.mem_singleton] at hp
  rcases hp with hp | rfl
  · exact h p hp hstored
  · exact absurd hstored hfree

end Objects

/-! ### Requests and questions -/

namespace FileSystem

variable {fs : FileSystem} {plan : Plan} {world : World} {source target : Path} {key S T : Key}
  {store after : Store} {request : Request}

theorem Marks.conflictFree (h : fs.Marks key store request)
    (hfree : store.objects.ConflictFree fs.config.suffix) :
    (store.perform request).2.objects.ConflictFree fs.config.suffix := by
  obtain ⟨hkey, rfl, hbelow⟩ := h
  have hclear := hfree.clear hbelow.isDirectory
  exact hfree.put_marker fs.config.separator_notMem_suffix hkey hclear []

theorem Tidies.conflictFree {removable : Key → Prop} (h : fs.Tidies key removable store request)
    (hfree : store.objects.ConflictFree fs.config.suffix) :
    (store.perform request).2.objects.ConflictFree fs.config.suffix := by
  cases h with
  | mark h => exact h.conflictFree hfree
  | delete => exact hfree.remove _

theorem Settles.conflictFree (h : fs.Settles plan key store after)
    (hfree : store.objects.ConflictFree fs.config.suffix) :
    after.objects.ConflictFree fs.config.suffix := by
  cases h with
  | same => exact hfree
  | marked hkey _ hbelow =>
    have hclear := hfree.clear hbelow.isDirectory
    exact hfree.put_marker fs.config.separator_notMem_suffix hkey hclear []

/-- A question writes nothing but markers. -/
theorem Settles.clear (h : fs.Settles plan key store after)
    (hclear : store.objects.Clear fs.config.suffix T) : after.objects.Clear fs.config.suffix T := by
  refine hclear.congr fun p _ hp => ?_
  by_cases hmarker : p = marker fs.config.suffix key
  · exact Or.inl (hmarker ▸ Objects.suffix_marker ..)
  · exact Or.inr ((Objects.mem_congr (h.getElem?_of_ne hmarker)).mp hp)

theorem Declines.conflictFree (h : fs.Declines plan S T store after)
    (hfree : store.objects.ConflictFree fs.config.suffix) :
    after.objects.ConflictFree fs.config.suffix := by
  cases h with
  | root | inside => exact hfree
  | unlisted hlisted => exact hlisted.conflictFree hfree
  | taken hlisted hlooked | unestablished hlisted hlooked =>
    exact hlooked.conflictFree (hlisted.conflictFree hfree)

/-! ### Creating a directory -/

/-- The markers of a directory that has been created make no conflict, since no file was in the
way. -/
theorem Creates.conflictFree {top : Key} {createParent done : Bool}
    (h : fs.Creates key top createParent store done after)
    (hkey : key = [] ∨ IsNormal key) (htop : store.objects.IsDeepest fs.config.suffix key top)
    (hfree : store.objects.ConflictFree fs.config.suffix) :
    after.objects.ConflictFree fs.config.suffix := by
  cases done with
  | false => rwa [h.unchanged rfl]
  | true =>
    have hclear : ∀ m ∈ chain key, childPrefix top <+: m →
        store.objects.Clear fs.config.suffix m := by
      intro m hm hbelow p hp hstored
      rcases mem_chain_or_below hbelow hp with hp | hp'
      · exact hfree.clear htop.isDirectory p hp hstored
      · have hrefused := h.refused_iff.mpr (Or.inl ⟨p, mem_chain_trans hm hp, hp', hstored⟩)
        exact absurd hrefused (by simp)
    refine hfree.add_markers fs.config.separator_notMem_suffix fun k hk => ?_
    by_cases hlacks : fs.Lacks key top store.objects k
    · refine Or.inr ?_
      rcases hlacks with ⟨m, hm, hbelow, rfl⟩ | ⟨himplicit, -, rfl⟩
      · exact ⟨m, (isNormal_of_mem_chain hkey hm).1, hclear m hm hbelow, rfl⟩
      · exact ⟨top, himplicit.1, hfree.clear htop.isDirectory, rfl⟩
    · exact Or.inl ((Objects.mem_congr ((h.gains rfl).same k hlacks)).mp hk)

/-! ### Renaming a file -/

/-- If nothing is refused, the rename of a file makes no conflict, unless it moves the file below
another one. -/
theorem RenamesFile.conflictFree {earlier : List Request} {done : Bool}
    (h : fs.RenamesFile .quiet earlier store S T done after) (hplain : ¬ fs.config.suffix <:+ T)
    (habove : S ≠ [] → S ∈ store.objects → T ∉ store.objects →
      ¬ store.objects.IsDirectory fs.config.suffix T →
      ∀ p ∈ ancestors T, p ∈ store.objects → p ≠ S → fs.config.suffix <:+ p)
    (hfree : store.objects.ConflictFree fs.config.suffix) :
    after.objects.ConflictFree fs.config.suffix := by
  cases h with
  | sourceMissing | targetTaken | targetDirectory | notCopied => exact hfree
  | targetMarked _ hroot _ hsees hmarked =>
    have hdir := hsees.isDirectory (by rw [hmarked.1]; rfl)
    exact hfree.put_marker fs.config.separator_notMem_suffix hroot (hfree.clear hdir) []
  | copied hsource _ _ _ _ _ hdelete =>
    exact absurd (passes_delete_of_quiet rfl hsource.ne_nil) hdelete
  | @moved later object hsource hroot htarget hsees _ hobject =>
    rw [Plan.finds_quiet_iff hroot] at htarget
    have hdir : ¬ store.objects.IsDirectory fs.config.suffix T := fun hdir =>
      Bool.false_ne_true ((hsees.isDirectory_iff hroot).mpr hdir)
    have hkept : ∀ k ∈ ((store.put T object.body).remove S).objects,
        k ≠ S ∧ (k = T ∨ k ∈ store.objects) :=
      fun k hk => (Objects.mem_remove_iff.mp hk).imp_right Objects.mem_put_iff.mp
    refine hfree.add_file hplain (fun k hk => (hkept k hk).2) (fun p hp hmem => ?_)
      ((Objects.not_isDirectory_iff hroot).mp hdir) hroot
    obtain ⟨hne, rfl | hstored⟩ := hkept p hmem
    · exact absurd (length_lt_of_mem_ancestors hp) (Nat.lt_irrefl _)
    · exact habove hsource.ne_nil hsource.2 htarget hdir p hp hstored hne

/-! ### Renaming a directory -/

/-- Moving the entries of a directory is not about the members of the chain of the target, except if
the marker of the source is one. -/
theorem not_carrying_of_mem_chain {p : Key} (hinside : ¬ childPrefix S <+: T)
    (hp : p ∈ chain T) (hmarker : p ≠ marker fs.config.suffix S) : ¬ fs.Carrying S T p := by
  rintro ((h | hbelow) | hbelow)
  · exact hmarker h
  · refine hinside (hbelow.trans ?_)
    obtain ⟨-, rfl | habove⟩ := mem_chain_iff.mp hp
    · exact List.prefix_rfl
    · exact (List.prefix_append ..).trans (mem_ancestors_iff.mp habove)
  · exact not_below_of_mem_chain hp hbelow

/-- A store that is *ready* to receive what is moved below a target. -/
structure Ready (fs : FileSystem) (target : Key) (store : Store) : Prop where
  mounted : fs.Mounted store
  conflictFree : store.objects.ConflictFree fs.config.suffix
  clear : store.objects.Clear fs.config.suffix target

section

variable {depth : Nat} (hsource : IsNormal S) (htarget : IsNormal T)
  (hinside : ¬ childPrefix S <+: T)
  (ih : ∀ {source target : Path} {S T : Key} {world : World},
    fs.Mounted world.store → world.store.objects.ConflictFree fs.config.suffix →
    normalize? fs.root source = some S → normalize? fs.root target = some T →
    (CanRename fs.config.suffix world.store.objects S T →
      world.store.objects.Clear fs.config.suffix T) →
    (fs.renameWithin depth source target).Leaves .quiet world fun store =>
      store.objects.ConflictFree fs.config.suffix)

include hsource htarget hinside ih in
/-- Moving an entry leaves a store that is ready for the next one. -/
theorem leaves_moveEntry {entry : Status} (hentry : Status.IsEntry fs.config.suffix entry)
    (hready : fs.Ready T world.store) :
    (fs.moveEntry depth source target S T entry).Leaves .quiet world (fs.Ready T) := by
  have hm := hready.mounted
  have hname := hentry.isName
  have hs := fs.config.separator_notMem_suffix
  have hrun : (fs.moveEntry depth source target S T entry).Confined .quiet fs.bucket.name
      (Request.About (fs.Carrying S T)) world :=
    confined_moveEntry Plan.refuses_quiet hm hsource htarget
      (fun hm => confined_renameWithin Plan.refuses_quiet depth hm) hname
  refine ⟨hm.of_run hrun, ?_, hready.clear.congr fun p hp hstored => ?_⟩
  · have hsource' := hm.normalize? (hsource.child hname)
    have htarget' := hm.normalize? (htarget.child hname)
    have hleaves : (fs.moveEntry depth source target S T entry).Leaves .quiet world fun store =>
        store.objects.ConflictFree fs.config.suffix := by
      rw [moveEntry, hsource.concat hname, htarget.concat hname]
      cases hdir : entry.isDirectory with
      | true =>
        refine (ih hm hready.conflictFree hsource' htarget' fun hcan => ?_).bind (fun _ => id)
          fun _ _ h => leaves_recorded h
        exact hready.clear.child (htarget.isChild hname) hcan.notMem_target
      | false =>
        refine ((returns_renameFile Plan.refuses_quiet hm hsource' htarget').leaves
          fun done after h => h.conflictFree ?_ ?_ hready.conflictFree).bind (fun _ => id)
          fun _ _ h => leaves_recorded h
        · exact fun h => hentry.file_plain hdir (suffix_of_suffix_append_separator hs h)
        · intro _ _ _ _ p hp hstored _
          rw [(htarget.isChild hname).ancestors_eq] at hp
          exact hready.clear p hp hstored
    exact hleaves
  · by_cases hmarker : p = marker fs.config.suffix S
    · exact Or.inl (hmarker ▸ Objects.suffix_marker ..)
    · refine Or.inr ((Objects.mem_congr (hrun.changesOnly p ?_)).mp hstored)
      exact not_carrying_of_mem_chain hinside hp hmarker

include hsource htarget hinside ih in
/-- Moving the entries of a directory below a clear target makes no conflict. -/
theorem leaves_moveEntries {entries : List Status}
    (hentries : ∀ entry ∈ entries, Status.IsEntry fs.config.suffix entry)
    (hready : fs.Ready T world.store) :
    (fs.moveEntries depth source target S T entries).Leaves .quiet world fun store =>
      store.objects.ConflictFree fs.config.suffix := by
  rw [moveEntries]
  refine (leaves_allM entries (fun entry hentry between hbetween =>
    leaves_moveEntry hsource htarget hinside ih (hentries entry hentry) hbetween) hready).bind
    (fun _ h => h.conflictFree) fun moved after hafter => ?_
  split
  · have hpath := hafter.mounted.normalize? hsource
    exact (confined_deleteDirectory Plan.refuses_quiet hafter.mounted hpath true).leaves
      (fun store => store.objects.ConflictFree fs.config.suffix) (fun _ _ h => h.conflictFree)
      hafter.conflictFree
  · exact hafter.conflictFree

end

/-- If nothing is refused, the rename of a directory makes no conflict unless a file is above its
target. -/
theorem leaves_renameWithin : ∀ (depth : Nat) {source target : Path} {S T : Key} {world : World},
    fs.Mounted world.store → world.store.objects.ConflictFree fs.config.suffix →
    normalize? fs.root source = some S → normalize? fs.root target = some T →
    (CanRename fs.config.suffix world.store.objects S T →
      world.store.objects.Clear fs.config.suffix T) →
    (fs.renameWithin depth source target).Leaves .quiet world fun store =>
      store.objects.ConflictFree fs.config.suffix
  | 0, _, _, _, _, _, _, hfree, _, _, _ => hfree
  | depth + 1, source, target, S, T, world, hm, hfree, hsource, htarget, hclear => by
    refine outcome_renameWithin_succ Plan.refuses_quiet hm
      (fun outcome => outcome.2.store.objects.ConflictFree fs.config.suffix) hsource htarget
      (fun after h => h.conflictFree hfree) ?_
    intro entries listed looked body between hbegins hstore
    have hT := hbegins.target_ne_nil
    have hlooked := hbegins.looking.clear (hbegins.listing.clear (hclear hbegins.canRename))
    have hlookedFree := hbegins.looking.conflictFree (hbegins.listing.conflictFree hfree)
    have hready : fs.Ready T between.store := by
      rw [hstore]
      refine ⟨?_, ?_, hlooked.congr fun p _ hp => ?_⟩
      · exact (hbegins.looking.mounted (hbegins.listing.mounted hm)).put _ _
      · exact hlookedFree.put_marker fs.config.separator_notMem_suffix hT hlooked body
      · rcases Objects.mem_put_iff.mp hp with rfl | hp
        · exact Or.inl (Objects.suffix_marker ..)
        · exact Or.inr hp
    refine leaves_moveEntries ((isNormal_of_normalize? hsource).resolve_left hbegins.source_ne_nil)
      ((isNormal_of_normalize? htarget).resolve_left hT) hbegins.not_inside
      (fun hm => leaves_renameWithin depth hm) (fun entry hentry => ?_) hready
    exact ((hbegins.isListing.mem_iff entry).mp hentry).isEntry

/-! ### Moving below a file -/

/-- The renames that are carried out although their target lies below a file: nothing looks at what
is above the target. A file may be moved below its own key, since it is not left behind. -/
inductive MovesBelowFile (fs : FileSystem) (objects : Objects) : PathCall → Prop
  | file {source target : Path} {S T above : Key} (hsource : normalize? fs.root source = some S)
      (htarget : normalize? fs.root target = some T) (hroot : S ≠ []) (hstored : S ∈ objects)
      (hfree : T ∉ objects) (hvacant : ¬ objects.IsDirectory fs.config.suffix T)
      (habove : above ∈ ancestors T) (hfile : above ∈ objects) (hne : above ≠ S) :
      MovesBelowFile fs objects (.renameFile source target)
  | directory {source target : Path} {S T above : Key}
      (hsource : normalize? fs.root source = some S) (htarget : normalize? fs.root target = some T)
      (hcan : CanRename fs.config.suffix objects S T) (habove : above ∈ ancestors T)
      (hfile : above ∈ objects) : MovesBelowFile fs objects (.renameDirectory source target)

/-- A rename that can be asked for does not decline. -/
theorem CanRename.not_declines (h : CanRename fs.config.suffix store.objects S T)
    (hT : ¬ fs.config.suffix <:+ T) : ¬ fs.Declines .quiet S T store after := by
  rintro (hroot | hinside | ⟨-, hnone⟩ | ⟨hlisted, -, htaken⟩ | ⟨-, -, hplan⟩)
  · exact hroot.elim h.source_ne_nil h.target_ne_nil
  · exact hinside.elim h.target_ne_source h.not_inside
  · exact hnone rfl h.isDirectory
  · rcases htaken with hmem | hdir
    · have hne : T ≠ marker fs.config.suffix S := by
        rintro rfl
        exact hT (Objects.suffix_marker ..)
      exact h.notMem_target ((Objects.mem_congr (hlisted.getElem?_of_ne hne)).mp hmem)
    · exact h.not_isDirectory_target (hlisted.isDirectory_of hdir)
  · exact hplan rfl

variable (hm : fs.Mounted world.store)

include hm in
/-- A directory that is moved below a file leaves the file and its own marker. -/
theorem leaves_renameDirectory_below {above : Key} (hsource : normalize? fs.root source = some S)
    (htarget : normalize? fs.root target = some T) (hunmarked : Unmarked fs.config.suffix T)
    (hcan : CanRename fs.config.suffix world.store.objects S T) (habove : above ∈ ancestors T)
    (hfile : above ∈ world.store.objects) :
    (fs.renameDirectory source target).Leaves .quiet world fun store =>
      above ∈ store.objects ∧ marker fs.config.suffix T ∈ store.objects := by
  have hs := fs.config.separator_notMem_suffix
  have hT := hcan.target_ne_nil
  have hsourceNormal := (isNormal_of_normalize? hsource).resolve_left hcan.source_ne_nil
  have htargetNormal := (isNormal_of_normalize? htarget).resolve_left hT
  obtain ⟨depth, -, hexec⟩ := exec_renameDirectory fs .quiet world source target
  rw [Leaves, hexec]
  refine outcome_renameWithin_succ Plan.refuses_quiet hm
    (fun outcome => above ∈ outcome.2.store.objects ∧
      marker fs.config.suffix T ∈ outcome.2.store.objects) hsource htarget
    (fun after h => absurd h (hcan.not_declines (not_suffix_of_unmarked hs hunmarked)))
    fun entries listed looked body between hbegins hstore => ?_
  have hbetween : fs.Mounted between.store := by
    rw [hstore]
    exact (hbegins.looking.mounted (hbegins.listing.mounted hm)).put _ _
  have hrun : (fs.moveEntries depth source target S T entries).Confined .quiet fs.bucket.name
      (Request.About (fs.Carrying S T)) between :=
    confined_moveEntries Plan.refuses_quiet hbetween hsourceNormal htargetNormal
      (fun hm => confined_renameWithin Plan.refuses_quiet depth hm)
      fun entry hentry => ((hbegins.isListing.mem_iff entry).mp hentry).isName
  constructor
  · refine (Objects.mem_congr (hrun.changesOnly above ?_)).mpr ?_
    · have hchain : above ∈ chain T := mem_chain_iff.mpr ⟨hT, Or.inr habove⟩
      refine not_carrying_of_mem_chain hcan.not_inside hchain ?_
      rintro rfl
      exact not_suffix_of_unmarked hs (hunmarked.of_mem_ancestors habove) (Objects.suffix_marker ..)
    · rw [hstore]
      exact Objects.mem_put (hbegins.looking.mem (hbegins.listing.mem hfile))
  · refine (Objects.mem_congr (hrun.changesOnly _ ?_)).mpr ?_
    · rintro ((h | hbelow) | hbelow)
      · exact hcan.target_ne_source (marker_injective h)
      · exact hcan.not_inside (childPrefix_prefix_of_marker hs hcan.source_ne_nil hbelow)
      · exact not_childPrefix_prefix_marker hs hT hbelow
    · rw [hstore]
      exact Objects.mem_put_self ..

include hm in
/-- A call that moves something below a file leaves a conflict. -/
theorem MovesBelowFile.leaves_conflict {call : PathCall}
    (h : fs.MovesBelowFile world.store.objects call)
    (hcall : ∀ path ∈ call.paths, ∃ key, normalize? fs.root path = some key ∧
      Unmarked fs.config.suffix key) :
    (Session.performPath fs call).Leaves .quiet world fun store =>
      ¬ store.objects.ConflictFree fs.config.suffix := by
  have hs := fs.config.separator_notMem_suffix
  have hunmarked : ∀ {path : Path} {key : Key}, path ∈ call.paths →
      normalize? fs.root path = some key → Unmarked fs.config.suffix key := by
    intro path key hmem hpath
    obtain ⟨key', hpath', hkey⟩ := hcall path hmem
    obtain rfl := Option.some.inj (hpath.symm.trans hpath')
    exact hkey
  have hplain : ∀ {T above : Key}, Unmarked fs.config.suffix T → above ∈ ancestors T →
      ¬ fs.config.suffix <:+ above := fun hT habove =>
    not_suffix_of_unmarked hs (hT.of_mem_ancestors habove)
  cases h with
  | @file source target S T above hsource htarget hroot hstored hfree hvacant habove hfile hne =>
    have hT := hunmarked (by simp [PathCall.paths]) htarget
    have htargetNil : T ≠ [] := fun h => hvacant (Or.inl h)
    refine ((returns_renameFile_vacant Plan.refuses_quiet hm hsource htarget hroot htargetNil hfree
      ((Objects.not_isDirectory_iff htargetNil).mp hvacant)).leaves
      fun done after hafter => ?_).bind_pure _
    rcases hafter with ⟨-, object, -, hstore⟩ | ⟨-, -, hnone⟩
    · intro hafter
      have hTS : T ≠ S := by
        rintro rfl
        exact hfree hstored
      rw [hstore] at hafter
      refine hafter above ?_ T ?_ ((clashes_file_iff (not_suffix_of_unmarked hs hT)).mpr
        ⟨hplain hT habove, habove⟩)
      · exact Objects.mem_remove_iff.mpr ⟨hne, Objects.mem_put hfile⟩
      · exact Objects.mem_remove_iff.mpr ⟨hTS, Objects.mem_put_self ..⟩
    · exact absurd hstored (hnone rfl)
  | @directory source target S T above hsource htarget hcan habove hfile =>
    have hT := hunmarked (by simp [PathCall.paths]) htarget
    refine StoreM.Leaves.bind_pure ?_ _
    obtain ⟨hstored, hmarker⟩ :=
      leaves_renameDirectory_below hm hsource htarget hT hcan habove hfile
    intro hafter
    refine hafter above hstored _ hmarker ((clashes_marker_iff hs hcan.target_ne_nil).mpr
      ⟨hplain hT habove, ?_⟩)
    exact mem_chain_iff.mpr ⟨hcan.target_ne_nil, Or.inr habove⟩

/-- A call is *plain* when its paths are in the bucket, none of their segments ends the way markers
do, and it is not the bare order to write a marker. -/
structure Plain (fs : FileSystem) (call : PathCall) : Prop where
  paths : ∀ path ∈ call.paths, ∃ key, normalize? fs.root path = some key ∧
    Unmarked fs.config.suffix key
  not_ensureMarker : ∀ path, call ≠ .ensureMarker path

include hm in
/-- If nothing is refused, a plain call makes no conflict unless it moves something below a file. -/
theorem leaves_performPath {call : PathCall} (hcall : fs.Plain call)
    (hfree : world.store.objects.ConflictFree fs.config.suffix)
    (h : ¬ fs.MovesBelowFile world.store.objects call) :
    (Session.performPath fs call).Leaves .quiet world fun store =>
      store.objects.ConflictFree fs.config.suffix := by
  have hs := fs.config.separator_notMem_suffix
  by_cases htidies : call.tidies = true
  · refine (confined_tidies Plan.refuses_quiet hm call htidies fun path hmem => ?_).leaves
      (fun store => store.objects.ConflictFree fs.config.suffix) ?_ hfree
    · obtain ⟨key, hpath, -⟩ := hcall.paths path hmem
      exact ⟨key, hpath⟩
    · rintro store request ⟨path, -, key, -, hrequest⟩ hstore
      exact hrequest.conflictFree hstore
  cases call with
  | ensureMarker path => exact absurd rfl (hcall.not_ensureMarker path)
  | parentExists path =>
    obtain ⟨key, hpath, -⟩ := hcall.paths path List.mem_cons_self
    refine ((confined_parentExists Plan.refuses_quiet hm hpath).leaves
      (fun store => store.objects.ConflictFree fs.config.suffix) ?_ hfree).bind_pure _
    rintro store request ⟨parent, -, h⟩ hstore
    exact h.conflictFree hstore
  | mkdirs path createParent =>
    cases path with
    | none => exact hfree
    | some path =>
      obtain ⟨key, hpath, -⟩ := hcall.paths path List.mem_cons_self
      have hkey := isNormal_of_normalize? hpath
      refine ((returns_mkdirs Plan.refuses_quiet hm hpath createParent).leaves
        fun done after hmakes => ?_).bind_pure _
      obtain ⟨top, htop, hcreates⟩ := hmakes.creates hkey
      exact hcreates.conflictFree hkey htop hfree
  | renameFile source target =>
    obtain ⟨S, hsource, -⟩ := hcall.paths source (by simp [PathCall.paths])
    obtain ⟨T, htarget, hT⟩ := hcall.paths target (by simp [PathCall.paths])
    refine ((returns_renameFile Plan.refuses_quiet hm hsource htarget).leaves
      fun done after hrenames => ?_).bind_pure _
    refine hrenames.conflictFree (not_suffix_of_unmarked hs hT) ?_ hfree
    intro hroot hstored hnone hvacant above habove hfile hne
    exact absurd (.file hsource htarget hroot hstored hnone hvacant habove hfile hne) h
  | renameDirectory source target =>
    obtain ⟨S, hsource, -⟩ := hcall.paths source (by simp [PathCall.paths])
    obtain ⟨T, htarget, -⟩ := hcall.paths target (by simp [PathCall.paths])
    refine StoreM.Leaves.bind_pure ?_ _
    obtain ⟨depth, -, hexec⟩ := exec_renameDirectory fs .quiet world source target
    rw [Leaves, hexec]
    refine leaves_renameWithin (depth + 1) hm hfree hsource htarget fun hcan p hp hstored => ?_
    obtain ⟨-, rfl | habove⟩ := mem_chain_iff.mp hp
    · exact absurd hstored hcan.notMem_target
    · exact absurd (.directory hsource htarget hcan habove hstored) h
  | _ => exact absurd rfl htidies

include hm in
/-- If nothing is refused, a plain call makes a conflict exactly when it moves something below a
file. -/
theorem performPath_conflictFree_iff {call : PathCall} (hcall : fs.Plain call)
    (hfree : world.store.objects.ConflictFree fs.config.suffix) :
    ((Session.performPath fs call).exec .quiet world).2.store.objects.ConflictFree
        fs.config.suffix ↔ ¬ fs.MovesBelowFile world.store.objects call :=
  ⟨fun hafter hmoves => hmoves.leaves_conflict hm hcall.paths hafter,
    fun hmoves => leaves_performPath hm hcall hfree hmoves⟩

theorem conflictFree_twoFiles :
    twoFiles.store.objects.ConflictFree plainBucket.config.suffix := by
  rw [twoFiles, Objects.conflictFree_holding]
  decide

/-- A file is moved below another one, in a bucket without conflicts whose keys are all normal, and
nothing is refused. -/
theorem renameFile_below_file :
    twoFiles.store.objects.ConflictFree plainBucket.config.suffix ∧
      (∀ k ∈ twoFiles.store.objects, IsNormal k) ∧
      Unmarked plainBucket.config.suffix "c/x".toList ∧
      ∃ after,
        (plainBucket.renameFile ['a'] "c/x".toList).exec .quiet twoFiles = (.ok true, after) ∧
        ['c'] ∈ after.store.objects ∧ "c/x".toList ∈ after.store.objects ∧
        ¬ after.store.objects.ConflictFree plainBucket.config.suffix := by
  have hnormal : ∀ k ∈ twoFiles.store.objects, IsNormal k := by
    intro k hk
    obtain ⟨entry, hentry, rfl⟩ := Store.mem_holding.mp hk
    revert entry
    decide
  have hfile : ['c'] ∈ ((plainBucket.renameFile ['a'] "c/x".toList).exec .quiet
      twoFiles).2.store.objects := by
    decide +kernel
  have hbelow : "c/x".toList ∈ ((plainBucket.renameFile ['a'] "c/x".toList).exec .quiet
      twoFiles).2.store.objects := by
    decide +kernel
  exact ⟨conflictFree_twoFiles, hnormal, by decide +kernel, _, exec_eq_of_fst (by decide +kernel),
    hfile, hbelow, fun hfree => hfree _ hfile _ hbelow (by decide +kernel)⟩

end FileSystem

/-! ### Sessions -/

namespace Session

/-- The objects in the bucket after calls on paths. -/
def contentsAfter (session : Session) (calls : List PathCall) : Objects :=
  (session.performAll (calls.map .path)).2.world.store.objects

theorem contentsAfter_cons (session : Session) (call : PathCall) (calls : List PathCall) :
    session.contentsAfter (call :: calls) = contentsAfter { session with
      world := ((performPath session.fs call).exec session.plan session.world).2 } calls :=
  congrArg (fun answered => answered.2.contentsAfter calls) (session.perform_path call)

/-- If nothing is refused, a session that begins with a conflict-free bucket never sees a conflict
exactly when none of its calls moves something below a file. -/
theorem performAll_conflictFree_iff {session : Session} {calls : List PathCall}
    (hquiet : session.plan = .quiet) (hm : session.fs.Mounted session.world.store)
    (hfree : session.world.store.objects.ConflictFree session.fs.config.suffix)
    (hcalls : ∀ call ∈ calls, session.fs.Plain call) :
    (∀ past, past <+: calls →
        (session.contentsAfter past).ConflictFree session.fs.config.suffix) ↔
      ∀ past call, past ++ [call] <+: calls →
        ¬ session.fs.MovesBelowFile (session.contentsAfter past) call := by
  rcases session with ⟨fs, plan, world, handles⟩
  dsimp only at hquiet
  subst hquiet
  induction calls generalizing world with
  | nil =>
    refine iff_of_true (fun past hpast => ?_) fun past call hpast => ?_
    · rw [List.prefix_nil.mp hpast]
      exact hfree
    · simp at hpast
  | cons call calls ih =>
    have hcall := hcalls call List.mem_cons_self
    have hstep := FileSystem.performPath_conflictFree_iff hm hcall hfree
    have hm' : fs.Mounted ((performPath fs call).exec .quiet world).2.store :=
      hm.of_run (FileSystem.confined_performPath Plan.refuses_quiet hm call fun path hmem =>
        (hcall.paths path hmem).imp fun _ => And.left)
    have hrest := fun hfree' =>
      ih _ hm' hfree' fun later hmem => hcalls later (List.mem_cons_of_mem _ hmem)
    constructor
    · intro h past later hlater
      have hafter := h [call] (by simp)
      rw [contentsAfter_cons] at hafter
      cases past with
      | nil =>
        obtain rfl : later = call := by simpa using hlater
        exact hstep.mp hafter
      | cons first past =>
        obtain ⟨rfl, hnext⟩ := List.cons_prefix_cons.mp hlater
        rw [contentsAfter_cons]
        refine (hrest hafter).mp (fun past hpast => ?_) past later hnext
        have hpastFree := h (first :: past) (List.cons_prefix_cons.mpr ⟨rfl, hpast⟩)
        rwa [contentsAfter_cons] at hpastFree
    · intro h past hpast
      cases past with
      | nil => exact hfree
      | cons first past =>
        obtain ⟨rfl, hnext⟩ := List.cons_prefix_cons.mp hpast
        rw [contentsAfter_cons]
        have hafter := hstep.mpr (h [] first (by simp))
        refine (hrest hafter).mpr (fun past later hlater => ?_) past hnext
        have hmoves := h (first :: past) later (List.cons_prefix_cons.mpr ⟨rfl, hlater⟩)
        rwa [contentsAfter_cons] at hmoves

/-- A session over a bucket with two files. -/
def filesSession : Session :=
  { fs := FileSystem.plainBucket, world := FileSystem.twoFiles }

/-- A file is moved into a new directory, which is then renamed. -/
def movesIntoDirectory : List PathCall :=
  [.mkdirs (some ['d']) true, .renameFile ['a'] "d/a".toList, .renameDirectory ['d'] ['e']]

theorem performAll_conflictFree_movesIntoDirectory :
    (filesSession.contentsAfter movesIntoDirectory).keys =
        [['c'], "e/a".toList, "e_$folder$".toList] ∧
      ∀ past, past <+: movesIntoDirectory →
        (filesSession.contentsAfter past).ConflictFree filesSession.fs.config.suffix := by
  have hm : filesSession.fs.Mounted filesSession.world.store := ⟨rfl, 'b', by decide, by decide⟩
  have hpaths : ∀ call ∈ movesIntoDirectory, ∀ path ∈ call.paths,
      normalize? filesSession.fs.root path = some path ∧
        Unmarked filesSession.fs.config.suffix path := by
    decide +kernel
  have hplain : ∀ call ∈ movesIntoDirectory, filesSession.fs.Plain call := by
    refine fun call hcall => ⟨fun path hpath => ⟨path, hpaths call hcall path hpath⟩, ?_⟩
    rintro path rfl
    simp [movesIntoDirectory] at hcall
  have hfree : ['d'] ∉ filesSession.contentsAfter [.mkdirs (some ['d']) true] := by
    decide +kernel
  refine ⟨by decide +kernel, (performAll_conflictFree_iff rfl hm FileSystem.conflictFree_twoFiles
    hplain).mpr fun past call hpast hmoves => ?_⟩
  -- one case for each of the three calls
  rcases past with _ | ⟨first, _ | ⟨second, _ | ⟨third, past⟩⟩⟩ <;>
    simp [movesIntoDirectory] at hpast
  · subst hpast
    cases hmoves
  · obtain ⟨rfl, rfl⟩ := hpast
    cases hmoves with
    | file _ htarget _ _ _ _ habove hfile =>
      obtain rfl := Option.some.inj htarget
      obtain rfl := List.mem_singleton.mp habove
      exact hfree hfile
  · obtain ⟨rfl, rfl, rfl⟩ := hpast
    cases hmoves with
    | directory _ htarget _ habove =>
      obtain rfl := Option.some.inj htarget
      exact List.not_mem_nil habove

end Session

end KeyTree
