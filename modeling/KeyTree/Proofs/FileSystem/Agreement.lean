import KeyTree.Proofs.FileSystem.Materialization
import KeyTree.Proofs.FileSystem.Reading

/-!
# Listings and metadata

What a name stands for is decided in two ways. A listing shows the file of a name and not its
directory, while the metadata of a path are those of its marker if the path is a directory, and
those of its object if it is none; a missing marker is written first if the configuration says so.
So a listing and the metadata agree about every file that does not hide a directory of its name.
Whether a path is a file or a directory and what is read from it agree with a listing in any case.

## Main definitions

* `FileSystem.StandsFor` — the object that the metadata of a path are about.
* `FileSystem.ReadTo` — worlds that reads lead to.
* `FileSystem.Agrees` — what the reads of a path say about an entry.

## Main results

* `FileSystem.metadata_told` — the metadata of a path.
* `FileSystem.ReadTo.looksLike` — reads leave contents that look like those before.
* `FileSystem.listStatus_agrees` — the entries of a directory and the reads of their paths.
-/

namespace KeyTree

open Key StoreM

/-- What a look-up tells of an object. -/
def Object.metadata (object : Object) : Metadata :=
  ⟨object.body.length, some object.modified⟩

/-- If nothing is refused, a look-up gets the metadata of what is stored. -/
theorem Bucket.returns_metadata_quiet {bucket : Bucket} {world : World} {key : Key}
    (hbucket : bucket.name = world.store.bucket) (hkey : key ≠ []) :
    (bucket.metadata key).Returns .quiet world fun reply _ =>
      reply = .ok (world.store.objects[key]?.map Object.metadata) := by
  have hpasses : Plan.quiet.Passes world.requests (.head key) :=
    Plan.passes_quiet_iff.mpr (decide_eq_true hkey)
  refine (returns_send_of_passes hbucket hpasses).bind ?_
  rintro reply between ⟨-, rfl, -⟩
  rcases hobject : world.store.objects[key]? with _ | object
  · have hperform : (world.store.perform (.head key)).1 = .error .missingHead := by
      simp only [Store.perform, hobject]
    rw [hperform]
    exact StoreM.returns_pure_iff.mpr rfl
  · have hperform : (world.store.perform (.head key)).1 =
        .ok ⟨object.body.length, .known object.modified⟩ := by
      simp only [Store.perform, hobject]
    rw [hperform]
    exact StoreM.returns_pure_iff.mpr rfl

namespace FileSystem

variable {fs : FileSystem} {world : World} {path : Path} {key : Key} {object : Option Object}
  {earlier : List Request} {store after : Store} {kind : PathKind}

/-! ### Metadata -/

/-- The object that the metadata of a path are about, if there is one, after it has been asked
whether the path is a directory. -/
inductive StandsFor (fs : FileSystem) (store : Store) (key : Key) : Option Object → Prop
  /-- The object of a path that is no directory. -/
  | file (hfile : ¬ store.objects.IsDirectory fs.config.suffix key) :
      StandsFor fs store key store.objects[key]?
  /-- The marker of a directory. -/
  | marker (hdir : store.objects.IsDirectory fs.config.suffix key)
      (h : ¬ (store.objects.IsImplicit fs.config.suffix key ∧ fs.config.materialize = true)) :
      StandsFor fs store key store.objects[Key.marker fs.config.suffix key]?
  /-- The marker that an implicit directory gets. -/
  | written (himplicit : store.objects.IsImplicit fs.config.suffix key)
      (hmaterialize : fs.config.materialize = true) :
      StandsFor fs store key (some ⟨[], store.clock + store.tick⟩)

/-- Every path stands for an object or for none. -/
theorem exists_standsFor (fs : FileSystem) (store : Store) (key : Key) :
    ∃ object, fs.StandsFor store key object := by
  by_cases hdir : store.objects.IsDirectory fs.config.suffix key
  · by_cases h : store.objects.IsImplicit fs.config.suffix key ∧ fs.config.materialize = true
    · exact ⟨_, .written h.1 h.2⟩
    · exact ⟨_, .marker hdir h⟩
  · exact ⟨_, .file hdir⟩

/-- Without failures, the object that a path stands for is what is stored where its metadata are
looked up. -/
theorem Looked.getElem?_standsFor (h : fs.Looked .quiet earlier store key kind after)
    (hobject : fs.StandsFor store key object) :
    after.objects[if kind.isDirectory = true then marker fs.config.suffix key else key]? =
      object := by
  have hiff := h.isDirectory_iff
  cases hobject with
  | file hfile =>
    rw [if_neg (hiff.not.mpr hfile)]
    exact h.settles.getElem?_of_ne (fs.ne_marker key)
  | marker hdir hnot =>
    rw [if_pos (hiff.mpr hdir)]
    cases h with
    | root => rfl
    | same => rfl
    | marked hkey hsees hmaterialize =>
      exact absurd ⟨hsees.hasKind hkey, hmaterialize⟩ hnot
  | written himplicit hmaterialize =>
    rw [if_pos (hiff.mpr himplicit.2.2.isDirectory)]
    cases h with
    | root hkey => exact absurd hkey himplicit.1
    | same hkey hsees hnot =>
      have hkind : kind = .implicitDirectory := (hsees.hasKind hkey).unique himplicit
      exact absurd ⟨hkind, hmaterialize, decide_eq_true (fs.marker_ne_nil key), Or.inl rfl⟩ hnot
    | marked => exact Objects.getElem?_put_self store _ []

/-- What a read makes of metadata, with an error if there are none. -/
def told {α : Type} (path : Path) (tell : Metadata → Except Error α) (object : Option Object) :
    Except Error α :=
  match object with
  | some object => tell object.metadata
  | none => .error (.notFound path)

variable (hm : fs.Mounted world.store) (hpath : normalize? fs.root path = some key)

include hm in
theorem lookUp_told {found : Key} (path : Path) (key : Key) (hfound : found ≠ []) :
    ((fs.lookUp path key found).exec .quiet world).1 =
      told path .ok world.store.objects[found]? := by
  refine (Bucket.returns_metadata_quiet hm.bucket_eq hfound).bind_outcome
    (fun outcome => outcome.1 = told path .ok world.store.objects[found]?) ?_
  rintro _ after rfl
  cases world.store.objects[found]? with
  | none => rfl
  | some object => rfl

include hm hpath in
/-- If nothing fails, the metadata of a path are those of the object that it stands for. -/
theorem metadata_told (hobject : fs.StandsFor world.store key object) :
    ((fs.metadata path).exec .quiet world).1 = told path .ok object := by
  rw [metadata, key_eq hpath, pure_bind]
  refine (returns_isDirectory_of_onlyFails Plan.refuses_quiet.onlyFails hm
    (hm.normalize?_key hpath)).bind_outcome (fun outcome => outcome.1 = told path .ok object) ?_
  rintro _ asked ⟨kind, rfl, hlooked⟩
  have hstored := hlooked.getElem?_standsFor hobject
  have hmAsked := hlooked.settles.mounted hm
  split at hstored
  · rename_i hkind
    rw [if_pos hkind, markerKey_eq (hm.normalize?_key hpath), pure_bind, ← hstored]
    exact lookUp_told hmAsked path key (fs.marker_ne_nil key)
  · rename_i hkind
    rw [if_neg hkind, pure_bind, ← hstored]
    exact lookUp_told hmAsked path key fun h => hkind (hlooked.isDirectory_iff.mpr (Or.inl h))

/-- Reads *report* an object for a path when they tell its size and its time if nothing fails, and
that nothing is found if there is no object. -/
structure Reports (fs : FileSystem) (path : Path) (world : World) (object : Option Object) :
    Prop where
  size : ((fs.fileSize path).exec .quiet world).1 = told path (fun m => .ok m.length) object
  time : ((fs.modificationMilliseconds path).exec .quiet world).1 =
    told path Metadata.milliseconds object

include hm hpath in
/-- The object that a path stands for is reported. -/
theorem reports_of_standsFor (hobject : fs.StandsFor world.store key object) :
    fs.Reports path world object := by
  have hmetadata := metadata_told hm hpath hobject
  rcases hrun : (fs.metadata path).exec .quiet world with ⟨result, after⟩
  rw [hrun] at hmetadata
  obtain rfl : result = told path .ok object := hmetadata
  constructor
  · rw [fileSize, exec_bind, hrun]
    cases object with
    | none => rfl
    | some object => rfl
  · rw [modificationMilliseconds, exec_bind, hrun]
    cases object with
    | none => rfl
    | some object => rfl

/-! ### Reads -/

include hm hpath in
/-- If nothing fails, a read leaves contents that look like those before. -/
theorem leaves_read_looksLike {call : PathCall} (hread : call.read? = some path) :
    (Session.performPath fs call).Leaves .quiet world fun after =>
      fs.Mounted after ∧ after.objects.LooksLike fs.config.suffix world.store.objects := by
  refine (leaves_read Plan.refuses_quiet.onlyFails hm hpath hread).mono ?_
  rintro after (⟨asked, kind, -, hlooked⟩ | ⟨-, rfl⟩)
  · exact ⟨hlooked.settles.mounted hm, hlooked.settles.looksLike (isNormal_of_normalize? hpath)⟩
  · exact ⟨hm, .refl ..⟩

/-- The worlds that reads of paths in the bucket lead to if nothing fails. -/
inductive ReadTo (fs : FileSystem) (world : World) : World → Prop
  | refl : ReadTo fs world world
  | read {between : World} {call : PathCall} {path : Path} {key : Key}
      (h : ReadTo fs world between) (hread : call.read? = some path)
      (hpath : normalize? fs.root path = some key) :
      ReadTo fs world ((Session.performPath fs call).exec .quiet between).2

include hm in
/-- Reads leave contents that look like those before. -/
theorem ReadTo.looksLike {now : World} (h : fs.ReadTo world now) :
    fs.Mounted now.store ∧ now.store.objects.LooksLike fs.config.suffix world.store.objects := by
  induction h with
  | refl => exact ⟨hm, .refl ..⟩
  | read _ hread hpath ih =>
    obtain ⟨hmBetween, hlooks⟩ := ih
    obtain ⟨hmAfter, hlooks'⟩ := leaves_read_looksLike hmBetween hpath hread
    exact ⟨hmAfter, hlooks'.trans hlooks⟩

/-! ### Entries and reads -/

/-- The reads of a path *agree* with an entry: a directory is one, a file is one and has a body of
the listed length, and its size and time are the listed ones unless it hides a directory, whose
marker is reported then. -/
structure Agrees (fs : FileSystem) (entry : Status) (path : Path) (key : Key) (world : World) :
    Prop where
  isDirectory : entry.isDirectory = true →
    (fs.isDirectory path).Returns .quiet world fun found _ => found = true
  isFile : entry.isDirectory = false →
    (fs.isFile path).Returns .quiet world fun found _ => found = true
  body : entry.isDirectory = false →
    (fs.open? path).Returns .quiet world fun reply _ =>
      ∃ body, reply = some body ∧ body.length = entry.length
  metadata : entry.isDirectory = false →
    ¬ world.store.objects.IsDirectory fs.config.suffix key →
      ((fs.fileSize path).exec .quiet world).1 = .ok entry.length ∧
      ∃ time, entry.modified = some time ∧
        ((fs.modificationMilliseconds path).exec .quiet world).1 = .ok time.milliseconds
  hidden : entry.isDirectory = false →
    world.store.objects.IsDirectory fs.config.suffix key →
      ∃ object, fs.StandsFor world.store key object ∧ fs.Reports path world object

include hm hpath in
/-- What a directory shows agrees with the reads of it, also in contents that look like those that
were listed. -/
theorem agrees_of_reads {objects : Objects} {under : Key} {entry : Status}
    (hreads : Status.Reads fs.config.suffix objects (childPrefix under) entry)
    (hkey : key = childPrefix under ++ entry.name)
    (hlooks : world.store.objects.LooksLike fs.config.suffix objects) :
    fs.Agrees entry path key world := by
  have hnil : key ≠ [] := by
    rw [hkey]
    simp [hreads.isName.ne_nil]
  cases hfile : entry.isDirectory with
  | true =>
    have hnone : ¬ entry.isDirectory = false := by simp [hfile]
    refine ⟨fun _ => ?_, fun h => absurd h hnone, fun h => absurd h hnone,
      fun h => absurd h hnone, fun h => absurd h hnone⟩
    refine (returns_isDirectory_quiet hm hpath).mono fun found _ h => h.1.mpr ?_
    rw [hlooks.isDirectory_iff, hkey]
    exact hreads.isDirectory_append hfile
  | false =>
    obtain ⟨hplain, object, hstored, hlength, hmodified⟩ := hreads.exists_object hfile
    have hobject : world.store.objects[key]? = some object := by
      rw [← hstored, ← hkey, hlooks.getElem?_eq]
      rwa [hkey, Status.suffix_childPrefix_append_iff fs.config.separator_notMem_suffix]
    have hnone : ¬ entry.isDirectory = true := by simp [hfile]
    refine ⟨fun h => absurd h hnone, fun _ => ?_, fun _ => ?_, fun _ hsingle => ?_,
      fun _ _ => ?_⟩
    · refine (returns_isFile Plan.refuses_quiet hm hpath hnil).mono fun found _ ⟨_, _, h⟩ => ?_
      rw [h, Plan.finds_quiet_iff hnil]
      exact Objects.mem_of_getElem? hobject
    · refine (returns_open? hm hpath).mono fun reply _ ⟨hreply, _⟩ => ?_
      refine ⟨object.body, ?_, hlength.symm⟩
      rw [hreply, if_neg hnil, Objects.body?_of_getElem? hobject]
    · obtain ⟨hsize, htime⟩ := reports_of_standsFor hm hpath (.file hsingle)
      rw [hobject] at hsize htime
      exact ⟨hsize.trans (congrArg Except.ok hlength.symm), object.modified, hmodified, htime⟩
    · obtain ⟨found, hfound⟩ := fs.exists_standsFor world.store key
      exact ⟨found, hfound, reports_of_standsFor hm hpath hfound⟩

include hm hpath in
/-- If nothing fails, the entries of a directory agree with the reads of their paths, in whatever
order and however often paths are read. -/
theorem listStatus_agrees :
    (fs.listStatus path false).Returns .quiet world fun reply after =>
      ∀ entries, reply = some entries → ∀ entry ∈ entries,
        normalize? fs.root (childPrefix key ++ entry.name) =
            some (childPrefix key ++ entry.name) ∧
          ∀ (now : World) (child : Path), fs.ReadTo after now →
            normalize? fs.root child = some (childPrefix key ++ entry.name) →
            fs.Agrees entry child (childPrefix key ++ entry.name) now := by
  refine (returns_listStatus Plan.refuses_quiet hm hpath).mono ?_
  rintro reply after ⟨hsettles, hreply⟩
  rintro entries rfl entry hentry
  have hnormal := isNormal_of_normalize? hpath
  have hreads : Status.Reads fs.config.suffix world.store.objects (childPrefix key) entry :=
    ((hreply.2.mem_iff entry).mp hentry).congr fun k hk => (hsettles.getElem?_of_below hk).symm
  refine ⟨hm.normalize? ?_, fun now child hnow hchild => ?_⟩
  · rcases hnormal with rfl | hnormal
    · exact hreads.isName.isNormal
    · rw [childPrefix_append hnormal.1]
      exact hnormal.child hreads.isName
  · obtain ⟨hmNow, hlooks⟩ := hnow.looksLike (hsettles.mounted hm)
    exact agrees_of_reads hmNow hchild hreads rfl (hlooks.trans (hsettles.looksLike hnormal))

/-- A directory with two files. There is a directory with the name of the first one, too. -/
def sharedName : World :=
  { store := .holding ['b'] [("d/a".toList, [1, 2, 3]), ("d/a/b".toList, [4]),
      ("d/c".toList, [5, 6])] }

/-- The size of the file that hides a directory is reported as that of the marker of the directory,
which has just been written. -/
theorem fileSize_sharedName :
    (∀ k ∈ sharedName.store.objects.keys, IsNormal k) ∧
      ((plainBucket.listStatus ['d'] false).exec .quiet sharedName).1 =
        .ok (some [{ name := ['a'], isDirectory := false, length := 3, modified := some 1 },
          { name := ['c'], isDirectory := false, length := 2, modified := some 3 }]) ∧
      ((plainBucket.fileSize "d/a".toList).exec .quiet
        ((plainBucket.listStatus ['d'] false).exec .quiet sharedName).2).1 = .ok 0 := by
  decide +kernel

/-- The size of the other file is reported as it is listed, also after the first one has been
asked about. -/
theorem listStatus_agrees_sharedName :
    ∃ entry after,
      (plainBucket.listStatus ['d'] false).exec .quiet sharedName =
        (.ok (some [{ name := ['a'], isDirectory := false, length := 3, modified := some 1 },
          entry]), after) ∧
      plainBucket.Agrees entry "/d//c".toList "d/c".toList after ∧
      ((plainBucket.fileSize "/d//c".toList).exec .quiet
        ((Session.performPath plainBucket (.fileSize "d/a".toList)).exec .quiet after).2).1 =
          .ok 2 := by
  have hm : plainBucket.Mounted sharedName.store := ⟨rfl, 'b', by decide, by decide⟩
  have hpath : normalize? plainBucket.root ['d'] = some ['d'] := by decide +kernel
  have hfile : normalize? plainBucket.root "d/a".toList = some "d/a".toList := by decide +kernel
  have hchild : normalize? plainBucket.root "/d//c".toList = some "d/c".toList := by
    decide +kernel
  have hlisted : ((plainBucket.listStatus ['d'] false).exec .quiet sharedName).1 =
      .ok (some [{ name := ['a'], isDirectory := false, length := 3, modified := some 1 },
        { name := ['c'], isDirectory := false, length := 2, modified := some 3 }]) := by
    decide +kernel
  obtain ⟨reply, after, hrun, hagrees⟩ := listStatus_agrees hm hpath
  rw [hrun] at hlisted
  obtain rfl := Except.ok.inj hlisted
  have hafter : ((Session.performPath plainBucket (.listStatus ['d'] false)).exec .quiet
      sharedName).2 = after := by
    rw [Session.performPath, exec_bind, hrun]
    rfl
  have hseen : plainBucket.ReadTo sharedName after := hafter ▸ .read .refl rfl hpath
  have hread : plainBucket.ReadTo after
      ((Session.performPath plainBucket (.fileSize "d/a".toList)).exec .quiet after).2 :=
    .read .refl rfl hfile
  obtain ⟨-, hc⟩ := hagrees _ rfl _ (List.mem_cons_of_mem _ List.mem_cons_self)
  refine ⟨_, after, hrun, hc after _ .refl hchild, ?_⟩
  obtain ⟨hmAfter, hlooks⟩ := hseen.looksLike hm
  have hplain : ¬ sharedName.store.objects.IsDirectory plainBucket.config.suffix
      "d/c".toList := by
    rintro (hnil | hmarker | hbelow)
    · exact absurd hnil (by decide)
    · exact absurd hmarker (by decide +kernel)
    · exact absurd (Objects.hasBelow_holding.mp hbelow) (by decide)
  rw [← ((hread.looksLike hmAfter).2.trans hlooks).isDirectory_iff] at hplain
  exact ((hc _ _ hread hchild).metadata rfl hplain).1

end FileSystem

end KeyTree
