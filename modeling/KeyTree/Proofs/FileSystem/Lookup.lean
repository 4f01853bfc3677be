import KeyTree.FileSystem.Refusal
import KeyTree.Proofs.Bucket
import KeyTree.Proofs.Listing.Entries

/-!
# Questions about paths

What the questions about paths return under a plan that refuses. A refused look-up counts as "not
there": a path that is seen as a file or as a directory is one, and when nothing is refused the
converse holds too. A question changes the store at most by the marker of an implicit directory.

## Main definitions

* `FileSystem.Mounted` — file systems over the bucket of a store.
* `FileSystem.Sees` — what a path below the root is seen as, and the requests sent for that.
* `FileSystem.Answers` — how asking whether a path is a directory can end.
* `FileSystem.Settles` — what asking whether a path is a directory does to a store.

## Main results

* `FileSystem.returns_isFile`, `FileSystem.returns_classify`,
  `FileSystem.returns_isDirectory_exact`, `FileSystem.returns_exists?_exact` — the questions,
  request by request.
* `FileSystem.returns_isDirectory`, `FileSystem.returns_exists?`, `FileSystem.returns_listStatus` —
  what the answers say about the store.
* `FileSystem.listStatus_isListing` — the entries of a directory are got all or not at all.
-/

namespace KeyTree.FileSystem

open Key Listing

/-- A file system is *mounted* when the store holds its bucket, whose name is more than
separators. -/
structure Mounted (fs : FileSystem) (store : Store) : Prop where
  bucket_eq : fs.bucket.name = store.bucket
  named : ∃ c ∈ fs.bucket.name, c ≠ separator

variable {fs : FileSystem} {plan : Plan} {world : World} {path : Path} {key : Key}

theorem Mounted.namesBucket {store : Store} (hm : fs.Mounted store) : NamesBucket fs.root :=
  ⟨fs.bucket.name, rfl, hm.named⟩

/-- A file system stays mounted while the store is what it was. -/
theorem Mounted.of_eq {store after : Store} (hm : fs.Mounted store) (h : after = store) :
    fs.Mounted after := by
  rw [h]
  exact hm

theorem Mounted.put {store : Store} (hm : fs.Mounted store) (key : Key) (body : Bytes) :
    fs.Mounted (store.put key body) := ⟨hm.bucket_eq, hm.named⟩

theorem Mounted.remove {store : Store} (hm : fs.Mounted store) (key : Key) :
    fs.Mounted (store.remove key) := ⟨hm.bucket_eq, hm.named⟩

theorem Mounted.normalize? {store : Store} (hm : fs.Mounted store) (hkey : IsNormal key) :
    Key.normalize? fs.root key = some key :=
  normalize?_of_isNormal hm.namesBucket hkey

/-- The key of a path is a path to itself. -/
theorem Mounted.normalize?_key {store : Store} (hm : fs.Mounted store)
    (hpath : Key.normalize? fs.root path = some key) : Key.normalize? fs.root key = some key := by
  rcases isNormal_of_normalize? hpath with rfl | hkey
  · exact normalize?_nil hm.namesBucket
  · exact hm.normalize? hkey

theorem key_eq (hpath : normalize? fs.root path = some key) : fs.key path = pure key := by
  rw [FileSystem.key, hpath]

theorem markerKey_eq (hpath : normalize? fs.root path = some key) :
    fs.markerKey path = pure (marker fs.config.suffix key) := by
  rw [markerKey, key_eq hpath, pure_bind]

theorem marker_ne_nil (fs : FileSystem) (key : Key) : marker fs.config.suffix key ≠ [] := by
  simp [marker, fs.config.suffix_ne_nil]

/-- A key is not its marker. -/
theorem ne_marker (fs : FileSystem) (key : Key) : key ≠ marker fs.config.suffix key := by
  simp [marker, fs.config.suffix_ne_nil]

/-! ### Seeing -/

/-- What a path below the root is seen as after earlier requests, and the requests after that. -/
inductive Sees (fs : FileSystem) (plan : Plan) (earlier : List Request) (objects : Objects)
    (key : Key) : PathKind → List Request → Prop
  | directory (h : plan.Finds earlier objects (marker fs.config.suffix key)) :
      Sees fs plan earlier objects key .directory
        (.head (marker fs.config.suffix key) :: earlier)
  | implicitDirectory (hmarker : ¬ plan.Finds earlier objects (marker fs.config.suffix key))
      (h : plan.FindsBelow (.head (marker fs.config.suffix key) :: earlier) objects key) :
      Sees fs plan earlier objects key .implicitDirectory
        (requestOne key :: .head (marker fs.config.suffix key) :: earlier)
  | missing (hmarker : ¬ plan.Finds earlier objects (marker fs.config.suffix key))
      (h : ¬ plan.FindsBelow (.head (marker fs.config.suffix key) :: earlier) objects key) :
      Sees fs plan earlier objects key .missing
        (requestOne key :: .head (marker fs.config.suffix key) :: earlier)

variable {earlier later : List Request} {objects : Objects} {kind : PathKind}

/-- What is seen as a directory is one. -/
theorem Sees.isDirectory (h : fs.Sees plan earlier objects key kind later)
    (hkind : kind.isDirectory = true) : objects.IsDirectory fs.config.suffix key := by
  cases h with
  | directory h => exact Or.inr (Or.inl h.2)
  | implicitDirectory _ h => exact h.2.isDirectory
  | missing => exact absurd hkind (by decide)

/-- A path is seen in one way. -/
theorem Sees.unique (h : fs.Sees plan earlier objects key kind later) {kind' : PathKind}
    {later' : List Request} (h' : fs.Sees plan earlier objects key kind' later') :
    kind = kind' ∧ later = later' := by
  cases h <;> cases h' <;> first | exact ⟨rfl, rfl⟩ | contradiction

/-- Seeing only adds to the requests. -/
theorem Sees.suffix (h : fs.Sees plan earlier objects key kind later) : earlier <:+ later := by
  cases h with
  | directory => exact List.suffix_cons ..
  | implicitDirectory => exact (List.suffix_cons ..).trans (List.suffix_cons ..)
  | missing => exact (List.suffix_cons ..).trans (List.suffix_cons ..)

/-- A directory is not seen only if a look-up fails. -/
theorem Sees.fails (h : fs.Sees plan earlier objects key .missing later) (hkey : key ≠ [])
    (hdir : objects.IsDirectory fs.config.suffix key) :
    ∃ request, request.hasKey = true ∧ plan.Fails earlier later request := by
  cases h with
  | missing hmarker hbelow =>
    rcases hdir with hnil | hmem | hmem
    · exact absurd hnil hkey
    · refine ⟨.head (marker fs.config.suffix key), ?_, earlier, List.suffix_rfl,
        List.suffix_cons .., fun hpass => hmarker ⟨hpass, hmem⟩⟩
      simp [Request.hasKey, Request.target, fs.marker_ne_nil]
    · exact ⟨requestOne key, rfl, _, List.suffix_cons .., List.suffix_rfl,
        fun hpass => hbelow ⟨hpass, hmem⟩⟩

/-- If nothing is refused, directories are seen as directories. -/
theorem Sees.isDirectory_iff (h : fs.Sees .quiet earlier objects key kind later)
    (hkey : key ≠ []) : kind.isDirectory = true ↔ objects.IsDirectory fs.config.suffix key := by
  refine ⟨h.isDirectory, ?_⟩
  cases h with
  | directory => exact fun _ => rfl
  | implicitDirectory => exact fun _ => rfl
  | missing hmarker hbelow =>
    rw [Plan.finds_quiet_iff (fs.marker_ne_nil key)] at hmarker
    rw [Plan.findsBelow_quiet_iff] at hbelow
    rintro (hnil | hmem | hmem)
    · exact absurd hnil hkey
    · exact absurd hmem hmarker
    · exact absurd hmem hbelow

/-- If nothing is refused, the marker of an implicit directory is not stored. -/
theorem Sees.notMem_marker (h : fs.Sees .quiet earlier objects key kind later)
    (hkind : kind ≠ .directory) : marker fs.config.suffix key ∉ objects := by
  cases h with
  | directory => exact absurd rfl hkind
  | implicitDirectory hmarker => rwa [Plan.finds_quiet_iff (fs.marker_ne_nil key)] at hmarker
  | missing hmarker => rwa [Plan.finds_quiet_iff (fs.marker_ne_nil key)] at hmarker

/-! ### The questions, request by request -/

variable (hr : plan.Refuses) (hm : fs.Mounted world.store)
  (hpath : normalize? fs.root path = some key)

include hr hm hpath in
/-- A path is seen as a file exactly if the look-up finds its object. -/
theorem returns_isFile (hkey : key ≠ []) :
    (fs.isFile path).Returns plan world fun found after =>
      after.store = world.store ∧ after.requests = .head key :: world.requests ∧
      (found = true ↔ plan.Finds world.requests world.store.objects key) := by
  simp only [isFile, hpath]
  rw [if_neg (by simpa [isRoot] using hkey)]
  refine (Bucket.returns_metadata hr hm.bucket_eq key).bind fun reply between hreply => ?_
  obtain ⟨hstore, hrequests, ⟨hfinds, metadata, rfl⟩ | ⟨hnone, rfl | ⟨fault, rfl⟩⟩⟩ := hreply
  · exact StoreM.returns_pure_iff.mpr ⟨hstore, hrequests, by simpa using hfinds⟩
  · exact StoreM.returns_pure_iff.mpr ⟨hstore, hrequests, by simpa using hnone⟩
  · refine StoreM.returns_log_bind fun after hafter hrequests' => ?_
    exact StoreM.returns_pure_iff.mpr
      ⟨hafter.trans hstore, hrequests'.trans hrequests, by simpa using hnone⟩

include hpath in
/-- The root is no file, and no request is sent for that. -/
theorem isFile_root (hkey : key = []) : fs.isFile path = pure false := by
  subst hkey
  simp only [isFile, hpath]
  rfl

/-- The end of a classification, after the marker has not been found. -/
def classifyBelow (fs : FileSystem) (key : Key) : StoreM PathKind := do
  match ← fs.bucket.list (childPrefix key) [separator] 1 none with
  | .ok page => return if page.isEmpty then .missing else .implicitDirectory
  | .error fault =>
    log .warning "Child lookup failed".toList
      [("key", .text key), ("error", .text fault.message)]
    return .missing

omit hpath in
include hr hm in
theorem returns_classifyBelow {between : World} (hstore : between.store = world.store)
    (hrequests : between.requests = .head (marker fs.config.suffix key) :: world.requests)
    (hmarker : ¬ plan.Finds world.requests world.store.objects (marker fs.config.suffix key)) :
    (fs.classifyBelow key).Returns plan between fun kind after =>
      after.store = world.store ∧
      fs.Sees plan world.requests world.store.objects key kind after.requests := by
  rw [classifyBelow]
  refine (Bucket.returns_list_one hr (hm.bucket_eq.trans (by rw [hstore])) key).bind
    fun reply after hreply => ?_
  rw [hstore, hrequests] at hreply
  obtain ⟨hafter, hsent, ⟨hbelow, page, rfl, hpage⟩ |
    ⟨hbelow, ⟨page, rfl, hpage⟩ | ⟨fault, rfl⟩⟩⟩ := hreply
  · refine StoreM.returns_pure_iff.mpr ⟨hafter, ?_⟩
    rw [hpage, hsent]
    exact .implicitDirectory hmarker hbelow
  · refine StoreM.returns_pure_iff.mpr ⟨hafter, ?_⟩
    rw [hpage, hsent]
    exact .missing hmarker hbelow
  · refine StoreM.returns_log_bind fun final hfinal hsent' => ?_
    refine StoreM.returns_pure_iff.mpr ⟨hfinal.trans hafter, ?_⟩
    rw [hsent', hsent]
    exact .missing hmarker hbelow

include hr hm hpath in
/-- What a path below the root is classified as. -/
theorem returns_classify (hkey : key ≠ []) :
    (fs.classify path).Returns plan world fun kind after =>
      after.store = world.store ∧
      fs.Sees plan world.requests world.store.objects key kind after.requests := by
  rw [classify, key_eq hpath, pure_bind]
  dsimp only
  rw [if_neg (by simpa [isRoot] using hkey), markerKey_eq (hm.normalize?_key hpath), pure_bind]
  refine (Bucket.returns_metadata hr hm.bucket_eq _).bind fun reply between hreply => ?_
  obtain ⟨hstore, hrequests, ⟨hfinds, metadata, rfl⟩ | ⟨hnone, rfl | ⟨fault, rfl⟩⟩⟩ := hreply
  · refine StoreM.returns_pure_iff.mpr ⟨hstore, ?_⟩
    rw [hrequests]
    exact .directory hfinds
  · exact returns_classifyBelow hr hm hstore hrequests hnone
  · refine StoreM.returns_log_bind fun after hafter hrequests' => ?_
    exact returns_classifyBelow hr hm (hafter.trans hstore) (hrequests'.trans hrequests) hnone

include hr hm hpath in
/-- Writing the marker of a path succeeds exactly if the request passes. -/
theorem returns_ensureMarker (hkey : key ≠ []) :
    (fs.ensureMarker path).Returns plan world fun written after =>
      after.requests = .put (marker fs.config.suffix key) [] 0 :: world.requests ∧
      ((written = true ∧ plan.Passes world.requests (.put (marker fs.config.suffix key) [] 0) ∧
          after.store = world.store.put (marker fs.config.suffix key) []) ∨
        (written = false ∧
          ¬ plan.Passes world.requests (.put (marker fs.config.suffix key) [] 0) ∧
          after.store = world.store)) := by
  rw [ensureMarker, key_eq hpath, pure_bind]
  rw [if_neg (by simpa [isRoot] using hkey), markerKey_eq (hm.normalize?_key hpath), pure_bind]
  refine (Bucket.returns_write hr hm.bucket_eq _ [] 0).bind fun reply between hreply => ?_
  obtain ⟨hput, ⟨hpass, rfl, hstore⟩ | ⟨hpass, ⟨fault, rfl⟩, hstore⟩⟩ := hreply
  · refine StoreM.returns_log_bind fun after hafter hsent => ?_
    exact StoreM.returns_pure_iff.mpr
      ⟨hsent.trans hput, Or.inl ⟨rfl, hpass, hafter.trans hstore⟩⟩
  · refine StoreM.returns_log_bind fun after hafter hsent => ?_
    exact StoreM.returns_pure_iff.mpr
      ⟨hsent.trans hput, Or.inr ⟨rfl, hpass, hafter.trans hstore⟩⟩

/-- Whether the marker of a path that was seen as a directory is written. -/
def Materializes (fs : FileSystem) (plan : Plan) (key : Key) (kind : PathKind)
    (later : List Request) : Prop :=
  kind = .implicitDirectory ∧ fs.config.materialize = true ∧
    plan.Passes later (.put (marker fs.config.suffix key) [] 0)

/-- How asking whether a path below the root is a directory ends: what it is seen as, and whether
its marker is written. -/
def Answers (fs : FileSystem) (plan : Plan) (earlier : List Request) (store : Store) (key : Key)
    (found : Bool) (after : World) : Prop :=
  ∃ kind later, fs.Sees plan earlier store.objects key kind later ∧ found = kind.isDirectory ∧
    ((fs.Materializes plan key kind later ∧
        after.store = store.put (marker fs.config.suffix key) []) ∨
      (¬ fs.Materializes plan key kind later ∧ after.store = store ∧
        (found = false → after.requests = later)))

include hr hm hpath in
/-- Whether a path below the root is a directory is answered by what it is seen as. -/
theorem returns_isDirectory_exact (hkey : key ≠ []) :
    (fs.isDirectory path).Returns plan world fun found after =>
      fs.Answers plan world.requests world.store key found after ∧
      world.requests <:+ after.requests := by
  simp only [isDirectory, hpath]
  refine (returns_classify hr hm hpath hkey).bind fun kind between ⟨hstore, hsees⟩ => ?_
  split
  · rename_i himplicit
    refine StoreM.returns_log_bind fun logged hlogged hsent => ?_
    have hm' := hm.of_eq (hlogged.trans hstore)
    refine (returns_ensureMarker hr hm' hpath hkey).bind fun written after hwritten => ?_
    rw [hsent, hlogged, hstore] at hwritten
    obtain ⟨hput, hwritten⟩ := hwritten
    refine StoreM.returns_pure_iff.mpr ⟨⟨kind, between.requests, hsees, rfl, ?_⟩,
      hput ▸ hsees.suffix.trans (List.suffix_cons ..)⟩
    rcases hwritten with ⟨-, hpass, hafter⟩ | ⟨-, hpass, hafter⟩
    · exact Or.inl ⟨⟨himplicit.1, himplicit.2, hpass⟩, hafter⟩
    · refine Or.inr ⟨fun h => hpass h.2.2, hafter, fun h => ?_⟩
      rw [himplicit.1] at h
      exact absurd h (by decide)
  · rename_i himplicit
    exact StoreM.returns_pure_iff.mpr ⟨⟨kind, between.requests, hsees, rfl,
      Or.inr ⟨fun h => himplicit ⟨h.1, h.2.1⟩, hstore, fun _ => rfl⟩⟩, hsees.suffix⟩

include hpath in
/-- The root is a directory, and nothing is asked for that. -/
theorem returns_isDirectory_root (hkey : key = []) :
    (fs.isDirectory path).Returns plan world fun found after =>
      found = true ∧ after = world := by
  subst hkey
  refine ⟨true, world, ?_, rfl, rfl⟩
  simp only [isDirectory, hpath, classify, key_eq hpath, pure_bind]
  rfl

include hr hm hpath in
/-- A path exists if it is the root or seen as a file, and else if it is seen as a directory. -/
theorem returns_exists?_exact :
    (fs.exists? path).Returns plan world fun found after =>
      (found = true ∧ (key = [] ∨ plan.Finds world.requests world.store.objects key) ∧
          after.store = world.store) ∨
        (key ≠ [] ∧ ¬ plan.Finds world.requests world.store.objects key ∧
          fs.Answers plan (.head key :: world.requests) world.store key found after) := by
  rw [exists?]
  by_cases hkey : key = []
  · rw [isFile_root hpath hkey, pure_bind]
    exact (returns_isDirectory_root hpath hkey).mono fun found after ⟨hfound, hafter⟩ =>
      Or.inl ⟨hfound, Or.inl hkey, by rw [hafter]⟩
  · refine (returns_isFile hr hm hpath hkey).bind fun found between hfound => ?_
    obtain ⟨hstore, hsent, hiff⟩ := hfound
    cases found with
    | true =>
      exact StoreM.returns_pure_iff.mpr (Or.inl ⟨rfl, Or.inr (hiff.mp rfl), hstore⟩)
    | false =>
      refine (returns_isDirectory_exact hr (hm.of_eq hstore) hpath hkey).mono
        fun found after ⟨hanswers, _⟩ => ?_
      rw [hstore, hsent] at hanswers
      exact Or.inr ⟨hkey, fun h => Bool.false_ne_true (hiff.mpr h), hanswers⟩

/-! ### What the answers say -/

/-- What asking whether a path is a directory does to a store: nothing, or it writes the marker of a
directory that has keys below it. -/
inductive Settles (fs : FileSystem) (plan : Plan) (key : Key) (store : Store) : Store → Prop
  | same : Settles fs plan key store store
  | marked (hkey : key ≠ []) (hmaterialize : fs.config.materialize = true)
      (hbelow : store.objects.HasBelow key)
      (hquiet : plan = .quiet → marker fs.config.suffix key ∉ store.objects) :
      Settles fs plan key store (store.put (marker fs.config.suffix key) [])

theorem Settles.mounted {store after : Store} (h : fs.Settles plan key store after)
    (hm : fs.Mounted store) : fs.Mounted after := by
  cases h with
  | same => exact hm
  | marked => exact hm.put _ _

/-- Nothing but the marker changes. -/
theorem Settles.getElem?_of_ne {store after : Store} (h : fs.Settles plan key store after) {k : Key}
    (hk : k ≠ marker fs.config.suffix key) : after.objects[k]? = store.objects[k]? := by
  cases h with
  | same => rfl
  | marked => exact Objects.getElem?_put_of_ne store [] hk

theorem Settles.getElem?_of_below {store after : Store} (h : fs.Settles plan key store after)
    {k : Key} (hk : childPrefix key <+: k) : after.objects[k]? = store.objects[k]? := by
  cases h with
  | same => rfl
  | marked hkey =>
    refine Objects.getElem?_put_of_ne store [] ?_
    rintro rfl
    exact not_childPrefix_prefix_marker fs.config.separator_notMem_suffix hkey hk

/-- Nothing is removed. -/
theorem Settles.mem {store after : Store} (h : fs.Settles plan key store after) {k : Key}
    (hk : k ∈ store.objects) : k ∈ after.objects := by
  cases h with
  | same => exact hk
  | marked => simp [hk]

theorem Settles.isDirectory {store after : Store} (h : fs.Settles plan key store after) {k : Key}
    (hk : store.objects.IsDirectory fs.config.suffix k) :
    after.objects.IsDirectory fs.config.suffix k :=
  hk.mono fun _ => h.mem

/-- A vacant key is left alone. -/
theorem Settles.eq_of_vacant {store after : Store} (h : fs.Settles plan key store after)
    (hvacant : store.objects.IsVacant fs.config.suffix key) : after = store := by
  cases h with
  | same => rfl
  | marked _ _ hbelow _ =>
    obtain ⟨k, hk, hp⟩ := hbelow
    exact absurd hk (hvacant k (Or.inr hp))

/-- What is answered to be a directory is one, and conversely if nothing is refused. -/
theorem Answers.says {earlier : List Request} {store : Store} {found : Bool} {after : World}
    (h : fs.Answers plan earlier store key found after) (hkey : key ≠ []) :
    (found = true → store.objects.IsDirectory fs.config.suffix key) ∧
      (plan = .quiet → store.objects.IsDirectory fs.config.suffix key → found = true) ∧
      fs.Settles plan key store after.store := by
  obtain ⟨kind, later, hsees, rfl, hstore⟩ := h
  refine ⟨hsees.isDirectory, ?_, ?_⟩
  · rintro rfl hdir
    exact (hsees.isDirectory_iff hkey).mpr hdir
  · rcases hstore with ⟨⟨rfl, hmaterialize, -⟩, hstore⟩ | ⟨-, hstore, -⟩
    · rw [hstore]
      refine .marked hkey hmaterialize ?_ ?_
      · cases hsees with
        | implicitDirectory _ h => exact h.2
      · rintro rfl
        exact hsees.notMem_marker (by decide)
    · rw [hstore]
      exact .same

/-- A directory is answered to be none only if a request fails. -/
theorem Answers.fails {earlier : List Request} {store : Store} {found : Bool} {after : World}
    (h : fs.Answers plan earlier store key found after) (hkey : key ≠ []) (hfound : found = false)
    (hdir : store.objects.IsDirectory fs.config.suffix key) :
    ∃ request, request.hasKey = true ∧ plan.Fails earlier after.requests request := by
  obtain ⟨kind, later, hsees, rfl, ⟨hmarked, -⟩ | ⟨-, -, hsent⟩⟩ := h
  · rw [hmarked.1] at hfound
    exact absurd hfound (by decide)
  · obtain rfl : kind = .missing := by
      cases kind with
      | missing => rfl
      | _ => exact absurd hfound (by decide)
    rw [hsent rfl]
    exact hsees.fails hkey hdir

include hr hm hpath in
/-- What is answered to be a directory is one, and conversely unless a request fails. -/
theorem returns_isDirectory :
    (fs.isDirectory path).Returns plan world fun found after =>
      (found = true → world.store.objects.IsDirectory fs.config.suffix key) ∧
      (found = false → world.store.objects.IsDirectory fs.config.suffix key →
        ∃ request, request.hasKey = true ∧ plan.Fails world.requests after.requests request) ∧
      world.requests <:+ after.requests ∧
      fs.Settles plan key world.store after.store := by
  by_cases hkey : key = []
  · refine (returns_isDirectory_root hpath hkey).mono ?_
    rintro found after ⟨rfl, rfl⟩
    exact ⟨fun _ => Or.inl hkey, fun h => Bool.noConfusion h, List.suffix_rfl, .same⟩
  · refine (returns_isDirectory_exact hr hm hpath hkey).mono ?_
    rintro found after ⟨hanswers, hsent⟩
    obtain ⟨htrue, -, hsettles⟩ := hanswers.says hkey
    exact ⟨htrue, fun hfound hdir => hanswers.fails hkey hfound hdir, hsent, hsettles⟩

include hm hpath in
/-- If nothing is refused, exactly the directories are answered to be one. -/
theorem returns_isDirectory_quiet :
    (fs.isDirectory path).Returns .quiet world fun found after =>
      (found = true ↔ world.store.objects.IsDirectory fs.config.suffix key) ∧
      fs.Settles .quiet key world.store after.store := by
  refine (returns_isDirectory Plan.refuses_quiet hm hpath).mono ?_
  rintro found after ⟨htrue, hfails, -, hsettles⟩
  refine ⟨⟨htrue, fun hdir => ?_⟩, hsettles⟩
  by_contra hfound
  obtain ⟨request, hrequest, hfail⟩ := hfails (Bool.eq_false_iff.mpr hfound) hdir
  exact hfail.ne_quiet hrequest rfl

include hr hm hpath in
/-- What is answered to exist is stored as a file or is a directory, and conversely if nothing is
refused. -/
theorem returns_exists? :
    (fs.exists? path).Returns plan world fun found after =>
      (found = true → key ∈ world.store.objects ∨
        world.store.objects.IsDirectory fs.config.suffix key) ∧
      (plan = .quiet → key ∈ world.store.objects ∨
        world.store.objects.IsDirectory fs.config.suffix key → found = true) ∧
      fs.Settles plan key world.store after.store := by
  refine (returns_exists?_exact hr hm hpath).mono ?_
  rintro found after (⟨rfl, hfound, hstore⟩ | ⟨hkey, hfile, hanswers⟩)
  · rw [hstore]
    refine ⟨fun _ => ?_, fun _ _ => rfl, .same⟩
    exact hfound.elim (fun hkey => Or.inr (Or.inl hkey)) fun hfinds => Or.inl hfinds.2
  · obtain ⟨htrue, hquiet, hsettles⟩ := hanswers.says hkey
    refine ⟨fun h => Or.inr (htrue h), fun hplan hexists => ?_, hsettles⟩
    rcases hexists with hmem | hdir
    · rw [hplan, Plan.finds_quiet_iff hkey] at hfile
      exact absurd hmem hfile
    · exact hquiet hplan hdir

/-! ### Listings -/

include hr hm in
/-- All pages of a listing are got, or a request for one of them fails. -/
theorem returns_allPages (recursive : Bool) :
    (fs.allPages key recursive).Returns plan world fun reply after =>
      after.store = world.store ∧ world.requests <:+ after.requests ∧
      match reply with
      | some found =>
        found = pages fs.config.pageSize
            (items world.store.objects (childPrefix key) (delimiterOf recursive)) ∧
          ∀ request, ¬ plan.Fails world.requests after.requests request
      | none => ∃ query, plan.Fails world.requests after.requests (.list query) := by
  rw [allPages]
  refine (Cursor.returns_drain hr hm.bucket_eq (childPrefix key) recursive
    fs.config.pageSize_pos).bind ?_
  rintro ⟨found, cursor⟩ between ⟨hstore, hdrains⟩
  dsimp only at hdrains ⊢
  by_cases hnil : found = []
  · rw [if_pos (by rw [hnil]; rfl)]
    refine StoreM.returns_log_bind fun after hafter hsent => StoreM.returns_pure_iff.mpr ?_
    rw [hsent]
    refine ⟨hafter.trans hstore, hdrains.requests, ?_⟩
    rcases hdrains.complete_or_fails with ⟨hall, -⟩ | ⟨-, hfails⟩
    · exact absurd (hall.symm.trans hnil) (pages_ne_nil _ _)
    · exact hfails
  · rw [if_neg (by simpa using hnil)]
    have hiff := hdrains.truncated_iff (Or.inr hnil)
    rcases hmore : cursor.truncated with _ | _
    · refine StoreM.returns_pure_iff.mpr ⟨hstore, hdrains.requests, hiff.mp hmore, ?_⟩
      exact (hdrains.complete_or_fails.resolve_right fun h => h.1 (hiff.mp hmore)).2
    · refine StoreM.returns_log_bind fun after hafter hsent => StoreM.returns_pure_iff.mpr ?_
      rw [hsent]
      refine ⟨hafter.trans hstore, hdrains.requests, ?_⟩
      refine (hdrains.complete_or_fails.resolve_left fun h => ?_).2
      rw [hiff.mpr h.1] at hmore
      exact Bool.false_ne_true hmore

include hm in
/-- If nothing is refused, all pages of a listing are got. -/
theorem returns_allPages_quiet (recursive : Bool) :
    (fs.allPages key recursive).Returns .quiet world fun reply after =>
      after.store = world.store ∧ reply = some (pages fs.config.pageSize
        (items world.store.objects (childPrefix key) (delimiterOf recursive))) := by
  refine (returns_allPages Plan.refuses_quiet hm recursive).mono ?_
  rintro reply after ⟨hstore, -, hreply⟩
  refine ⟨hstore, ?_⟩
  cases reply with
  | some found => rw [hreply.1]
  | none =>
    obtain ⟨query, hfails⟩ := hreply
    exact absurd rfl (hfails.ne_quiet rfl)

include hr hm hpath in
/-- The entries of a directory are got, or it is no directory, or a request fails. -/
theorem returns_listStatus :
    (fs.listStatus path false).Returns plan world fun reply after =>
      fs.Settles plan key world.store after.store ∧
      match reply with
      | some entries => world.store.objects.IsDirectory fs.config.suffix key ∧
          Status.IsListing fs.config.suffix after.store.objects (childPrefix key) entries
      | none => world.store.objects.IsDirectory fs.config.suffix key →
          ∃ request, request.hasKey = true ∧
            plan.Fails world.requests after.requests request := by
  rw [listStatus, key_eq hpath, pure_bind]
  refine (returns_isDirectory hr hm (hm.normalize?_key hpath)).bind fun found between hfound => ?_
  obtain ⟨htrue, hfails, hsent, hsettles⟩ := hfound
  cases found with
  | false => exact StoreM.returns_pure_iff.mpr ⟨hsettles, hfails rfl⟩
  | true =>
    refine (returns_allPages hr (hsettles.mounted hm) false).bind fun reply after hreply => ?_
    obtain ⟨hstore, hsent', hreply⟩ := hreply
    refine StoreM.returns_pure_iff.mpr ⟨hstore ▸ hsettles, ?_⟩
    cases reply with
    | none =>
      obtain ⟨query, hfails⟩ := hreply
      exact fun _ => ⟨_, rfl, (Plan.fails_trans_iff hsent hsent').mpr (Or.inr hfails)⟩
    | some found =>
      obtain ⟨rfl, -⟩ := hreply
      refine ⟨htrue rfl, ?_⟩
      rw [hstore]
      exact Status.isListing_ofPages fs.config.suffix_ne_nil fs.config.separator_notMem_suffix
        fs.config.pageSize_pos

include hr hm hpath in
/-- Whatever is refused, the entries that are got are those of the directory. Unless a request fails
they are got exactly if there is such a directory. -/
theorem listStatus_isListing :
    (fs.listStatus path false).Returns plan world fun reply after =>
      (∀ entries, reply = some entries →
        Status.IsListing fs.config.suffix world.store.objects (childPrefix key) entries) ∧
      ((∀ request, ¬ plan.Fails world.requests after.requests request) →
        (reply = none ↔ ¬ world.store.objects.IsDirectory fs.config.suffix key)) := by
  refine (returns_listStatus hr hm hpath).mono ?_
  rintro reply after ⟨hsettles, hreply⟩
  cases reply with
  | some entries =>
    obtain ⟨hdir, hlisting⟩ := hreply
    refine ⟨fun _ heq => ?_, fun _ => iff_of_false (by simp) (not_not_intro hdir)⟩
    obtain rfl := Option.some.inj heq
    exact hlisting.congr fun k hk => (hsettles.getElem?_of_below hk).symm
  | none =>
    refine ⟨nofun, fun hpass => iff_of_true rfl fun hdir => ?_⟩
    obtain ⟨request, -, hfails⟩ := hreply hdir
    exact hpass request hfails

/-- A bucket whose listings show one name a page. -/
def narrowBucket : FileSystem := { bucket := ⟨['b']⟩, config := { suffix := ['~'], pageSize := 1 } }

/-- A directory with a file, a directory of the same name, another one with a marker only, and a key
that has an empty segment. -/
def mixedNames : World :=
  { store := .holding ['b'] [("s/a".toList, [1]), ("s/a/x".toList, [2]), ("s/d~".toList, []),
      ("s//y".toList, [3])] }

/-- The listing of a directory has one entry for each name that is not empty. -/
theorem listStatus_isListing_mixedNames :
    (narrowBucket.listStatus ['s'] false).Returns .quiet mixedNames fun reply _ =>
      ∃ entries, reply = some entries ∧ entries =
        [{ name := ['a'], isDirectory := false, length := 1, modified := some 1 },
          Status.directory ['d']] ∧
        Status.IsListing ['~'] mixedNames.store.objects ['s', separator] entries := by
  have hm : narrowBucket.Mounted mixedNames.store := ⟨rfl, 'b', by decide, by decide⟩
  have hpath : normalize? narrowBucket.root ['s'] = some ['s'] := by decide +kernel
  have hentries : ((narrowBucket.listStatus ['s'] false).exec .quiet mixedNames).1 =
      .ok (some [{ name := ['a'], isDirectory := false, length := 1, modified := some 1 },
        Status.directory ['d']]) := by
    decide +kernel
  obtain ⟨reply, after, hrun, hlisting, -⟩ := listStatus_isListing Plan.refuses_quiet hm hpath
  rw [hrun] at hentries
  obtain rfl := Except.ok.inj hentries
  exact ⟨_, after, hrun, _, rfl, rfl, hlisting _ rfl⟩

end KeyTree.FileSystem
