import KeyTree.Proofs.FileSystem.Failing

/-!
# Questions when requests fail

A question is answered from look-ups, and a look-up that fails counts as "not there", whether it
fails before or after it has been carried out. So a path that is answered to be a file or a
directory is one, whichever requests fail, and a failure can turn a "yes" into a "no" only. To
classify a path sends no writing request at all. To ask whether it is a directory may send one, the
request for the marker of an implicit directory, and that one may be carried out although it is
reported as failed.

## Main definitions

* `Plan.CarriesOut` — requests that take effect, whatever is reported of them.
* `FileSystem.Looked` — how asking whether a path is a directory ends, and the store after it.
* `Objects.HasKind` — what a key stands for in some contents.
* `StoreM.Decides` — questions that are exact without failures and right in a "yes" with them.

## Main results

* `FileSystem.returns_isFile_of_onlyFails`, `FileSystem.returns_isDirectory_of_onlyFails`,
  `FileSystem.returns_exists?_of_onlyFails`, `FileSystem.returns_listStatus_of_onlyFails` — the
  questions and the listing under a plan that only fails requests.
* `FileSystem.classify_decides` — what the classification of a path and the questions about it say.
-/

namespace KeyTree

open Key Listing StoreM

variable {plan : Plan} {earlier later : List Request}

/-! ### Requests that take effect -/

namespace Plan

/-- The same requests pass, whether the others fail before or after they are carried out. -/
@[simp] theorem passes_beforehand_iff {request : Request} :
    plan.beforehand.Passes earlier request ↔ plan.Passes earlier request := by
  simp [Passes, beforehand]

@[simp] theorem finds_beforehand_iff {objects : Objects} {key : Key} :
    plan.beforehand.Finds earlier objects key ↔ plan.Finds earlier objects key := by
  simp [Finds]

@[simp] theorem findsBelow_beforehand_iff {objects : Objects} {key : Key} :
    plan.beforehand.FindsBelow earlier objects key ↔ plan.FindsBelow earlier objects key := by
  simp [FindsBelow]

/-- A plan *carries a request out* when the request names a key and does not fail beforehand. It may
be reported as failed all the same. -/
def CarriesOut (plan : Plan) (earlier : List Request) (request : Request) : Prop :=
  request.hasKey = true ∧ (plan.disrupt earlier request = none ∨
    ∃ failure, plan.disrupt earlier request = some (.failAfter failure))

end Plan

/-- Asking about objects writes nothing. -/
theorem Request.writes_eq_false_of_asksOnly {request : Request} (h : request.asksOnly = true) :
    request.writes = false := by
  cases request <;> first | rfl | exact absurd h Bool.false_ne_true

/-- Under a plan that only fails requests, the store is what a request makes of it exactly if the
request is carried out. -/
theorem serve_snd_of_onlyFails (hplan : plan.OnlyFails) (earlier : List Request) {store : Store}
    {bucket : List Char} (hbucket : bucket = store.bucket) (request : Request) :
    (plan.CarriesOut earlier request ∧
        (serve plan earlier store bucket request).2 = (store.perform request).2) ∨
      (¬ plan.CarriesOut earlier request ∧
        (serve plan earlier store bucket request).2 = store) := by
  rw [serve]
  by_cases hkey : request.hasKey = true
  · rw [if_pos hkey]
    rcases hd : plan.disrupt earlier request with _ | disruption
    · exact Or.inl ⟨⟨hkey, Or.inl hd⟩, by rw [if_pos hbucket]⟩
    · obtain ⟨error, rfl | rfl⟩ := hplan _ _ _ hd
      · refine Or.inr ⟨?_, rfl⟩
        rintro ⟨-, hnone | ⟨failure, hafter⟩⟩
        · rw [hd] at hnone
          cases hnone
        · rw [hd] at hafter
          cases hafter
      · refine Or.inl ⟨⟨hkey, Or.inr ⟨_, hd⟩⟩, ?_⟩
        dsimp only
        split
        · rename_i hasks
          exact (store.perform_snd_of_not_writes (Request.writes_eq_false_of_asksOnly hasks)).symm
        · rfl
  · exact Or.inr ⟨fun h => hkey h.1, by rw [if_neg hkey]⟩

/-- So it is after a request has been sent, and there is no error. -/
theorem returns_send_of_carriesOut (hplan : plan.OnlyFails) {world : World} {bucket : List Char}
    (hbucket : bucket = world.store.bucket) (request : Request) :
    (send bucket request).Returns plan world fun _ after =>
      (plan.CarriesOut world.requests request ∧
          after.store = (world.store.perform request).2) ∨
        (¬ plan.CarriesOut world.requests request ∧ after.store = world.store) := by
  obtain ⟨reply, after, hexec, -⟩ := FileSystem.returns_send_of_onlyFails hplan request
  have hstore : after.store =
      (serve plan world.requests world.store bucket request).2 := by
    have hsent := exec_send bucket request plan world
    rw [hexec] at hsent
    exact congrArg (fun outcome => outcome.2.store) hsent
  have hserved := serve_snd_of_onlyFails hplan world.requests hbucket request
  rw [← hstore] at hserved
  exact ⟨reply, after, hexec, hserved⟩

/-! ### Computations that only ask -/

theorem Bucket.onlyAsks_metadata (bucket : Bucket) (key : Key) :
    (bucket.metadata key).OnlyAsks plan := by
  refine (onlyAsks_send rfl).bind fun reply => ?_
  cases reply with
  | error fault => exact onlyAsks_pure _
  | ok reply =>
    dsimp only
    split
    · exact onlyAsks_pure _
    · exact onlyAsks_pure _
    · exact onlyAsks_throw _

namespace FileSystem

variable {fs : FileSystem} {world : World} {path : Path} {key : Key} {kind : PathKind}
  {objects : Objects} {store : Store}

theorem onlyAsks_key (path : Path) : (fs.key path).OnlyAsks plan := by
  rw [FileSystem.key]
  split
  · exact onlyAsks_pure _
  · exact onlyAsks_throw _

theorem onlyAsks_isFile (path : Path) : (fs.isFile path).OnlyAsks plan := by
  rw [isFile]
  split
  · exact (onlyAsks_log _ _ _).bind fun _ => onlyAsks_pure _
  · split
    · exact onlyAsks_pure _
    · refine (fs.bucket.onlyAsks_metadata _).bind fun reply => ?_
      cases reply with
      | ok metadata => exact onlyAsks_pure _
      | error fault => exact (onlyAsks_log _ _ _).bind fun _ => onlyAsks_pure _

theorem onlyAsks_classifyBelow (key : Key) : (fs.classifyBelow key).OnlyAsks plan := by
  refine (fs.bucket.onlyAsks_list _ _ _ _).bind fun reply => ?_
  cases reply with
  | ok page => exact onlyAsks_pure _
  | error fault => exact (onlyAsks_log _ _ _).bind fun _ => onlyAsks_pure _

theorem onlyAsks_classify (path : Path) : (fs.classify path).OnlyAsks plan := by
  rw [classify]
  refine (onlyAsks_key path).bind fun key => ?_
  dsimp only
  split
  · exact onlyAsks_pure _
  · refine ((onlyAsks_key key).bind fun _ => onlyAsks_pure _).bind fun marker => ?_
    refine (fs.bucket.onlyAsks_metadata marker).bind fun reply => ?_
    split
    · exact onlyAsks_pure _
    · exact onlyAsks_classifyBelow key
    · exact (onlyAsks_log _ _ _).bind fun _ => onlyAsks_classifyBelow key

/-- Keys lie below what is seen as an implicit directory. -/
theorem Sees.hasBelow (h : fs.Sees plan earlier objects key .implicitDirectory later) :
    objects.HasBelow key := by
  cases h with
  | implicitDirectory _ h => exact h.2

/-- A path is seen alike, whether look-ups fail before or after they are carried out. -/
theorem Sees.of_beforehand (h : fs.Sees plan.beforehand earlier objects key kind later) :
    fs.Sees plan earlier objects key kind later := by
  cases h with
  | directory h => exact .directory (Plan.finds_beforehand_iff.mp h)
  | implicitDirectory hmarker h =>
    exact .implicitDirectory (mt Plan.finds_beforehand_iff.mpr hmarker)
      (Plan.findsBelow_beforehand_iff.mp h)
  | missing hmarker h =>
    exact .missing (mt Plan.finds_beforehand_iff.mpr hmarker)
      (mt Plan.findsBelow_beforehand_iff.mpr h)

/-! ### The questions -/

variable (hplan : plan.OnlyFails) (hm : fs.Mounted world.store)
  (hpath : normalize? fs.root path = some key)

include hplan hm hpath in
/-- A path is answered to be a file exactly if the look-up finds its object. -/
theorem returns_isFile_of_onlyFails (hkey : key ≠ []) :
    (fs.isFile path).Returns plan world fun found after =>
      after.store = world.store ∧ after.requests = .head key :: world.requests ∧
      (found = true ↔ plan.Finds world.requests world.store.objects key) := by
  refine (onlyAsks_isFile path).returns ((returns_isFile hplan.refuses_beforehand hm hpath
    hkey).mono fun found after ⟨hstore, hsent, hfound⟩ => ?_)
  exact ⟨hstore, hsent, hfound.trans Plan.finds_beforehand_iff⟩

include hplan hm hpath in
/-- What a path below the root is classified as. -/
theorem returns_classify_of_onlyFails (hkey : key ≠ []) :
    (fs.classify path).Returns plan world fun kind after =>
      after.store = world.store ∧
      fs.Sees plan world.requests world.store.objects key kind after.requests :=
  (onlyAsks_classify path).returns ((returns_classify hplan.refuses_beforehand hm hpath hkey).mono
    fun _ _ ⟨hstore, hsees⟩ => ⟨hstore, hsees.of_beforehand⟩)

include hplan hm hpath in
/-- Writing a marker changes the store exactly if the request is carried out. -/
theorem returns_ensureMarker_of_onlyFails (hkey : key ≠ []) :
    (fs.ensureMarker path).Returns plan world fun _ after =>
      (plan.CarriesOut world.requests (.put (marker fs.config.suffix key) [] 0) ∧
          after.store = world.store.put (marker fs.config.suffix key) []) ∨
        (¬ plan.CarriesOut world.requests (.put (marker fs.config.suffix key) [] 0) ∧
          after.store = world.store) := by
  rw [ensureMarker, key_eq hpath, pure_bind]
  rw [if_neg (by simpa [isRoot] using hkey), markerKey_eq (hm.normalize?_key hpath), pure_bind]
  refine (returns_send_of_carriesOut hplan hm.bucket_eq (.put (marker fs.config.suffix key) []
    0)).bind fun reply between hsent => ?_
  -- what is reported of the request is an event only
  cases reply with
  | ok _ =>
    refine StoreM.returns_log_bind fun after hafter _ => StoreM.returns_pure_iff.mpr ?_
    rwa [hafter]
  | error fault =>
    refine StoreM.returns_log_bind fun after hafter _ => StoreM.returns_pure_iff.mpr ?_
    rwa [hafter]

/-- How asking whether a path is a directory ends: what the path is seen as, and the store after
it. -/
inductive Looked (fs : FileSystem) (plan : Plan) (earlier : List Request) (store : Store)
    (key : Key) : PathKind → Store → Prop
  /-- The root is a directory. -/
  | root (hkey : key = []) : Looked fs plan earlier store key .root store
  /-- The marker is not written. -/
  | same {kind : PathKind} {later : List Request} (hkey : key ≠ [])
      (hsees : fs.Sees plan earlier store.objects key kind later)
      (h : ¬ (kind = .implicitDirectory ∧ fs.config.materialize = true ∧
        plan.CarriesOut later (.put (marker fs.config.suffix key) [] 0))) :
      Looked fs plan earlier store key kind store
  /-- The path is seen as an implicit directory, and its marker is written. -/
  | marked {later : List Request} (hkey : key ≠ [])
      (hsees : fs.Sees plan earlier store.objects key .implicitDirectory later)
      (hmaterialize : fs.config.materialize = true)
      (h : plan.CarriesOut later (.put (marker fs.config.suffix key) [] 0)) :
      Looked fs plan earlier store key .implicitDirectory
        (store.put (marker fs.config.suffix key) [])

/-- What is answered to be a directory is one. -/
theorem Looked.isDirectory {after : Store} (h : fs.Looked plan earlier store key kind after)
    (hkind : kind.isDirectory = true) : store.objects.IsDirectory fs.config.suffix key := by
  cases h with
  | root hkey => exact Or.inl hkey
  | same _ hsees => exact hsees.isDirectory hkind
  | marked _ hsees => exact hsees.isDirectory hkind

/-- Without failures, a path is answered to be a directory exactly if it is one. -/
theorem Looked.isDirectory_iff (h : fs.Looked .quiet earlier store key kind after) :
    kind.isDirectory = true ↔ store.objects.IsDirectory fs.config.suffix key := by
  cases h with
  | root hkey => exact iff_of_true rfl (Or.inl hkey)
  | same hkey hsees => exact hsees.isDirectory_iff hkey
  | marked hkey hsees => exact hsees.isDirectory_iff hkey

/-- At most the marker of the path is written. -/
theorem Looked.settles {after : Store} (h : fs.Looked plan earlier store key kind after) :
    fs.Settles plan key store after := by
  cases h with
  | root => exact .same
  | same => exact .same
  | marked hkey hsees hmaterialize =>
    refine .marked hkey hmaterialize hsees.hasBelow ?_
    rintro rfl
    exact hsees.notMem_marker (by decide)

include hplan hm hpath in
/-- Whether a path is a directory is answered by what it is seen as. -/
theorem returns_isDirectory_of_onlyFails :
    (fs.isDirectory path).Returns plan world fun found after =>
      ∃ kind, found = kind.isDirectory ∧
        fs.Looked plan world.requests world.store key kind after.store := by
  by_cases hkey : key = []
  · refine (returns_isDirectory_root hpath hkey).mono ?_
    rintro found after ⟨rfl, rfl⟩
    exact ⟨.root, rfl, .root hkey⟩
  simp only [isDirectory, hpath]
  refine (returns_classify_of_onlyFails hplan hm hpath hkey).bind ?_
  rintro kind between ⟨hstore, hsees⟩
  split
  · rename_i himplicit
    obtain ⟨rfl, hmaterialize⟩ := himplicit
    refine StoreM.returns_log_bind fun logged hlogged hsent => ?_
    have hm' := hm.of_eq (hlogged.trans hstore)
    refine (returns_ensureMarker_of_onlyFails hplan hm' hpath hkey).bind
      fun written after hwritten => StoreM.returns_pure_iff.mpr ⟨.implicitDirectory, rfl, ?_⟩
    rw [hsent, hlogged, hstore] at hwritten
    rcases hwritten with ⟨hcarried, hafter⟩ | ⟨hcarried, hafter⟩
    · rw [hafter]
      exact .marked hkey hsees hmaterialize hcarried
    · rw [hafter]
      exact .same hkey hsees fun h => hcarried h.2.2
  · rename_i himplicit
    refine StoreM.returns_pure_iff.mpr ⟨kind, rfl, ?_⟩
    rw [hstore]
    exact .same hkey hsees fun h => himplicit ⟨h.1, h.2.1⟩

include hplan hm hpath in
/-- A path exists if it is the root or found as a file, and else if it is seen as a directory. -/
theorem returns_exists?_of_onlyFails :
    (fs.exists? path).Returns plan world fun found after =>
      (found = true ∧ (key = [] ∨ plan.Finds world.requests world.store.objects key) ∧
          after.store = world.store) ∨
        (key ≠ [] ∧ ¬ plan.Finds world.requests world.store.objects key ∧
          ∃ kind, found = kind.isDirectory ∧
            fs.Looked plan (.head key :: world.requests) world.store key kind after.store) := by
  rw [exists?]
  by_cases hkey : key = []
  · rw [isFile_root hpath hkey, pure_bind]
    refine (returns_isDirectory_root hpath hkey).mono ?_
    rintro found after ⟨hfound, rfl⟩
    exact Or.inl ⟨hfound, Or.inl hkey, rfl⟩
  · refine (returns_isFile_of_onlyFails hplan hm hpath hkey).bind ?_
    rintro found between ⟨hstore, hsent, hiff⟩
    cases found with
    | true => exact StoreM.returns_pure_iff.mpr (Or.inl ⟨rfl, Or.inr (hiff.mp rfl), hstore⟩)
    | false =>
      refine (returns_isDirectory_of_onlyFails hplan (hm.of_eq hstore) hpath).mono
        fun found after hlooked => ?_
      rw [hstore, hsent] at hlooked
      exact Or.inr ⟨hkey, fun h => Bool.false_ne_true (hiff.mpr h), hlooked⟩

include hplan hm hpath in
/-- The entries of a directory are got all or not at all, after it has been looked at. -/
theorem returns_listStatus_of_onlyFails (recursive : Bool) :
    (fs.listStatus path recursive).Returns plan world fun reply after =>
      (∃ kind, fs.Looked plan world.requests world.store key kind after.store) ∧
      ∀ entries, reply = some entries →
        entries = Status.entriesOf fs.config.suffix after.store.objects key recursive := by
  rw [listStatus, key_eq hpath, pure_bind]
  refine (returns_isDirectory_of_onlyFails hplan hm (hm.normalize?_key hpath)).bind ?_
  rintro _ between ⟨kind, rfl, hlooked⟩
  cases kind.isDirectory with
  | false =>
    refine StoreM.returns_pure_iff.mpr ⟨⟨kind, hlooked⟩, ?_⟩
    rintro _ ⟨⟩
  | true =>
    have hpages := (onlyAsks_allPages fs key recursive).returns
      (returns_allPages hplan.refuses_beforehand (hlooked.settles.mounted hm) recursive)
    refine hpages.bind ?_
    rintro reply after ⟨hstore, -, hreply⟩
    refine StoreM.returns_pure_iff.mpr ?_
    rw [hstore]
    refine ⟨⟨kind, hlooked⟩, ?_⟩
    cases reply with
    | none => rintro _ ⟨⟩
    | some found =>
      rintro _ ⟨⟩
      rw [hreply.1]
      exact Status.ofPages_pages fs.config.suffix_ne_nil fs.config.separator_notMem_suffix
        fs.config.pageSize_pos

end FileSystem

/-! ### What the answers say -/

/-- What a key stands for in some contents. -/
def Objects.HasKind (suffix : List Char) (objects : Objects) (key : Key) : PathKind → Prop
  | .root => key = []
  | .directory => key ≠ [] ∧ marker suffix key ∈ objects
  | .implicitDirectory => objects.IsImplicit suffix key
  | .missing => ¬ objects.IsDirectory suffix key

/-- A key stands for one thing. -/
theorem Objects.HasKind.unique {suffix : List Char} {objects : Objects} {key : Key}
    {kind kind' : PathKind} (h : objects.HasKind suffix key kind)
    (h' : objects.HasKind suffix key kind') : kind = kind' := by
  cases kind <;> cases kind' <;> simp_all [HasKind, IsImplicit, IsDirectory]

/-- A question *decides* a fact about a store when it is answered without an error, exactly if no
request fails, and right in every "yes" if requests fail. -/
structure StoreM.Decides (question : StoreM Bool) (world : World) (fact : Prop) : Prop where
  quiet : question.Returns .quiet world fun found _ => found = true ↔ fact
  sound : ∀ plan : Plan, plan.OnlyFails →
    question.Returns plan world fun found _ => found = true → fact

/-- Failures can turn a "yes" into a "no" only. -/
theorem StoreM.Decides.yes_of_yes {question : StoreM Bool} {world : World} {fact : Prop}
    (h : question.Decides world fact) (hplan : plan.OnlyFails)
    (hyes : (question.exec plan world).1 = .ok true) :
    (question.exec .quiet world).1 = .ok true := by
  obtain ⟨found, hfound, hfact⟩ := (h.sound plan hplan).of_exec (exec_eq_of_fst hyes)
  obtain rfl := Except.ok.inj hfound
  obtain ⟨found', after, hrun, hiff⟩ := h.quiet
  rw [hrun, hiff.mpr (hfact rfl)]

namespace FileSystem

variable {fs : FileSystem} {world : World} {path : Path} {key : Key}
  (hm : fs.Mounted world.store) (hpath : normalize? fs.root path = some key)

/-- If nothing is refused, a path is seen as what its key stands for. -/
theorem Sees.hasKind {objects : Objects} {kind : PathKind}
    (h : fs.Sees .quiet earlier objects key kind later) (hkey : key ≠ []) :
    objects.HasKind fs.config.suffix key kind := by
  have hdir := h.isDirectory_iff hkey
  cases h with
  | directory h => exact ⟨hkey, h.2⟩
  | implicitDirectory hmarker h =>
    exact ⟨hkey, (Plan.finds_quiet_iff (fs.marker_ne_nil key)).not.mp hmarker, h.2⟩
  | missing => exact hdir.not.mp Bool.false_ne_true

include hpath in
/-- The root is classified without a request. -/
theorem classify_root (hkey : key = []) : fs.classify path = pure .root := by
  subst hkey
  rw [classify, key_eq hpath, pure_bind]
  rfl

include hm hpath in
/-- If nothing is refused, a path is classified as what its key stands for. -/
theorem returns_classify_quiet :
    (fs.classify path).Returns .quiet world fun kind _ =>
      world.store.objects.HasKind fs.config.suffix key kind := by
  by_cases hkey : key = []
  · rw [classify_root hpath hkey]
    exact StoreM.returns_pure_iff.mpr hkey
  · exact (returns_classify Plan.refuses_quiet hm hpath hkey).mono
      fun kind after ⟨_, hsees⟩ => hsees.hasKind hkey

include hm hpath

/-- Whether a path is a directory. -/
theorem decides_isDirectory :
    (fs.isDirectory path).Decides world
      (world.store.objects.IsDirectory fs.config.suffix key) := by
  refine ⟨(returns_isDirectory_quiet hm hpath).mono fun _ _ h => h.1, fun plan hplan => ?_⟩
  refine (returns_isDirectory_of_onlyFails hplan hm hpath).mono ?_
  rintro _ after ⟨kind, rfl, hlooked⟩
  exact hlooked.isDirectory

/-- Whether a path is a file. -/
theorem decides_isFile :
    (fs.isFile path).Decides world (key ≠ [] ∧ key ∈ world.store.objects) := by
  by_cases hkey : key = []
  · rw [isFile_root hpath hkey]
    exact ⟨StoreM.returns_pure_iff.mpr (by simp [hkey]),
      fun _ _ => StoreM.returns_pure_iff.mpr nofun⟩
  · refine ⟨?_, fun plan hplan => ?_⟩
    · refine (returns_isFile Plan.refuses_quiet hm hpath hkey).mono fun found after ⟨_, _, h⟩ => ?_
      rw [h, Plan.finds_quiet_iff hkey, and_iff_right hkey]
    · exact (returns_isFile_of_onlyFails hplan hm hpath hkey).mono
        fun found after ⟨_, _, h⟩ hfound => ⟨hkey, (h.mp hfound).2⟩

/-- Whether a path is there as a file or as a directory. -/
theorem decides_exists? :
    (fs.exists? path).Decides world ((key ≠ [] ∧ key ∈ world.store.objects) ∨
      world.store.objects.IsDirectory fs.config.suffix key) := by
  have hroot : key ∈ world.store.objects → (key ≠ [] ∧ key ∈ world.store.objects) ∨
      world.store.objects.IsDirectory fs.config.suffix key := by
    intro hmem
    by_cases hkey : key = []
    · exact Or.inr (Or.inl hkey)
    · exact Or.inl ⟨hkey, hmem⟩
  refine ⟨?_, fun plan hplan => ?_⟩
  · refine (returns_exists? Plan.refuses_quiet hm hpath).mono
      fun found after ⟨htrue, hquiet, _⟩ => ?_
    exact ⟨fun h => (htrue h).elim hroot Or.inr, fun h => hquiet rfl (h.imp_left And.right)⟩
  · refine (returns_exists?_of_onlyFails hplan hm hpath).mono ?_
    rintro found after (⟨-, hnil | hfinds, -⟩ | ⟨-, -, kind, rfl, hlooked⟩) hfound
    · exact Or.inr (Or.inl hnil)
    · exact hroot hfinds.2
    · exact Or.inr (hlooked.isDirectory hfound)

/-- If no request fails, a path is classified as exactly what its key stands for. Whichever requests
fail, the classification sends no request that writes, and a question about the path is answered
with "yes" only if that is right, so a failure can turn a "yes" into a "no" only. -/
theorem classify_decides :
    ((fs.classify path).Returns .quiet world fun kind _ =>
      ∀ kind', kind = kind' ↔ world.store.objects.HasKind fs.config.suffix key kind') ∧
    (∀ plan : Plan, (fs.classify path).Confined plan fs.bucket.name (fun _ _ => False) world ∧
      ((fs.classify path).exec plan world).2.store = world.store) ∧
    (fs.isDirectory path).Decides world (world.store.objects.IsDirectory fs.config.suffix key) ∧
    (fs.isFile path).Decides world (key ≠ [] ∧ key ∈ world.store.objects) ∧
    (fs.exists? path).Decides world ((key ≠ [] ∧ key ∈ world.store.objects) ∨
      world.store.objects.IsDirectory fs.config.suffix key) ∧
    ∀ question ∈ [fs.isDirectory path, fs.isFile path, fs.exists? path], ∀ plan : Plan,
      plan.OnlyFails → (question.exec plan world).1 = .ok true →
        (question.exec .quiet world).1 = .ok true := by
  refine ⟨?_, fun plan => ?_, decides_isDirectory hm hpath, decides_isFile hm hpath,
    decides_exists? hm hpath, ?_⟩
  · exact (returns_classify_quiet hm hpath).mono
      fun kind _ hkind kind' => ⟨fun h => h ▸ hkind, hkind.unique⟩
  · have hconfined : (fs.classify path).Confined plan fs.bucket.name (fun _ _ => False) world :=
      confined_classify path
    exact ⟨hconfined, World.Run.store_eq hconfined⟩
  · intro question hquestion plan hplan hyes
    simp only [List.mem_cons, List.not_mem_nil, or_false] at hquestion
    rcases hquestion with rfl | rfl | rfl
    · exact (decides_isDirectory hm hpath).yes_of_yes hplan hyes
    · exact (decides_isFile hm hpath).yes_of_yes hplan hyes
    · exact (decides_exists? hm hpath).yes_of_yes hplan hyes

omit hm hpath

/-- A bucket whose only key lies two levels below `d`. -/
def nestedKey : World :=
  { store := .holding ['b'] [("d/s/x".toList, [1])] }

/-- All requests of a kind are reported as failed. -/
def failing (method : Method) : Plan :=
  Script.plan [{ method := some method, effect := .fail (.store (.transport .noCredentials)) true }]

theorem onlyFails_failing (method : Method) : (failing method).OnlyFails := by
  refine Script.onlyFails_plan fun rule hrule => ?_
  obtain rfl := List.mem_singleton.mp hrule
  exact ⟨_, _, rfl⟩

/-- Without its marker `d` is an implicit directory. That is still answered if no object is found,
and no longer if nothing is listed. -/
theorem classify_decides_nestedKey :
    (plainBucket.classify "/d/".toList).Returns .quiet nestedKey
        (fun kind _ => kind = .implicitDirectory) ∧
      ((plainBucket.exists? "/d/".toList).exec (failing .list) nestedKey).1 = .ok false ∧
      ((plainBucket.exists? "/d/".toList).exec (failing .head) nestedKey).1 = .ok true ∧
      ((plainBucket.exists? "/d/".toList).exec .quiet nestedKey).1 = .ok true := by
  have hm : plainBucket.Mounted nestedKey.store := ⟨rfl, 'b', by decide, by decide⟩
  have hpath : normalize? plainBucket.root "/d/".toList = some ['d'] := by decide +kernel
  have himplicit : nestedKey.store.objects.HasKind plainBucket.config.suffix ['d']
      .implicitDirectory :=
    ⟨by decide, by decide +kernel,
      Objects.hasBelow_holding.mpr ⟨("d/s/x".toList, [1]), by simp, by decide⟩⟩
  obtain ⟨hkind, -, -, -, -, hyes⟩ := classify_decides hm hpath
  have hfound :
      ((plainBucket.exists? "/d/".toList).exec (failing .head) nestedKey).1 = .ok true := by
    decide +kernel
  exact ⟨hkind.mono fun kind _ h => (h _).mpr himplicit, by decide +kernel, hfound,
    hyes _ (by simp) _ (onlyFails_failing .head) hfound⟩

end FileSystem

end KeyTree
