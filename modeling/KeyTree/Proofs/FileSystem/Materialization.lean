import KeyTree.Proofs.FileSystem.RenameTree
import KeyTree.Proofs.Listing.Marking
import KeyTree.Proofs.Session

/-!
# Materialization

To ask whether a directory without a marker is one writes its marker, if the configuration says so.
The marker of a directory with keys below it makes no new directory, shows in no listing, and is no
file for a path that does not end the way markers do. So contents before and after a question look
alike, and every question is answered from what the contents look like: whatever is asked and in
whatever order, the answers are those that the contents at the start would have given alone.

## Main definitions

* `Objects.LooksLike` — contents that no question tells apart.
* `FileSystem.Tells` — what contents have to say to a question.
* `FileSystem.Asks` — the questions: calls on paths that do not end the way markers do.

## Main results

* `FileSystem.Settles.looksLike` — a written marker does not show.
* `FileSystem.returns_asks` — what a question is answered, and what it leaves behind.
* `Session.performAll_asks` — a run of questions.
-/

namespace KeyTree

open Key Session

/-- Contents *look like* others when they have the same directories, the same objects under keys
that do not end the way markers do, and the same listings. -/
structure Objects.LooksLike (suffix : List Char) (objects objects' : Objects) : Prop where
  isDirectory_iff (key : Key) : objects.IsDirectory suffix key ↔ objects'.IsDirectory suffix key
  getElem?_eq {key : Key} (h : ¬ suffix <:+ key) : objects[key]? = objects'[key]?
  entriesOf_eq (key : Key) (recursive : Bool) :
    Status.entriesOf suffix objects key recursive = Status.entriesOf suffix objects' key recursive

theorem Objects.LooksLike.refl (suffix : List Char) (objects : Objects) :
    objects.LooksLike suffix objects :=
  ⟨fun _ => Iff.rfl, fun _ => rfl, fun _ _ => rfl⟩

theorem Objects.LooksLike.trans {suffix : List Char} {objects between objects' : Objects}
    (h : objects.LooksLike suffix between) (h' : between.LooksLike suffix objects') :
    objects.LooksLike suffix objects' :=
  ⟨fun key => (h.isDirectory_iff key).trans (h'.isDirectory_iff key),
    fun hkey => (h.getElem?_eq hkey).trans (h'.getElem?_eq hkey),
    fun key recursive => (h.entriesOf_eq key recursive).trans (h'.entriesOf_eq key recursive)⟩

/-- The path that a call asks about, if it does nothing but ask. -/
def PathCall.asked? : PathCall → Option Path
  | .isDirectory path | .isFile path | .exists? path | .open? path | .listStatus path _ => some path
  | _ => none

namespace FileSystem

variable {fs : FileSystem} {world : World} {path : Path} {key : Key} {call : PathCall}

/-- A written marker does not show. -/
theorem Settles.looksLike {store after : Store} (h : fs.Settles .quiet key store after)
    (hkey : key = [] ∨ IsNormal key) : after.objects.LooksLike fs.config.suffix store.objects where
  isDirectory_iff _ := ⟨h.isDirectory_of, h.isDirectory⟩
  getElem?_eq hplain := h.getElem?_of_ne fun heq => hplain (heq ▸ Objects.suffix_marker _ key)
  entriesOf_eq _ _ := by
    cases h with
    | same => rfl
    | marked hne _ hbelow hmarker =>
      exact Status.entriesOf_put_marker fs.config.suffix_ne_nil fs.config.separator_notMem_suffix
        (hkey.resolve_left hne) hbelow (hmarker rfl)

/-! ### Questions -/

/-- The key of the path that a call asks about. -/
def askedKey? (fs : FileSystem) (call : PathCall) : Option Key :=
  call.asked?.bind (normalize? fs.root)

/-- A call *asks* when it does nothing but ask about a path of the bucket whose key does not end the
way markers do. -/
def Asks (fs : FileSystem) (call : PathCall) : Prop :=
  ∃ key ∈ fs.askedKey? call, ¬ fs.config.suffix <:+ key

instance (fs : FileSystem) (call : PathCall) : Decidable (fs.Asks call) :=
  inferInstanceAs (Decidable (∃ key ∈ fs.askedKey? call, ¬ fs.config.suffix <:+ key))

/-- What contents have to say to a question about a key. -/
def Tells (suffix : List Char) (objects : Objects) (key : Key) (answer : Answer) : PathCall → Prop
  | .isDirectory _ => ∃ b, answer = .flag b ∧ (b = true ↔ objects.IsDirectory suffix key)
  | .isFile _ => ∃ b, answer = .flag b ∧ (b = true ↔ key ≠ [] ∧ key ∈ objects)
  | .exists? _ =>
    ∃ b, answer = .flag b ∧ (b = true ↔ key ∈ objects ∨ objects.IsDirectory suffix key)
  | .open? _ => answer = orNothing .bytes (if key = [] then none else objects.body? key)
  | .listStatus _ recursive =>
    (objects.IsDirectory suffix key ∧
        answer = .statuses (Status.entriesOf suffix objects key recursive)) ∨
      (¬ objects.IsDirectory suffix key ∧ answer = .nothing)
  | _ => False

/-- Contents have one thing to say to a question. -/
theorem Tells.unique {suffix : List Char} {objects : Objects} {answer answer' : Answer}
    (h : Tells suffix objects key answer call) (h' : Tells suffix objects key answer' call) :
    answer = answer' := by
  cases call with
  | isDirectory | isFile | exists? =>
    obtain ⟨b, rfl, hb⟩ := h
    obtain ⟨b', rfl, hb'⟩ := h'
    rw [Bool.eq_iff_iff.mpr (hb.trans hb'.symm)]
  | open? => exact Eq.trans h (Eq.symm h')
  | listStatus =>
    rcases h with ⟨hdir, rfl⟩ | ⟨hno, rfl⟩ <;> rcases h' with ⟨hdir', rfl⟩ | ⟨hno', rfl⟩
    · rfl
    · exact absurd hdir hno'
    · exact absurd hdir' hno
    · rfl
  | _ => exact h.elim

/-- Contents that look alike say the same. -/
theorem Tells.congr {suffix : List Char} {objects objects' : Objects} {answer : Answer}
    (h : Tells suffix objects key answer call) (hlooks : objects.LooksLike suffix objects')
    (hkey : ¬ suffix <:+ key) : Tells suffix objects' key answer call := by
  have hmem : key ∈ objects ↔ key ∈ objects' := Objects.mem_congr (hlooks.getElem?_eq hkey)
  cases call with
  | isDirectory | isFile | exists? =>
    simpa only [Tells, hlooks.isDirectory_iff, hmem] using h
  | open? => rwa [Tells, Objects.body?_congr (hlooks.getElem?_eq hkey)] at h
  | listStatus =>
    simpa only [Tells, hlooks.isDirectory_iff, hlooks.entriesOf_eq] using h
  | _ => exact h.elim

/-! ### Answers -/

variable (hm : fs.Mounted world.store) (hpath : normalize? fs.root path = some key)

include hm hpath in
/-- If nothing fails, opening a path gets the body under its key. Nothing is under the root. -/
theorem returns_open? :
    (fs.open? path).Returns .quiet world fun body after =>
      body = (if key = [] then none else world.store.objects.body? key) ∧
        after.store = world.store := by
  rw [open?, key_eq hpath, pure_bind]
  have hpasses : Plan.quiet.Passes world.requests (.get key) ↔ key ≠ [] :=
    Plan.passes_quiet_iff.trans decide_eq_true_iff
  refine (Bucket.returns_read Plan.refuses_quiet hm.bucket_eq key).bind ?_
  rintro reply between ⟨hstore, ⟨hpass, o, ho, rfl⟩ | ⟨hnone, fault, rfl⟩⟩
  · rw [if_neg (hpasses.mp hpass)]
    exact StoreM.returns_pure_iff.mpr ⟨(Objects.body?_of_getElem? ho).symm, hstore⟩
  · refine StoreM.returns_log_bind fun after hafter _ => StoreM.returns_pure_iff.mpr ?_
    refine ⟨?_, hafter.trans hstore⟩
    split
    · rfl
    · rename_i hkey
      have hmem : key ∉ world.store.objects := fun hmem => hnone ⟨hpasses.mpr hkey, hmem⟩
      rw [Objects.body?, Objects.notMem_iff.mp hmem, Option.map_none]

include hm hpath in
/-- If nothing fails, listing a directory gets its entries, and listing anything else nothing. -/
theorem returns_listStatus_quiet (recursive : Bool) :
    (fs.listStatus path recursive).Returns .quiet world fun reply after =>
      Tells fs.config.suffix world.store.objects key (orNothing .statuses reply)
          (.listStatus path recursive) ∧
        fs.Settles .quiet key world.store after.store := by
  rw [listStatus, key_eq hpath, pure_bind]
  refine (returns_isDirectory_quiet hm (hm.normalize?_key hpath)).bind ?_
  rintro found between ⟨hdir, hsettles⟩
  cases found with
  | false =>
    exact StoreM.returns_pure_iff.mpr
      ⟨Or.inr ⟨fun h => Bool.false_ne_true (hdir.mpr h), rfl⟩, hsettles⟩
  | true =>
    refine (returns_allPages_quiet (hsettles.mounted hm) recursive).bind ?_
    rintro _ after ⟨hstore, rfl⟩
    refine StoreM.returns_pure_iff.mpr ⟨Or.inl ⟨hdir.mp rfl, ?_⟩, hstore ▸ hsettles⟩
    have hlooks := hsettles.looksLike (isNormal_of_normalize? hpath)
    rw [← hlooks.entriesOf_eq, ← Status.ofPages_pages fs.config.suffix_ne_nil
      fs.config.separator_notMem_suffix fs.config.pageSize_pos]
    rfl

include hm in
/-- If nothing fails, a question is answered with what the contents have to say, and no more than
the marker of the asked path is written. -/
theorem returns_asks (hkey : fs.askedKey? call = some key) :
    (performPath fs call).Returns .quiet world fun answer after =>
      Tells fs.config.suffix world.store.objects key answer call ∧
        fs.Settles .quiet key world.store after.store := by
  obtain ⟨path, hasked, hpath⟩ := Option.bind_eq_some_iff.mp hkey
  cases call with
  | isDirectory _ =>
    cases hasked
    exact (returns_isDirectory_quiet hm hpath).bind fun found after ⟨hdir, hsettles⟩ =>
      StoreM.returns_pure_iff.mpr ⟨⟨found, rfl, hdir⟩, hsettles⟩
  | isFile _ =>
    cases hasked
    by_cases hroot : key = []
    · rw [performPath, isFile_root hpath hroot, pure_bind]
      exact StoreM.returns_pure_iff.mpr ⟨⟨false, rfl, by simp [hroot]⟩, .same⟩
    · refine (returns_isFile Plan.refuses_quiet hm hpath hroot).bind
        fun found after ⟨hstore, _, hfound⟩ => StoreM.returns_pure_iff.mpr ?_
      rw [Plan.finds_quiet_iff hroot] at hfound
      exact ⟨⟨found, rfl, hfound.trans (by simp [hroot])⟩, hstore ▸ .same⟩
  | exists? _ =>
    cases hasked
    refine (returns_exists? Plan.refuses_quiet hm hpath).bind
      fun found after ⟨htrue, hquiet, hsettles⟩ => StoreM.returns_pure_iff.mpr ?_
    exact ⟨⟨found, rfl, htrue, hquiet rfl⟩, hsettles⟩
  | open? _ =>
    cases hasked
    refine (returns_open? hm hpath).bind fun body after ⟨hbody, hstore⟩ =>
      StoreM.returns_pure_iff.mpr ?_
    exact ⟨congrArg (orNothing .bytes) hbody, hstore ▸ .same⟩
  | listStatus _ recursive =>
    cases hasked
    exact (returns_listStatus_quiet hm hpath recursive).bind
      fun reply after h => StoreM.returns_pure_iff.mpr h
  | _ => cases hasked

end FileSystem

namespace Session

/-! ### Runs of questions -/

/-- The session over the file system that writes markers or does not. -/
def withMaterialize (session : Session) (materialize : Bool) : Session :=
  { session with
    fs := { session.fs with config := { session.fs.config with materialize } } }

variable {session : Session} {calls : List PathCall}

/-- If nothing fails, a question is answered with what the contents have to say, and the contents
after it look like those before. -/
theorem perform_asks (hquiet : session.plan = .quiet) (hm : session.fs.Mounted session.world.store)
    {call : PathCall} {key : Key} (hkey : session.fs.askedKey? call = some key) :
    ∃ answer after, session.perform (.path call) = (.ok answer, { session with world := after }) ∧
      FileSystem.Tells session.fs.config.suffix session.world.store.objects key answer call ∧
      session.fs.Settles .quiet key session.world.store after.store := by
  obtain ⟨answer, after, hexec, htells, hsettles⟩ := FileSystem.returns_asks hm hkey
  refine ⟨answer, after, ?_, htells, hsettles⟩
  rw [perform_path, hquiet, hexec]

/-- If nothing fails, a run of questions leaves contents that look like those at the start. -/
theorem performAll_looksLike (hquiet : session.plan = .quiet)
    (hm : session.fs.Mounted session.world.store)
    (hcalls : ∀ call ∈ calls, (session.fs.askedKey? call).isSome) :
    ∃ after, (session.performAll (calls.map .path)).2 = { session with world := after } ∧
      session.fs.Mounted after.store ∧
      after.store.objects.LooksLike session.fs.config.suffix session.world.store.objects := by
  induction calls generalizing session with
  | nil => exact ⟨session.world, rfl, hm, .refl ..⟩
  | cons call calls ih =>
    obtain ⟨key, hkey⟩ := Option.isSome_iff_exists.mp (hcalls call List.mem_cons_self)
    obtain ⟨answer, between, hperform, -, hsettles⟩ := perform_asks hquiet hm hkey
    have hnormal : key = [] ∨ IsNormal key := by
      obtain ⟨path, -, hpath⟩ := Option.bind_eq_some_iff.mp hkey
      exact isNormal_of_normalize? hpath
    obtain ⟨after, hafter, hm', hlooks⟩ := @ih { session with world := between } hquiet
      (hsettles.mounted hm) fun call hcall => hcalls call (List.mem_cons_of_mem _ hcall)
    rw [List.map_cons, performAll, hperform]
    exact ⟨after, hafter, hm', hlooks.trans (hsettles.looksLike hnormal)⟩

/-- If nothing fails, every question of a run is answered with what contents have to say that look
like those at the start, and only markers are written. -/
theorem performAll_tells {objects : Objects} (hquiet : session.plan = .quiet)
    (hm : session.fs.Mounted session.world.store)
    (hlooks : session.world.store.objects.LooksLike session.fs.config.suffix objects)
    (hcalls : ∀ call ∈ calls, session.fs.Asks call) :
    List.Forall₂ (fun call answer => ∃ key a, session.fs.askedKey? call = some key ∧
        answer = .ok a ∧ FileSystem.Tells session.fs.config.suffix objects key a call)
      calls (session.performAll (calls.map .path)).1 ∧
    session.fs.OnlyMarks (calls.filterMap session.fs.askedKey?) session.world.store.objects
      (session.performAll (calls.map .path)).2.world.store.objects := by
  induction calls generalizing session with
  | nil => exact ⟨.nil, fun _ => Or.inl rfl⟩
  | cons call calls ih =>
    obtain ⟨key, hkey, hplain⟩ := hcalls call List.mem_cons_self
    obtain ⟨answer, after, hperform, htells, hsettles⟩ := perform_asks hquiet hm hkey
    have hnormal : key = [] ∨ IsNormal key := by
      obtain ⟨path, -, hpath⟩ := Option.bind_eq_some_iff.mp hkey
      exact isNormal_of_normalize? hpath
    obtain ⟨hrest, hmarks⟩ := @ih { session with world := after } hquiet
      (hsettles.mounted hm) ((hsettles.looksLike hnormal).trans hlooks)
      fun call hcall => hcalls call (List.mem_cons_of_mem _ hcall)
    rw [List.map_cons, performAll, hperform, List.filterMap_cons_some hkey]
    refine ⟨.cons ⟨key, answer, hkey, rfl, htells.congr hlooks hplain⟩ hrest, ?_⟩
    exact hsettles.onlyMarks.trans hmarks fun _ => hsettles.isImplicit_of

/-- If nothing fails, every question of a run gets an answer, and the same one as if it were asked
alone at the start in a file system that writes no markers. Whether markers are written or not, the
store only gains empty markers of asked directories that had none. -/
theorem performAll_asks (hquiet : session.plan = .quiet)
    (hm : session.fs.Mounted session.world.store) (hcalls : ∀ call ∈ calls, session.fs.Asks call)
    (materialize : Bool) :
    ((session.withMaterialize materialize).performAll (calls.map .path)).1 =
        calls.map (fun call => ((session.withMaterialize false).perform (.path call)).1) ∧
      (∀ call ∈ calls, ∃ answer,
        ((session.withMaterialize false).perform (.path call)).1 = .ok answer) ∧
      (session.withMaterialize materialize).fs.OnlyMarks (calls.filterMap session.fs.askedKey?)
        session.world.store.objects
        ((session.withMaterialize materialize).performAll
          (calls.map .path)).2.world.store.objects := by
  have hm' : ∀ b, (session.withMaterialize b).fs.Mounted (session.withMaterialize b).world.store :=
    fun _ => ⟨hm.bucket_eq, hm.named⟩
  have halone : ∀ {call : PathCall} {key : Key}, session.fs.askedKey? call = some key →
      ∃ answer, ((session.withMaterialize false).perform (.path call)).1 = .ok answer ∧
        FileSystem.Tells session.fs.config.suffix session.world.store.objects key answer call := by
    intro call key hkey
    obtain ⟨answer, after, hperform, htells, -⟩ :=
      @perform_asks (session.withMaterialize false) hquiet (hm' false) _ _ hkey
    exact ⟨answer, congrArg Prod.fst hperform, htells⟩
  obtain ⟨hanswers, hmarks⟩ :=
    @performAll_tells (session.withMaterialize materialize) calls _ hquiet (hm' materialize)
      (.refl _ session.world.store.objects) hcalls
  refine ⟨?_, fun call hcall => ?_, hmarks⟩
  · rw [eq_comm, ← List.forall₂_eq_eq_eq, List.forall₂_map_left_iff]
    refine hanswers.imp ?_
    rintro call _ ⟨key, a, hkey, rfl, htells⟩
    obtain ⟨answer, hanswer, htells'⟩ := halone hkey
    rw [hanswer, htells'.unique htells]
  · obtain ⟨key, hkey, -⟩ := hcalls call hcall
    obtain ⟨answer, hanswer, -⟩ := halone hkey
    exact ⟨answer, hanswer⟩

/-- A session in which the marker of `a` comes before the file `a!c`, and that before the keys below
`a`, one of which has an empty segment. -/
def earlyMarkers : Session :=
  { fs := { bucket := ⟨['b']⟩, config := { suffix := ['!'], pageSize := 2 } }
    world := { store := .holding ['b'] [(['a'], [1]), ("a!c".toList, [2]), ("a//y".toList, [3]),
      ("a/d/x".toList, [4])] } }

/-- The bucket is listed before the markers of `a` and `a/d` are written and after it. -/
def questions : List PathCall :=
  [.listStatus [] true, .isDirectory ['a'], .listStatus "/a/d/".toList false,
    .listStatus [] true, .isFile ['a'], .open? "a!c".toList, .exists? "a//y".toList]

/-- Two markers are written in the run, and the file `a`, which is a directory too, stays a file. -/
theorem performAll_asks_earlyMarkers :
    earlyMarkers.fs.Mounted earlyMarkers.world.store ∧
      (∀ call ∈ questions, earlyMarkers.fs.Asks call) ∧
      (Status.entriesOf ['!'] earlyMarkers.world.store.objects [] true).map Status.name =
        [['a'], "a!c".toList, "a/".toList, "a//y".toList, "a/d".toList, "a/d/x".toList] ∧
      ((earlyMarkers.withMaterialize true).performAll (questions.map .path)).1 =
        [.ok (.statuses (Status.entriesOf ['!'] earlyMarkers.world.store.objects [] true)),
          .ok (.flag true),
          .ok (.statuses
            [{ name := ['x'], isDirectory := false, length := 1, modified := some 4 }]),
          .ok (.statuses (Status.entriesOf ['!'] earlyMarkers.world.store.objects [] true)),
          .ok (.flag true), .ok (.bytes [2]), .ok (.flag false)] ∧
      ((earlyMarkers.withMaterialize true).performAll
          (questions.map .path)).2.world.store.objects.keys =
        [['a'], "a!".toList, "a!c".toList, "a//y".toList, "a/d!".toList, "a/d/x".toList] ∧
      (earlyMarkers.withMaterialize true).fs.OnlyMarks
        [[], ['a'], "a/d".toList, [], ['a'], "a!c".toList, "a/y".toList]
        earlyMarkers.world.store.objects
        ((earlyMarkers.withMaterialize true).performAll
          (questions.map .path)).2.world.store.objects := by
  have hm : earlyMarkers.fs.Mounted earlyMarkers.world.store := ⟨rfl, 'b', by decide, by decide⟩
  have hcalls : ∀ call ∈ questions, earlyMarkers.fs.Asks call := by decide
  obtain ⟨hanswers, -, hmarks⟩ := performAll_asks rfl hm hcalls true
  exact ⟨hm, hcalls, by decide +kernel, hanswers.trans (by decide +kernel), by decide +kernel,
    hmarks⟩

end Session

end KeyTree
