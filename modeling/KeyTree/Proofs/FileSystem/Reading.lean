import KeyTree.Proofs.FileSystem.Asking
import KeyTree.Session

/-!
# What reads leave behind

A read changes the store at one point only: it may write the marker of a directory that it has asked
about. That is harmless for a directory without a marker. But a marker that is stored and cannot be
looked up counts as missing, the keys below it are found, and then the marker that is written takes
its place: its body is lost, and its time is another one. This is the only way for a read to damage
an object.

## Main definitions

* `PathCall.read?` — the path of a call that reads.
* `FileSystem.AsksDirectory` — after which requests a read asks whether its path is a directory.
* `FileSystem.Reads` — what a read leaves of a store.
* `FileSystem.Preserves` — changes that leave every object as it is.
* `FileSystem.Overwrites` — the failures that cost a marker.

## Main results

* `FileSystem.leaves_read` — what a read does to the store.
* `FileSystem.read_preserves_iff` — a read damages an object exactly by these failures.
-/

namespace KeyTree

open Key StoreM

/-- The path of a call, if it reads. -/
def PathCall.read? : PathCall → Option Path
  | .isDirectory path | .isFile path | .exists? path | .listStatus path _ | .listNames path _
  | .open? path | .metadata path | .fileSize path | .modificationMilliseconds path => some path
  | _ => none

namespace FileSystem

variable {fs : FileSystem} {plan : Plan} {world : World} {path : Path} {key : Key}
  {call : PathCall} {earlier asked : List Request} {store after : Store}

/-! ### Asking -/

/-- The requests after which a read asks whether its path is a directory. Whether a path exists is
asked of its object first. -/
inductive AsksDirectory (plan : Plan) (earlier : List Request) (objects : Objects) (key : Key) :
    PathCall → List Request → Prop
  | isDirectory (path : Path) : AsksDirectory plan earlier objects key (.isDirectory path) earlier
  | listStatus (path : Path) (recursive : Bool) :
      AsksDirectory plan earlier objects key (.listStatus path recursive) earlier
  | listNames (path : Path) (recursive : Bool) :
      AsksDirectory plan earlier objects key (.listNames path recursive) earlier
  | metadata (path : Path) : AsksDirectory plan earlier objects key (.metadata path) earlier
  | fileSize (path : Path) : AsksDirectory plan earlier objects key (.fileSize path) earlier
  | modificationMilliseconds (path : Path) :
      AsksDirectory plan earlier objects key (.modificationMilliseconds path) earlier
  | exists? (path : Path) (hfile : ¬ plan.Finds earlier objects key) :
      AsksDirectory plan earlier objects key (.exists? path) (.head key :: earlier)

/-- A read asks once. -/
theorem AsksDirectory.unique {objects : Objects} {asked' : List Request}
    (h : AsksDirectory plan earlier objects key call asked)
    (h' : AsksDirectory plan earlier objects key call asked') : asked = asked' := by
  cases h <;> cases h' <;> rfl

variable (hplan : plan.OnlyFails) (hm : fs.Mounted world.store)
  (hpath : normalize? fs.root path = some key)

include hplan hm hpath in
theorem leaves_isDirectory :
    (fs.isDirectory path).Leaves plan world fun after =>
      ∃ kind, fs.Looked plan world.requests world.store key kind after :=
  (returns_isDirectory_of_onlyFails hplan hm hpath).leaves fun _ _ ⟨kind, _, h⟩ => ⟨kind, h⟩

include hplan hm hpath in
theorem leaves_listStatus (recursive : Bool) :
    (fs.listStatus path recursive).Leaves plan world fun after =>
      ∃ kind, fs.Looked plan world.requests world.store key kind after :=
  (returns_listStatus_of_onlyFails hplan hm hpath recursive).leaves fun _ _ h => h.1

include hplan hm hpath in
theorem leaves_metadata :
    (fs.metadata path).Leaves plan world fun after =>
      ∃ kind, fs.Looked plan world.requests world.store key kind after := by
  rw [metadata, key_eq hpath, pure_bind]
  refine (leaves_isDirectory hplan hm (hm.normalize?_key hpath)).bind (fun _ => id)
    fun found between hbetween => ?_
  split
  · exact ((confined_markerKey key).bind fun object _ _ _ =>
      confined_lookUp path key object).leaves_same hbetween
  · exact (confined_lookUp path key key).leaves_same hbetween

/-- What a read leaves of a store: what asking leaves, if it asks whether its path is a directory,
and else the store as it was. -/
def Reads (fs : FileSystem) (plan : Plan) (earlier : List Request) (store : Store) (key : Key)
    (call : PathCall) (after : Store) : Prop :=
  (∃ asked kind, AsksDirectory plan earlier store.objects key call asked ∧
      fs.Looked plan asked store key kind after) ∨
    ((∀ asked, ¬ AsksDirectory plan earlier store.objects key call asked) ∧ after = store)

include hplan hm hpath in
theorem leaves_exists? :
    (fs.exists? path).Leaves plan world
      (fs.Reads plan world.requests world.store key (.exists? path)) := by
  refine (returns_exists?_of_onlyFails hplan hm hpath).leaves ?_
  rintro found after (⟨-, hfound, hsame⟩ | ⟨-, hfile, kind, -, hlooked⟩)
  · by_cases hfinds : plan.Finds world.requests world.store.objects key
    · refine Or.inr ⟨?_, hsame⟩
      rintro _ ⟨⟩
      contradiction
    · rw [hsame]
      exact Or.inl ⟨_, _, .exists? path hfinds, .root (hfound.resolve_right hfinds)⟩
  · exact Or.inl ⟨_, kind, .exists? path hfile, hlooked⟩

include hplan hm hpath in
/-- A read asks whether its path is a directory, or it leaves the store alone. -/
theorem leaves_read (hread : call.read? = some path) :
    (Session.performPath fs call).Leaves plan world
      (fs.Reads plan world.requests world.store key call) := by
  have hmetadata := leaves_metadata hplan hm hpath
  cases call <;> cases hread
  case isDirectory =>
    exact ((leaves_isDirectory hplan hm hpath).mono
      fun _ ⟨kind, h⟩ => Or.inl ⟨_, kind, .isDirectory path, h⟩).bind_pure _
  case listStatus recursive =>
    exact ((leaves_listStatus hplan hm hpath recursive).mono
      fun _ ⟨kind, h⟩ => Or.inl ⟨_, kind, .listStatus path recursive, h⟩).bind_pure _
  case listNames recursive =>
    exact (((leaves_listStatus hplan hm hpath recursive).mono
      fun _ ⟨kind, h⟩ => Or.inl ⟨_, kind, .listNames path recursive, h⟩).bind_pure _).bind_pure _
  case metadata =>
    exact (hmetadata.mono fun _ ⟨kind, h⟩ => Or.inl ⟨_, kind, .metadata path, h⟩).bind
      (fun _ => id) fun metadata _ h => leaves_ofExcept (Session.metadataAnswer metadata) h
  case fileSize =>
    exact ((hmetadata.mono
      fun _ ⟨kind, h⟩ => Or.inl ⟨_, kind, .fileSize path, h⟩).bind_pure _).bind_pure _
  case modificationMilliseconds =>
    refine ((hmetadata.mono
      fun _ ⟨kind, h⟩ => Or.inl ⟨_, kind, .modificationMilliseconds path, h⟩).bind
      (fun _ => id) fun metadata _ h => ?_).bind_pure _
    exact leaves_ofExcept metadata.milliseconds h
  case exists? => exact (leaves_exists? hplan hm hpath).bind_pure _
  case isFile => exact ((confined_isFile path).leaves_same (Or.inr ⟨nofun, rfl⟩)).bind_pure _
  case open? => exact ((confined_open? path).leaves_same (Or.inr ⟨nofun, rfl⟩)).bind_pure _

/-! ### What a read costs -/

/-- A change *preserves* the objects when every object that was there is there with its body and its
time, and the only new one is the empty marker of an implicit directory. -/
structure Preserves (fs : FileSystem) (key : Key) (before after : Objects) : Prop where
  kept : ∀ (k : Key) (object : Object), before[k]? = some object → after[k]? = some object
  added : ∀ (k : Key) (object : Object), before[k]? = none → after[k]? = some object →
    object.body = [] ∧ k = marker fs.config.suffix key ∧ before.IsImplicit fs.config.suffix key

theorem Preserves.refl (objects : Objects) : fs.Preserves key objects objects :=
  ⟨fun _ _ h => h, fun _ _ hnone hsome => by rw [hnone] at hsome; cases hsome⟩

/-- The failures that cost a marker: it is not seen and keys below the directory are, so that the
marker is written although one is stored, and not the same one. -/
inductive Overwrites (fs : FileSystem) (plan : Plan) (earlier : List Request) (store : Store)
    (key : Key) (call : PathCall) : Prop
  | intro {asked later : List Request} {object : Object}
      (hasks : AsksDirectory plan earlier store.objects key call asked) (hkey : key ≠ [])
      (hsees : fs.Sees plan asked store.objects key .implicitDirectory later)
      (hmaterialize : fs.config.materialize = true)
      (hwritten : plan.CarriesOut later (.put (marker fs.config.suffix key) [] 0))
      (hobject : store.objects[marker fs.config.suffix key]? = some object)
      (hother : object ≠ ⟨[], store.clock + store.tick⟩)

/-- Without failures no marker is overwritten. -/
theorem not_overwrites_quiet : ¬ fs.Overwrites .quiet earlier store key call := by
  rintro ⟨-, -, hsees, -, -, hobject, -⟩
  exact hsees.notMem_marker (by decide) (Objects.mem_of_getElem? hobject)

/-- Writing the marker of a directory preserves the objects unless another one is stored there. -/
theorem preserves_put_marker_iff (hkey : key ≠ []) (hbelow : store.objects.HasBelow key) :
    fs.Preserves key store.objects (store.put (marker fs.config.suffix key) []).objects ↔
      ∀ object, store.objects[marker fs.config.suffix key]? = some object →
        object = ⟨[], store.clock + store.tick⟩ := by
  have hself := Objects.getElem?_put_self store (marker fs.config.suffix key) []
  have hrest : ∀ k, k ≠ marker fs.config.suffix key →
      (store.put (marker fs.config.suffix key) []).objects[k]? = store.objects[k]? :=
    fun k => Objects.getElem?_put_of_ne store []
  constructor
  · intro hkeeps object hobject
    have hkept := hkeeps.kept _ _ hobject
    rw [hself] at hkept
    exact (Option.some.inj hkept).symm
  · refine fun hsame => ⟨fun k object hobject => ?_, fun k object hnone hsome => ?_⟩
    · by_cases hk : k = marker fs.config.suffix key
      · rw [hk] at hobject ⊢
        rw [hself, hsame object hobject]
      · rwa [hrest k hk]
    · by_cases hk : k = marker fs.config.suffix key
      · subst hk
        rw [hself] at hsome
        obtain rfl := Option.some.inj hsome
        exact ⟨rfl, rfl, hkey, Objects.notMem_iff.mpr hnone, hbelow⟩
      · rw [hrest k hk, hnone] at hsome
        cases hsome

/-- Asking preserves the objects unless it overwrites a marker. -/
theorem Looked.preserves_iff {kind : PathKind} (h : fs.Looked plan asked store key kind after)
    (hasks : AsksDirectory plan earlier store.objects key call asked) :
    fs.Preserves key store.objects after.objects ↔
      ¬ fs.Overwrites plan earlier store key call := by
  cases h with
  | root hnil => exact iff_of_true (.refl _) fun ⟨_, hkey, _, _, _, _, _⟩ => hkey hnil
  | same _ hsees hnot =>
    refine iff_of_true (.refl _) ?_
    rintro ⟨hasks', -, hsees', hmaterialize, hwritten, -, -⟩
    obtain rfl := hasks.unique hasks'
    obtain ⟨rfl, rfl⟩ := hsees.unique hsees'
    exact hnot ⟨rfl, hmaterialize, hwritten⟩
  | marked hkey hsees hmaterialize hwritten =>
    rw [preserves_put_marker_iff hkey hsees.hasBelow]
    constructor
    · rintro hsame ⟨-, -, -, -, -, hobject, hother⟩
      exact hother (hsame _ hobject)
    · intro hsafe object hobject
      by_contra hother
      exact hsafe ⟨hasks, hkey, hsees, hmaterialize, hwritten, hobject, hother⟩

include hplan hm hpath in
/-- Whichever requests fail, a read leaves every object but the marker of its path alone. It
preserves that one, too, unless it overwrites a marker that it has not seen. -/
theorem read_preserves_iff (hread : call.read? = some path) :
    (Session.performPath fs call).Leaves plan world fun after =>
      (∀ k, k ≠ marker fs.config.suffix key → after.objects[k]? = world.store.objects[k]?) ∧
      (fs.Preserves key world.store.objects after.objects ↔
        ¬ fs.Overwrites plan world.requests world.store key call) := by
  refine (leaves_read hplan hm hpath hread).mono ?_
  rintro after (⟨asked, kind, hasks, hlooked⟩ | ⟨hnone, rfl⟩)
  · exact ⟨fun k hk => hlooked.settles.getElem?_of_ne hk, hlooked.preserves_iff hasks⟩
  · exact ⟨fun _ _ => rfl, iff_of_true (.refl _) fun ⟨hasks, _, _, _, _, _, _⟩ => hnone _ hasks⟩

/-- A directory with a marker that has a body, and a file in it. -/
def notedDirectory : World :=
  { store := .holding ['b'] [("d_$folder$".toList, [1]), ("d/x".toList, [2])] }

/-- The first look-up of the marker of `d` is refused. -/
def markerRefusedOnce : Plan :=
  Script.plan [{ method := some .head, key := some "d_$folder$".toList, times := some 1,
                 effect := .fail (.store (.refused (some "503") none)) false }]

/-- To ask whether `d` is a directory empties its marker, and the answer is right. -/
theorem isDirectory_empties_marker :
    ∃ after, (Session.performPath plainBucket (.isDirectory ['d'])).exec markerRefusedOnce
        notedDirectory = (.ok (.flag true), after) ∧
      notedDirectory.store.objects.body? "d_$folder$".toList = some [1] ∧
      after.store.objects.body? "d_$folder$".toList = some [] :=
  ⟨_, rfl, by decide +kernel, by decide +kernel⟩

theorem overwrites_markerRefusedOnce :
    plainBucket.Overwrites markerRefusedOnce [] notedDirectory.store ['d']
      (.isDirectory ['d']) := by
  have hplan : markerRefusedOnce.OnlyFails := (Script.refuses_plan_singleton rfl).onlyFails
  have hread : (Session.performPath plainBucket (.isDirectory ['d'])).Leaves markerRefusedOnce
      notedDirectory fun after => _ :=
    read_preserves_iff hplan ⟨rfl, 'b', by decide, by decide⟩ rfl rfl
  by_contra hsafe
  have hkept := (hread.2.mpr hsafe).kept "d_$folder$".toList ⟨[1], 1⟩ (by decide +kernel)
  exact absurd hkept (by decide +kernel)

end FileSystem

end KeyTree
