import KeyTree.FileSystem.Create
import KeyTree.Proofs.FileSystem.Writes

/-!
# Creating a directory

A directory is created from the deepest directory above it downwards. On the way up every path is
looked at, so that a file in the way is found before anything is written; on the way down the
markers are written one after another, each below a directory. What is written when nothing is
refused is decided by the deepest directory on the chain of the path.

## Main definitions

* `Objects.Gains` — contents to which empty objects have been added.
* `Objects.IsDeepest` — the deepest directory on the chain of a key.
* `FileSystem.Makes` — the ways in which the creation of a directory can go.
* `FileSystem.Founds` — requests that write the marker of a directory below another one.
* `FileSystem.Creates` — what the creation of a directory does if nothing is refused.

## Main results

* `FileSystem.returns_mkdirs` — the creation of a directory goes in one of these ways.
* `FileSystem.mkdirs_founds` — whatever is refused, markers are written from the top, and "yes" is
  reliable.
* `FileSystem.mkdirs_creates` — what is written if nothing is refused.
-/

namespace KeyTree

open Key StoreM

/-! ### Contents that gain empty objects -/

namespace Objects

variable {suffix : List Char} {objects objects' : Objects} {key parent top k : Key}
  {gained gained' : Key → Prop}

/-- Contents *gain* some keys when these were not stored, hold empty objects then, and nothing else
changes. -/
structure Gains (gained : Key → Prop) (objects objects' : Objects) : Prop where
  added : ∀ k, gained k → k ∉ objects ∧ objects'.body? k = some []
  same : ∀ k, ¬ gained k → objects'[k]? = objects[k]?

theorem Gains.refl (h : ∀ k, ¬ gained k) : Gains gained objects objects :=
  ⟨fun k hk => absurd hk (h k), fun _ _ => rfl⟩

/-- An empty object is stored under another key. -/
theorem Gains.put {store : Store} (h : Gains gained objects store.objects) (hk : k ∉ objects)
    (hgained : ∀ k', gained' k' ↔ gained k' ∨ k' = k) :
    Gains gained' objects (store.put k []).objects := by
  constructor
  · intro k' hk'
    by_cases heq : k' = k
    · subst heq
      exact ⟨hk, body?_put_self ..⟩
    · obtain ⟨hfree, hbody⟩ := h.added k' (((hgained k').mp hk').resolve_right heq)
      exact ⟨hfree, (body?_put_of_ne store [] heq).trans hbody⟩
  · intro k' hk'
    obtain ⟨hold, hne⟩ := not_or.mp ((hgained k').not.mp hk')
    exact (getElem?_put_of_ne store [] hne).trans (h.same k' hold)

/-- Directories stay directories when something is stored. -/
theorem IsDirectory.put {store : Store} (h : store.objects.IsDirectory suffix key) (k : Key)
    (body : Bytes) : (store.put k body).objects.IsDirectory suffix key :=
  h.mono fun _ => mem_put

/-! ### The deepest directory on a chain -/

/-- The *deepest* directory on the chain of a key: the root or a member of the chain that is a
directory, and no member below it is one. -/
structure IsDeepest (suffix : List Char) (objects : Objects) (key top : Key) : Prop where
  mem : top = [] ∨ top ∈ chain key
  isDirectory : objects.IsDirectory suffix top
  deepest : ∀ m ∈ chain key, childPrefix top <+: m → ¬ objects.IsDirectory suffix m

/-- What is above a directory on a chain is a directory. -/
theorem HasBelow.of_child (h : objects.HasBelow key) (hchild : IsChild parent key) :
    objects.HasBelow parent := by
  obtain ⟨k, hk, hbelow⟩ := h
  exact ⟨k, hk, (hchild.below.trans (prefix_childPrefix key)).trans hbelow⟩

theorem isDeepest_self (hkey : key = [] ∨ IsNormal key)
    (hdir : objects.IsDirectory suffix key) : IsDeepest suffix objects key key := by
  rcases hkey with rfl | hkey
  · exact ⟨Or.inl rfl, hdir, fun m hm => absurd hm List.not_mem_nil⟩
  · exact ⟨Or.inr (mem_chain_iff.mpr ⟨hkey.1, Or.inl rfl⟩), hdir,
      fun m hm hbelow => absurd hbelow (not_below_of_mem_chain hm)⟩

/-- The deepest directory on the chain of a parent is that on the chain of a child that is none. -/
theorem IsDeepest.child (h : IsDeepest suffix objects parent top) (hchild : IsChild parent key)
    (hkey : ¬ objects.IsDirectory suffix key) : IsDeepest suffix objects key top := by
  refine ⟨h.mem.imp_right hchild.mem_chain_of_parent, h.isDirectory, fun m hm hbelow => ?_⟩
  rw [hchild.chain_eq, List.mem_append, List.mem_singleton] at hm
  rcases hm with hm | rfl
  · exact h.deepest m hm hbelow
  · exact hkey

/-- There is a deepest directory on every chain, the root if no other one. -/
theorem exists_isDeepest (suffix : List Char) (objects : Objects) (key : Key)
    (hkey : key = [] ∨ IsNormal key) : ∃ top, IsDeepest suffix objects key top := by
  by_cases hdir : objects.IsDirectory suffix key
  · exact ⟨key, isDeepest_self hkey hdir⟩
  · have hnil : key ≠ [] := fun h => hdir (Or.inl h)
    obtain ⟨parent, hchild⟩ := (hkey.resolve_left hnil).exists_parent
    have hlt := hchild.length_lt
    obtain ⟨top, htop⟩ := exists_isDeepest suffix objects parent hchild.parent_normal
    exact ⟨top, htop.child hchild hdir⟩
termination_by key.length

/-- A key that is no directory lies below the deepest one on its chain. -/
theorem IsDeepest.below (h : IsDeepest suffix objects key top)
    (hkey : ¬ objects.IsDirectory suffix key) : childPrefix top <+: key := by
  rcases h.mem with rfl | hmem
  · exact List.nil_prefix
  · refine (eq_or_childPrefix_of_mem_chain hmem).resolve_left ?_
    rintro rfl
    exact hkey h.isDirectory

end Objects

/-! ### The ways to go -/

namespace FileSystem

/-- What noticing a directory does to a store: the marker of an implicit one is written unless the
configuration says otherwise. -/
def Notices (fs : FileSystem) (key : Key) (store after : Store) : Prop :=
  (store.objects.IsImplicit fs.config.suffix key ∧ fs.config.materialize = true ∧
      after = store.put (marker fs.config.suffix key) []) ∨
    (¬ (store.objects.IsImplicit fs.config.suffix key ∧ fs.config.materialize = true) ∧
      after = store)

/-- How asking whether a key is a directory goes. -/
structure Looks (fs : FileSystem) (plan : Plan) (key : Key) (before : World) (found : Bool)
    (after : World) : Prop where
  run : World.Run plan fs.bucket.name (fs.Marks key) before after
  root : key = [] → found = true
  sound : found = true → before.store.objects.IsDirectory fs.config.suffix key
  complete : plan = .quiet → before.store.objects.IsDirectory fs.config.suffix key → found = true
  notices : plan = .quiet → fs.Notices key before.store after.store

/-- A key that is seen neither as a directory nor as a file. -/
structure Spares (fs : FileSystem) (plan : Plan) (key : Key) (before after : World) : Prop where
  run : World.Run plan fs.bucket.name (fs.Marks key) before after
  free : plan = .quiet → ¬ before.store.objects.IsDirectory fs.config.suffix key ∧
    key ∉ before.store.objects ∧ after.store = before.store

/-- How writing the marker of a key goes. -/
structure Writes (fs : FileSystem) (plan : Plan) (key : Key) (before : World) (done : Bool)
    (after : World) : Prop where
  run : World.Run plan fs.bucket.name
    (fun store request => store = before.store ∧
      request = .put (marker fs.config.suffix key) [] 0) before after
  written : done = true → after.store = before.store.put (marker fs.config.suffix key) []
  unwritten : done = false → after.store = before.store ∧ plan ≠ .quiet

/-- The ways in which the creation of a directory can go. -/
inductive Makes (fs : FileSystem) (plan : Plan) : Key → Bool → World → Bool → World → Prop
  /-- It is there. -/
  | there {key : Key} {createParent : Bool} {before after : World}
      (hlooks : fs.Looks plan key before true after) :
      Makes fs plan key createParent before true after
  /-- It is a file. -/
  | taken {key : Key} {createParent : Bool} {before looked after : World}
      (hlooks : fs.Looks plan key before false looked) (hfile : key ∈ looked.store.objects)
      (hrun : World.Run plan fs.bucket.name (fun _ _ => False) looked after) :
      Makes fs plan key createParent before false after
  /-- Its parent is a directory. -/
  | marked {key parent : Key} {createParent done : Bool} {before looked asked after : World}
      (hspares : fs.Spares plan key before looked) (hchild : IsChild parent key)
      (hparent : fs.Looks plan parent looked true asked)
      (hwrites : fs.Writes plan key asked done after) :
      Makes fs plan key createParent before done after
  /-- Its parent is missing and not to be created. -/
  | orphan {key parent : Key} {before looked asked after : World}
      (hspares : fs.Spares plan key before looked) (hchild : IsChild parent key)
      (hparent : fs.Looks plan parent looked false asked)
      (hrun : World.Run plan fs.bucket.name (fun _ _ => False) asked after) :
      Makes fs plan key false before false after
  /-- Its parent is created. -/
  | climbs {key parent : Key} {done : Bool} {before looked asked between after : World}
      (hspares : fs.Spares plan key before looked) (hchild : IsChild parent key)
      (hparent : fs.Looks plan parent looked false asked)
      (habove : Makes fs plan parent true asked true between)
      (hwrites : fs.Writes plan key between done after) :
      Makes fs plan key true before done after
  /-- Its parent cannot be created. -/
  | stops {key parent : Key} {before looked asked after : World}
      (hspares : fs.Spares plan key before looked) (hchild : IsChild parent key)
      (hparent : fs.Looks plan parent looked false asked)
      (habove : Makes fs plan parent true asked false after) :
      Makes fs plan key true before false after

variable {fs : FileSystem} {plan : Plan} {key parent : Key} {createParent found done : Bool}
  {world before looked asked between after : World}

/-! ### Markers from the top -/

/-- A request *founds* a key when it writes the marker of a member of its chain whose parent is a
directory. -/
def Founds (fs : FileSystem) (key : Key) (store : Store) (request : Request) : Prop :=
  ∃ m ∈ chain key, request = .put (marker fs.config.suffix m) [] 0 ∧
    ∃ parent, parent? m = some parent ∧ store.objects.IsDirectory fs.config.suffix parent

theorem Founds.of_parent {store : Store} {request : Request} (h : fs.Founds parent store request)
    (hchild : IsChild parent key) : fs.Founds key store request := by
  obtain ⟨m, hm, hrest⟩ := h
  exact ⟨m, hchild.mem_chain_of_parent hm, hrest⟩

/-- What is above a directory with keys below it has keys below it. -/
theorem Marks.founds {store : Store} {request : Request} (h : fs.Marks key store request)
    (hkey : key = [] ∨ IsNormal key) : fs.Founds key store request := by
  obtain ⟨hnil, rfl, hbelow⟩ := h
  obtain ⟨parent, hchild⟩ := (hkey.resolve_left hnil).exists_parent
  exact ⟨key, hchild.mem_chain, rfl, parent, hchild.parent?_eq,
    (hbelow.of_child hchild).isDirectory⟩

/-- Writing the marker below a directory founds it. -/
theorem Writes.founds (h : fs.Writes plan key before done after) (hchild : IsChild parent key)
    (hparent : before.store.objects.IsDirectory fs.config.suffix parent) :
    World.Run plan fs.bucket.name (fs.Founds key) before after := by
  refine h.run.mono ?_
  rintro store request ⟨rfl, rfl⟩
  exact ⟨key, hchild.mem_chain, rfl, parent, hchild.parent?_eq, hparent⟩

/-- A request that founds a key removes nothing. -/
theorem Founds.mem {store : Store} {request : Request} (h : fs.Founds key store request) {k : Key}
    (hk : k ∈ store.objects) : k ∈ (store.perform request).2.objects := by
  obtain ⟨m, -, rfl, -⟩ := h
  exact Objects.mem_put hk

/-- A directory stays one while markers are written. -/
theorem isDirectory_of_run {k : Key}
    (h : World.Run plan fs.bucket.name (fs.Founds key) before after)
    (hdir : before.store.objects.IsDirectory fs.config.suffix k) :
    after.store.objects.IsDirectory fs.config.suffix k := by
  refine h.invariant (fun store => store.objects.IsDirectory fs.config.suffix k) ?_ hdir
  rintro store request ⟨m, -, rfl, -⟩ hstore
  exact hstore.put _ _

/-- After the marker of a key has been written the key is a directory. -/
theorem Writes.isDirectory (h : fs.Writes plan key before true after) :
    after.store.objects.IsDirectory fs.config.suffix key := by
  rw [h.written rfl]
  exact Or.inr (Or.inl (Objects.mem_put_self ..))

/-- Whichever way the creation of a directory goes, markers are written from the top, and it is
there if the answer is "yes". -/
theorem Makes.founds (h : fs.Makes plan key createParent before done after)
    (hkey : key = [] ∨ IsNormal key) :
    World.Run plan fs.bucket.name (fs.Founds key) before after ∧
      (done = true → after.store.objects.IsDirectory fs.config.suffix key) := by
  have hlook : ∀ {key : Key} {before after : World}, (key = [] ∨ IsNormal key) →
      World.Run plan fs.bucket.name (fs.Marks key) before after →
      World.Run plan fs.bucket.name (fs.Founds key) before after :=
    fun hkey hrun => hrun.mono fun _ _ h => h.founds hkey
  have hnone : ∀ {key : Key} {before after : World},
      World.Run plan fs.bucket.name (fun _ _ => False) before after →
      World.Run plan fs.bucket.name (fs.Founds key) before after :=
    fun hrun => hrun.mono fun _ _ => False.elim
  -- the questions about a key and then about its parent
  have hask : ∀ {key parent : Key} {found : Bool} {before looked asked : World},
      fs.Spares plan key before looked → IsChild parent key →
      fs.Looks plan parent looked found asked →
      World.Run plan fs.bucket.name (fs.Founds key) before asked := by
    intro key parent found before looked asked hspares hchild hparent
    refine (hlook (Or.inr hchild.isNormal) hspares.run).trans ?_
    exact (hlook hchild.parent_normal hparent.run).mono fun _ _ h => h.of_parent hchild
  induction h with
  | there hlooks =>
    have hrun := hlook hkey hlooks.run
    exact ⟨hrun, fun _ => isDirectory_of_run hrun (hlooks.sound rfl)⟩
  | taken hlooks _ hrun => exact ⟨(hlook hkey hlooks.run).trans (hnone hrun), nofun⟩
  | marked hspares hchild hparent hwrites =>
    have hdir := isDirectory_of_run (hlook hchild.parent_normal hparent.run) (hparent.sound rfl)
    refine ⟨(hask hspares hchild hparent).trans (hwrites.founds hchild hdir), ?_⟩
    rintro rfl
    exact hwrites.isDirectory
  | orphan hspares hchild hparent hrun =>
    exact ⟨(hask hspares hchild hparent).trans (hnone hrun), nofun⟩
  | climbs hspares hchild hparent _ hwrites ih =>
    obtain ⟨habove, hdir⟩ := ih hchild.parent_normal
    refine ⟨(hask hspares hchild hparent).trans ((habove.mono fun _ _ h => h.of_parent hchild).trans
      (hwrites.founds hchild (hdir rfl))), ?_⟩
    rintro rfl
    exact hwrites.isDirectory
  | stops hspares hchild hparent _ ih =>
    refine ⟨(hask hspares hchild hparent).trans ?_, nofun⟩
    exact (ih hchild.parent_normal).1.mono fun _ _ h => h.of_parent hchild

/-- If nothing is refused, the marker is written. -/
theorem Writes.done_of_quiet (h : fs.Writes .quiet key before done after) : done = true := by
  cases done with
  | true => rfl
  | false => exact absurd rfl (h.unwritten rfl).2

/-! ### The creation of a directory, request by request -/

/-- If nothing is refused, asking about a directory notices it. -/
theorem Answers.notices {earlier : List Request} {store : Store}
    (h : fs.Answers .quiet earlier store key found after) (hkey : key ≠ []) :
    fs.Notices key store after.store := by
  obtain ⟨kind, later, hsees, -, hstore⟩ := h
  have himplicit : kind = .implicitDirectory ↔
      store.objects.IsImplicit fs.config.suffix key := by
    constructor
    · rintro rfl
      have hmarker := hsees.notMem_marker (by decide)
      cases hsees with
      | implicitDirectory _ hbelow => exact ⟨hkey, hmarker, hbelow.2⟩
    · rintro ⟨-, hmarker, hbelow⟩
      cases hsees with
      | directory h => exact absurd h.2 hmarker
      | implicitDirectory => rfl
      | missing _ h => exact absurd (Plan.findsBelow_quiet_iff.mpr hbelow) h
  rcases hstore with ⟨⟨hkind, hmaterialize, -⟩, hstore⟩ | ⟨hnot, hstore, -⟩
  · exact Or.inl ⟨himplicit.mp hkind, hmaterialize, hstore⟩
  · refine Or.inr ⟨fun h => hnot ⟨himplicit.mpr h.1, h.2, ?_⟩, hstore⟩
    simp [Request.hasKey, Request.target, fs.marker_ne_nil]

variable {path : Path} (hr : plan.Refuses) (hm : fs.Mounted world.store)
  (hpath : normalize? fs.root path = some key)

include hr hm hpath in
theorem returns_isDirectory_looks :
    (fs.isDirectory path).Returns plan world (fs.Looks plan key world) := by
  by_cases hkey : key = []
  · refine (returns_isDirectory_root hpath hkey).mono ?_
    rintro found after ⟨rfl, rfl⟩
    exact ⟨.refl _, fun _ => rfl, fun _ => Or.inl hkey, fun _ _ => rfl,
      fun _ => Or.inr ⟨fun h => h.1.1 hkey, rfl⟩⟩
  · refine ((returns_isDirectory_exact hr hm hpath hkey).with_run
      (confined_isDirectory hr hm hpath)).mono ?_
    rintro found after ⟨⟨hanswers, -⟩, hrun⟩
    obtain ⟨hsound, hcomplete, -⟩ := hanswers.says hkey
    refine ⟨hrun, fun h => absurd h hkey, hsound, hcomplete, ?_⟩
    rintro rfl
    exact hanswers.notices hkey

include hr hm hpath in
theorem returns_ensureMarker_writes (hkey : key ≠ []) :
    (fs.ensureMarker path).Returns plan world (fs.Writes plan key world) := by
  have hconfined : (fs.ensureMarker path).Confined plan fs.bucket.name
      (fun store request => store = world.store ∧
        request = .put (marker fs.config.suffix key) [] 0) world :=
    confined_ensureMarker hm hpath fun _ => ⟨rfl, rfl⟩
  refine ((returns_ensureMarker hr hm hpath hkey).with_run hconfined).mono ?_
  rintro done after ⟨⟨-, ⟨rfl, -, hstore⟩ | ⟨rfl, hpass, hstore⟩⟩, hrun⟩
  · exact ⟨hrun, fun _ => hstore, nofun⟩
  · refine ⟨hrun, nofun, fun _ => ⟨hstore, ?_⟩⟩
    rintro rfl
    exact hpass (by simp [Request.hasKey, Request.target, fs.marker_ne_nil])

/-- If nothing is refused, what is seen as no directory is none, and nothing is written. -/
theorem Looks.of_quiet_false (h : fs.Looks .quiet key before false after) :
    ¬ before.store.objects.IsDirectory fs.config.suffix key ∧ after.store = before.store := by
  have hdir : ¬ before.store.objects.IsDirectory fs.config.suffix key := fun hdir =>
    Bool.false_ne_true (h.complete rfl hdir)
  rcases h.notices rfl with ⟨himplicit, -⟩ | ⟨-, hstore⟩
  · exact absurd himplicit.2.2.isDirectory hdir
  · exact ⟨hdir, hstore⟩

/-- A key that is seen neither as a directory nor as a file, after the two questions. -/
theorem Looks.spares {plan : Plan} (h : fs.Looks plan key before false looked) (hkey : key ≠ [])
    (hrun : World.Run plan fs.bucket.name (fun _ _ => False) looked after)
    (hfile : ¬ plan.Finds looked.requests looked.store.objects key) :
    fs.Spares plan key before after := by
  refine ⟨h.run.trans (hrun.mono fun _ _ => False.elim), ?_⟩
  rintro rfl
  obtain ⟨hdir, hstore⟩ := h.of_quiet_false
  rw [Plan.finds_quiet_iff hkey, hstore] at hfile
  exact ⟨hdir, hfile, hrun.store_eq.trans hstore⟩

/-- Creates a directory after its parent. -/
def mkdirsAfter (fs : FileSystem) (path : Path) : List Key → StoreM Bool
  | [] => return false
  | parent :: above => do
    if ← fs.mkdirsBelow above parent true then fs.ensureMarker path else return false

theorem mkdirsBelow_eq (above : List Key) (path : Path) (createParent : Bool) :
    fs.mkdirsBelow above path createParent = (do
      if ← fs.isDirectory path then return true
      if ← fs.isFile path then return ← refuse (.fileInTheWay path)
      if ← fs.parentExists path then return ← fs.ensureMarker path
      if !createParent then return ← refuse (.parentMissing path)
      fs.mkdirsAfter path above) := by
  cases above <;> rfl

theorem ancestryWithin_succ (hpath : normalize? fs.root path = some key)
    (hparent : parent? key = some parent) (count : Nat) :
    fs.ancestryWithin (count + 1) path = parent :: fs.ancestryWithin count parent := by
  rw [ancestryWithin, parentOf?, hpath, Option.bind_some, hparent]

/-- A refusal answers "no", and no writing request is sent for that. -/
theorem returns_refuse_run (fs : FileSystem) (refusal : Refusal) :
    (refuse refusal).Returns plan world fun done after =>
      done = false ∧ World.Run plan fs.bucket.name (fun _ _ => False) world after :=
  ((returns_refuse refusal).with_run (confined_refuse refusal)).mono fun _ _ h => ⟨h.1.1, h.2⟩

include hr in
/-- The creation of a directory goes in one of the ways listed, if as many directories above it are
at hand as its key has characters. -/
theorem returns_mkdirsBelow : ∀ (count : Nat) {path : Path} {key : Key} {createParent : Bool}
    {world : World}, fs.Mounted world.store → normalize? fs.root path = some key →
    key.length < count →
    (fs.mkdirsBelow (fs.ancestryWithin count path) path createParent).Returns plan world
      fun done after => fs.Makes plan key createParent world done after := by
  intro count
  induction count with
  | zero => exact fun _ _ hlength => absurd hlength (Nat.not_lt_zero _)
  | succ count ih =>
    intro path key createParent world hm hpath hlength
    rw [mkdirsBelow_eq]
    refine (returns_isDirectory_looks hr hm hpath).bind fun found looked hlooks => ?_
    cases found with
    | true => exact returns_pure_iff.mpr (.there hlooks)
    | false =>
      have hkey : key ≠ [] := fun h => Bool.false_ne_true (hlooks.root h)
      have hmLooked := hm.of_run hlooks.run
      rw [if_neg (by simp)]
      have hconfined : (fs.isFile path).Confined plan fs.bucket.name (fun _ _ => False) looked :=
        confined_isFile path
      refine ((returns_isFile hr hmLooked hpath hkey).with_run hconfined).bind ?_
      rintro isFile seen ⟨⟨hseen, -, hfile⟩, hrun⟩
      cases isFile with
      | true =>
        refine (returns_refuse_run fs _).mono ?_
        rintro done after ⟨rfl, hrun'⟩
        exact .taken hlooks (hfile.mp rfl).2 (hrun.trans hrun')
      | false =>
        have hspares := hlooks.spares hkey hrun fun h => Bool.false_ne_true (hfile.mpr h)
        obtain ⟨parent, hchild⟩ := ((isNormal_of_normalize? hpath).resolve_left hkey).exists_parent
        have hparentPath := hm.normalize?_parent hpath hchild.parent?_eq
        rw [if_neg (by simp), parentExists_eq hpath hchild.parent?_eq]
        refine (returns_isDirectory_looks hr (hmLooked.of_run hrun) hparentPath).bind
          fun found asked hparent => ?_
        have hmAsked := (hmLooked.of_run hrun).of_run hparent.run
        cases found with
        | true =>
          exact (returns_ensureMarker_writes hr hmAsked hpath hkey).mono
            fun done after hwrites => .marked hspares hchild hparent hwrites
        | false =>
          rw [if_neg (by simp)]
          cases createParent with
          | false =>
            refine (returns_refuse_run fs _).mono ?_
            rintro done after ⟨rfl, hrun'⟩
            exact .orphan hspares hchild hparent hrun'
          | true =>
            have hlt := hchild.length_lt
            rw [if_neg (by simp), ancestryWithin_succ hpath hchild.parent?_eq, mkdirsAfter]
            refine (ih hmAsked hparentPath (by omega)).bind fun made between habove => ?_
            cases made with
            | true =>
              have hmBetween := hmAsked.of_run (habove.founds hchild.parent_normal).1
              exact (returns_ensureMarker_writes hr hmBetween hpath hkey).mono
                fun done after hwrites => .climbs hspares hchild hparent habove hwrites
            | false => exact returns_pure_iff.mpr (.stops hspares hchild hparent habove)

include hr hm hpath in
/-- The creation of a directory goes in one of the ways listed. -/
theorem returns_mkdirs (createParent : Bool) :
    (fs.mkdirs (some path) createParent).Returns plan world fun done after =>
      fs.Makes plan key createParent world done after :=
  returns_mkdirsBelow hr _ hm hpath (Nat.lt_succ_of_le (length_le_of_normalize? hpath))

include hr hm hpath in
theorem confined_mkdirs (createParent : Bool) :
    (fs.mkdirs (some path) createParent).Confined plan fs.bucket.name (fs.Founds key) world :=
  (returns_mkdirs hr hm hpath createParent).confined
    fun _ _ h => (h.founds (isNormal_of_normalize? hpath)).1

include hr hm hpath in
/-- Whatever is refused, every marker that is written is that of a member of the chain whose parent
is a directory at that time; nothing is removed and nothing else is changed, and after a "yes" the
path is a directory. -/
theorem mkdirs_founds (createParent : Bool) :
    (fs.mkdirs (some path) createParent).Returns plan world fun done after =>
      World.Run plan fs.bucket.name (fs.Founds key) world after ∧
      (∀ k ∈ world.store.objects, k ∈ after.store.objects) ∧
      (∀ k, (∀ m ∈ chain key, k ≠ marker fs.config.suffix m) →
        after.store.objects[k]? = world.store.objects[k]?) ∧
      (done = true → after.store.objects.IsDirectory fs.config.suffix key) := by
  refine (returns_mkdirs hr hm hpath createParent).mono fun done after h => ?_
  obtain ⟨hrun, hdir⟩ := h.founds (isNormal_of_normalize? hpath)
  refine ⟨hrun, fun k hk => ?_, fun k hk => hrun.getElem?_eq ?_, hdir⟩
  · exact hrun.invariant (fun store => k ∈ store.objects) (fun _ _ h hstore => h.mem hstore) hk
  · rintro store request ⟨m, hm, rfl, -⟩
    exact hk m hm

/-- A directory with a marker. -/
def markedDirectory : World :=
  { store := .holding ['b'] [("d_$folder$".toList, [])] }

/-- The marker of `d` is never seen. -/
def markerUnseen : Plan :=
  Script.plan [{ method := some .head, key := some "d_$folder$".toList,
                 effect := .fail (.store (.refused (some "503") none)) false }]

/-- A directory whose marker is not seen gets another one before a directory in it is created. -/
theorem mkdirs_founds_markerUnseen :
    (plainBucket.mkdirs (some "d/e".toList) true).Returns markerUnseen markedDirectory
      fun done after => done = true ∧
        after.requests.filter Request.writes =
          [.put "d/e_$folder$".toList [] 0, .put "d_$folder$".toList [] 0] ∧
        World.Run markerUnseen plainBucket.bucket.name (plainBucket.Founds "d/e".toList)
          markedDirectory after ∧
        after.store.objects.IsDirectory plainBucket.config.suffix "d/e".toList := by
  have hr : markerUnseen.Refuses := Script.refuses_plan_singleton rfl
  have hm : plainBucket.Mounted markedDirectory.store := ⟨rfl, 'b', by decide, by decide⟩
  have hpath : normalize? plainBucket.root "d/e".toList = some "d/e".toList := by decide +kernel
  have hdone : ((plainBucket.mkdirs (some "d/e".toList) true).exec markerUnseen
      markedDirectory).1 = .ok true := by
    decide +kernel
  have hsent : ((plainBucket.mkdirs (some "d/e".toList) true).exec markerUnseen
      markedDirectory).2.requests.filter Request.writes =
      [.put "d/e_$folder$".toList [] 0, .put "d_$folder$".toList [] 0] := by
    decide +kernel
  obtain ⟨done, after, hrun, hfounds, -, -, hdir⟩ := mkdirs_founds hr hm hpath true
  rw [hrun] at hdone hsent
  obtain rfl := Except.ok.inj hdone
  exact ⟨true, after, hrun, rfl, hsent, hfounds, hdir rfl⟩

/-! ### What is written if nothing is refused -/

/-- The markers that a chain lacks: those of its members below a directory, and that of the
directory if it is implicit and to be noticed. -/
def Lacks (fs : FileSystem) (key top : Key) (objects : Objects) (k : Key) : Prop :=
  (∃ m ∈ chain key, childPrefix top <+: m ∧ k = marker fs.config.suffix m) ∨
    (objects.IsImplicit fs.config.suffix top ∧ fs.config.materialize = true ∧
      k = marker fs.config.suffix top)

/-- What the creation of a directory does if nothing is refused, below the deepest directory on its
chain: all markers that the chain lacks are written, unless a file is in the way or the parent is
missing and not to be created. -/
structure Creates (fs : FileSystem) (key top : Key) (createParent : Bool) (before : Store)
    (done : Bool) (after : Store) : Prop where
  refused_iff : done = false ↔
    (∃ m ∈ chain key, childPrefix top <+: m ∧ m ∈ before.objects) ∨
      (createParent = false ∧ top ≠ key ∧ parent? key ≠ some top)
  unchanged : done = false → after = before
  gains : done = true →
    Objects.Gains (fs.Lacks key top before.objects) before.objects after.objects

variable {top : Key} {store later : Store}

/-- A directory that is there is the deepest one, and it is noticed. -/
theorem Looks.creates (h : fs.Looks .quiet key before true after)
    (hkey : key = [] ∨ IsNormal key) (createParent : Bool) :
    before.store.objects.IsDeepest fs.config.suffix key key ∧
      fs.Creates key key createParent before.store true after.store := by
  refine ⟨Objects.isDeepest_self hkey (h.sound rfl), ?_, nofun, fun _ => ?_⟩
  · refine iff_of_false (by simp) ?_
    rintro (⟨m, hm, hbelow, -⟩ | ⟨-, hne, -⟩)
    · exact not_below_of_mem_chain hm hbelow
    · exact hne rfl
  · have hlacks : ∀ k, fs.Lacks key key before.store.objects k ↔
        before.store.objects.IsImplicit fs.config.suffix key ∧ fs.config.materialize = true ∧
          k = marker fs.config.suffix key := by
      refine fun k => or_iff_right ?_
      rintro ⟨m, hm, hbelow, -⟩
      exact not_below_of_mem_chain hm hbelow
    rcases h.notices rfl with ⟨himplicit, hmaterialize, hstore⟩ | ⟨hnot, hstore⟩
    · rw [hstore]
      have hnone : Objects.Gains (fun _ => False) before.store.objects before.store.objects :=
        .refl fun _ => id
      refine hnone.put himplicit.2.1 fun k => ?_
      rw [hlacks k, false_or]
      simp [himplicit, hmaterialize]
    · rw [hstore]
      exact .refl fun k hk => hnot ⟨((hlacks k).mp hk).1, ((hlacks k).mp hk).2.1⟩

/-- A marker is written below what has been created. -/
theorem Creates.child (h : fs.Creates parent top true store true later)
    (hchild : IsChild parent key)
    (htop : store.objects.IsDeepest fs.config.suffix parent top)
    (hdir : ¬ store.objects.IsDirectory fs.config.suffix key) (hfile : key ∉ store.objects)
    (hparent : createParent = false → top = parent) :
    fs.Creates key top createParent store true
      (later.put (marker fs.config.suffix key) []) := by
  have hbelow : childPrefix top <+: key := (htop.child hchild hdir).below hdir
  refine ⟨iff_of_false (by simp) ?_, nofun, fun _ => ?_⟩
  · rintro (⟨m, hm, htopm, hstored⟩ | ⟨hnot, -, hne⟩)
    · rw [hchild.chain_eq, List.mem_append, List.mem_singleton] at hm
      rcases hm with hm | rfl
      · exact absurd (h.refused_iff.mpr (Or.inl ⟨m, hm, htopm, hstored⟩)) (by simp)
      · exact hfile hstored
    · rw [hparent hnot] at hne
      exact hne hchild.parent?_eq
  · refine (h.gains rfl).put (fun hmem => hdir (Or.inr (Or.inl hmem))) fun k => ?_
    simp only [Lacks, hchild.chain_eq, List.mem_append, List.mem_singleton, or_and_right, exists_or,
      exists_eq_left, hbelow, true_and]
    exact or_right_comm

/-- If nothing is refused, the creation of a directory does what the deepest directory on its chain
says. -/
theorem Makes.creates (h : fs.Makes .quiet key createParent before done after)
    (hkey : key = [] ∨ IsNormal key) :
    ∃ top, before.store.objects.IsDeepest fs.config.suffix key top ∧
      fs.Creates key top createParent before.store done after.store := by
  induction h with
  | there hlooks =>
    exact ⟨_, hlooks.creates hkey _⟩
  | @taken key createParent before looked after hlooks hfile hrun =>
    obtain ⟨hdir, hstore⟩ := hlooks.of_quiet_false
    obtain ⟨top, htop⟩ := before.store.objects.exists_isDeepest fs.config.suffix key hkey
    have hkey' : key ≠ [] := fun h => hdir (Or.inl h)
    refine ⟨top, htop, iff_of_true rfl (Or.inl ⟨key, ?_, htop.below hdir, hstore ▸ hfile⟩),
      fun _ => hrun.store_eq.trans hstore, nofun⟩
    exact mem_chain_iff.mpr ⟨hkey', Or.inl rfl⟩
  | marked hspares hchild hparent hwrites =>
    obtain ⟨hdir, hfile, hstore⟩ := hspares.free rfl
    have habove := hparent.creates hchild.parent_normal true
    rw [hstore] at habove
    obtain rfl := hwrites.done_of_quiet
    rw [hwrites.written rfl]
    exact ⟨_, habove.1.child hchild hdir,
      habove.2.child hchild habove.1 hdir hfile fun _ => rfl⟩
  | @orphan key parent before looked asked after hspares hchild hparent hrun =>
    obtain ⟨hdir, -, hstore⟩ := hspares.free rfl
    obtain ⟨hparentDir, hasked⟩ := hparent.of_quiet_false
    rw [hstore] at hparentDir hasked
    obtain ⟨top, htop⟩ :=
      before.store.objects.exists_isDeepest fs.config.suffix parent hchild.parent_normal
    refine ⟨top, htop.child hchild hdir, iff_of_true rfl (Or.inr ⟨rfl, ?_, ?_⟩),
      fun _ => hrun.store_eq.trans hasked, nofun⟩
    · rintro rfl
      exact hdir htop.isDirectory
    · rw [hchild.parent?_eq]
      rintro heq
      obtain rfl := Option.some.inj heq
      exact hparentDir htop.isDirectory
  | climbs hspares hchild hparent _ hwrites ih =>
    obtain ⟨hdir, hfile, hstore⟩ := hspares.free rfl
    obtain ⟨top, htop, habove⟩ := ih hchild.parent_normal
    rw [hparent.of_quiet_false.2, hstore] at htop habove
    obtain rfl := hwrites.done_of_quiet
    rw [hwrites.written rfl]
    exact ⟨top, htop.child hchild hdir, habove.child hchild htop hdir hfile nofun⟩
  | stops hspares hchild hparent _ ih =>
    obtain ⟨hdir, -, hstore⟩ := hspares.free rfl
    obtain ⟨top, htop, habove⟩ := ih hchild.parent_normal
    rw [hparent.of_quiet_false.2, hstore] at htop habove
    refine ⟨top, htop.child hchild hdir, iff_of_true rfl (Or.inl ?_), habove.unchanged, nofun⟩
    obtain ⟨m, hm, hrest⟩ := (habove.refused_iff.mp rfl).resolve_right fun h => by simp at h
    exact ⟨m, hchild.mem_chain_of_parent hm, hrest⟩

/-- A directory that has been created needs no marker. -/
theorem Makes.settled (h : fs.Makes .quiet key createParent before true after) :
    ¬ (after.store.objects.IsImplicit fs.config.suffix key ∧ fs.config.materialize = true) := by
  have hwritten : ∀ {between : World}, fs.Writes .quiet key between true after →
      ¬ (after.store.objects.IsImplicit fs.config.suffix key ∧ fs.config.materialize = true) := by
    rintro between hwrites ⟨himplicit, -⟩
    rw [hwrites.written rfl] at himplicit
    exact himplicit.2.1 (Objects.mem_put_self ..)
  cases h with
  | there hlooks =>
    rcases hlooks.notices rfl with ⟨-, -, hstore⟩ | ⟨hnot, hstore⟩
    · rw [hstore]
      exact fun himplicit => himplicit.1.2.1 (Objects.mem_put_self ..)
    · rwa [hstore]
  | marked _ _ _ hwrites => exact hwritten hwrites
  | climbs _ _ _ _ hwrites => exact hwritten hwrites

/-- Creating a directory that is there and needs no marker writes nothing. -/
theorem Makes.again (h : fs.Makes .quiet key createParent before done after)
    (hdir : before.store.objects.IsDirectory fs.config.suffix key)
    (hsettled : ¬ (before.store.objects.IsImplicit fs.config.suffix key ∧
      fs.config.materialize = true)) : done = true ∧ after.store = before.store := by
  cases h with
  | there hlooks =>
    rcases hlooks.notices rfl with ⟨himplicit, hmaterialize, -⟩ | ⟨-, hstore⟩
    · exact absurd ⟨himplicit, hmaterialize⟩ hsettled
    · exact ⟨rfl, hstore⟩
  | taken hlooks => exact absurd hdir hlooks.of_quiet_false.1
  | marked hspares => exact absurd hdir (hspares.free rfl).1
  | orphan hspares => exact absurd hdir (hspares.free rfl).1
  | climbs hspares => exact absurd hdir (hspares.free rfl).1
  | stops hspares => exact absurd hdir (hspares.free rfl).1

omit hr in
include hm hpath in
/-- If nothing is refused, the creation of a directory writes exactly the markers that its chain
lacks below the deepest directory, or nothing if a file is in the way or if the parent is missing
and not to be created. After a "yes" the same call says "yes" again and writes nothing. -/
theorem mkdirs_creates (createParent : Bool) :
    (fs.mkdirs (some path) createParent).Returns .quiet world fun done after =>
      (∃ top, world.store.objects.IsDeepest fs.config.suffix key top ∧
        fs.Creates key top createParent world.store done after.store) ∧
      (done = true → (fs.mkdirs (some path) createParent).Returns .quiet after
        fun again final => again = true ∧ final.store = after.store) := by
  have hkey := isNormal_of_normalize? hpath
  refine (returns_mkdirs Plan.refuses_quiet hm hpath createParent).mono fun done after h => ?_
  obtain ⟨hrun, hdir⟩ := h.founds hkey
  refine ⟨h.creates hkey, ?_⟩
  rintro rfl
  exact (returns_mkdirs Plan.refuses_quiet (hm.of_run hrun) hpath createParent).mono
    fun again final hagain => hagain.again (hdir rfl) h.settled

/-- A directory without a marker, with a file in it. -/
def unmarkedDirectory : World :=
  { store := .holding ['b'] [("a/x".toList, [1])] }

theorem mounted_unmarkedDirectory : plainBucket.Mounted unmarkedDirectory.store :=
  ⟨rfl, 'b', by decide, by decide⟩

/-- Two levels are created below a directory that has no marker, and it gets its marker too. -/
theorem mkdirs_creates_unmarkedDirectory :
    (plainBucket.mkdirs (some "a/b/c".toList) true).Returns .quiet unmarkedDirectory
      fun done after => done = true ∧
        after.store.objects.keys =
          ["a/b/c_$folder$".toList, "a/b_$folder$".toList, "a/x".toList, "a_$folder$".toList] ∧
        ∃ top, unmarkedDirectory.store.objects.IsDeepest plainBucket.config.suffix "a/b/c".toList
            top ∧
          plainBucket.Creates "a/b/c".toList top true unmarkedDirectory.store done after.store := by
  have hpath : normalize? plainBucket.root "a/b/c".toList = some "a/b/c".toList := by
    decide +kernel
  have hdone : ((plainBucket.mkdirs (some "a/b/c".toList) true).exec .quiet
      unmarkedDirectory).1 = .ok true := by
    decide +kernel
  have hkeys : ((plainBucket.mkdirs (some "a/b/c".toList) true).exec .quiet
      unmarkedDirectory).2.store.objects.keys =
      ["a/b/c_$folder$".toList, "a/b_$folder$".toList, "a/x".toList, "a_$folder$".toList] := by
    decide +kernel
  obtain ⟨done, after, hrun, hcreates, -⟩ := mkdirs_creates mounted_unmarkedDirectory hpath true
  rw [hrun] at hdone hkeys
  obtain rfl := Except.ok.inj hdone
  exact ⟨true, after, hrun, rfl, hkeys, hcreates⟩

end FileSystem

end KeyTree
