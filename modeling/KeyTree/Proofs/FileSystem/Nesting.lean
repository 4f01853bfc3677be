import KeyTree.Proofs.FileSystem.Depth
import Mathlib.Data.List.MinMax

/-!
# The nested calls of a rename

A rename of a directory calls itself for each directory among the entries of its source. To follow
these calls, one level of the rename is written with the call for the next level left open, and a
rename that records its calls is made of such levels. Each call is recorded with the calls that it
is nested in. The source of a call has one segment more than that of its caller, and no call is
nested deeper than the keys below the source were to begin with, although the rename writes and
removes keys there.

## Main definitions

* `FileSystem.renameLevel` — one level of a rename of a directory.
* `FileSystem.tracedWithin` — a rename of a directory that records its calls.
* `FileSystem.IsStack` — nested calls, from the inmost to the outmost.
* `Objects.levelsBelow` — how deep the keys below a key are.
* `Comparison.Records` — computations that match and record calls of some kind.

## Main results

* `FileSystem.renameWithin_succ` — a rename of a directory is made of levels.
* `FileSystem.records_tracedWithin` — what a rename records.
* `FileSystem.renameDirectory_nests` — a rename of a directory ends, and how deep its calls are
  nested.
-/

namespace KeyTree

open Key

/-- How many more parts than a key the keys below it have, at most. Parts may be empty. -/
def Objects.levelsBelow (objects : Objects) (key : Key) : Nat :=
  ((objects.keysUnder (childPrefix key)).map fun k =>
    (pieces k).length - (segments key).length).foldr max 0

namespace Key

theorem length_pieces (text : List Char) : (pieces text).length = text.count separator + 1 := by
  induction text with
  | nil => rfl
  | cons c rest ih =>
    by_cases hc : c = separator
    · rw [hc, pieces_separator_cons, List.length_cons, ih, List.count_cons_self]
    · obtain ⟨piece, more, hpieces⟩ := List.exists_cons_of_ne_nil (pieces_ne_nil rest)
      rw [pieces_cons_of_ne hc hpieces, List.count_cons_of_ne hc, ← ih, hpieces]
      rfl

/-- A key below another one has no more separators than the levels below that allow. -/
theorem count_le_of_levelsBelow {objects : Objects} {key k : Key} (hkey : key = [] ∨ IsNormal key)
    (hk : k ∈ objects) (hbelow : childPrefix key <+: k) :
    k.count separator ≤ key.count separator + objects.levelsBelow key := by
  have hmem : (pieces k).length - (segments key).length ∈
      (objects.keysUnder (childPrefix key)).map fun k =>
        (pieces k).length - (segments key).length :=
    List.mem_map_of_mem (Objects.mem_keysUnder_iff.mpr ⟨hk, hbelow⟩)
  have hle : (pieces k).length - (segments key).length ≤ objects.levelsBelow key :=
    List.le_max_of_le' 0 hmem le_rfl
  rw [length_pieces] at hle
  rcases hkey with rfl | hkey
  · have hnone : segments [] = [] := rfl
    rw [hnone, List.length_nil] at hle
    omega
  · rw [segments_of_isNormal hkey, length_pieces] at hle
    omega

end Key

namespace FileSystem

/-! ### Levels -/

section

variable {m : Type → Type} [Monad m] [MonadLiftT StoreM m]

/-- Moves an entry of a directory, a directory by `rename`. -/
def moveEntryBy (fs : FileSystem) (rename : Path → Path → m Bool) (source target : Path)
    (sourceKey targetKey : Key) (child : Status) : m Bool := do
  let childSource := Key.concat sourceKey child.name
  let childTarget := Key.concat targetKey child.name
  let moved ←
    if child.isDirectory then rename childSource childTarget
    else fs.renameFile childSource childTarget
  if moved then return true
  log .error "Failed to rename path, aborting rename".toList
    [("child", .text childSource), ("src", .text source), ("dst", .text target)]
  return false

/-- One level of a rename of a directory: the directories among its entries are moved by
`rename`. -/
def renameLevel (fs : FileSystem) (rename : Path → Path → m Bool) (source target : Path) :
    m Bool := do
  let sourceKey ← fs.key source
  let targetKey ← fs.key target
  if Key.isRoot sourceKey || Key.isRoot targetKey then
    return ← refuse (.rootMoved source target)
  if targetKey = sourceKey ∨ Key.childPrefix sourceKey <+: targetKey then
    return ← refuse (.targetInside source target)
  match ← fs.listStatus source false with
  | none =>
    log .error "Failed to list directory, aborting rename".toList [("src", .text source)]
    return false
  | some children =>
    if ← fs.exists? target then return ← refuse (.targetTaken source target)
    if !(← fs.establishTarget sourceKey targetKey) then return false
    let moved ← children.allM (fs.moveEntryBy rename source target sourceKey targetKey)
    if moved then fs.deleteDirectory sourceKey true else return false

end

variable {fs : FileSystem} {plan : Plan} {world : World} {source target : Path} {S T : Key}

/-- A rename of a directory is made of levels. -/
theorem renameWithin_succ (fs : FileSystem) (depth : Nat) :
    fs.renameWithin (depth + 1) = fs.renameLevel (fs.renameWithin depth) := rfl

/-- Computations that record calls, each with the calls that it is nested in. -/
abbrev Tracing := StateT (List (List Path)) StoreM

/-- A rename of a directory of at most `depth` levels that records the source of each of its calls,
before those of the calls that this is nested in. -/
def tracedWithin (fs : FileSystem) : Nat → List Path → Path → Path → Tracing Bool
  | 0, _, _, _ => throw .endlessTree
  | depth + 1, callers, source, target => do
    modify ((source :: callers) :: ·)
    fs.renameLevel (tracedWithin fs depth (source :: callers)) source target

end FileSystem

/-! ### Recording -/

namespace Comparison

open FileSystem (Tracing)

variable {c : Comparison} {good : List Path → Prop} {α β γ δ : Type}

/-- Two computations match, and the second one *records* only calls of some kind. -/
def Records (c : Comparison) (good : List Path → Prop) (same : α → β → Prop) (x : StoreM α)
    (y : Tracing β) : Prop :=
  ∀ trace, (∀ stack ∈ trace, good stack) →
    c.Matches (fun a recorded => same a recorded.1 ∧ ∀ stack ∈ recorded.2, good stack) x
      (y.run trace)

variable {same : α → β → Prop} {next : γ → δ → Prop}

theorem records_pure {a : α} {b : β} (h : same a b) : c.Records good same (pure a) (pure b) :=
  fun _ htrace => matches_pure ⟨h, htrace⟩

/-- A computation that makes no call records none. -/
theorem records_lift {x : StoreM α} {y : StoreM β} (h : c.Matches same x y) :
    c.Records good same x (liftM y) := by
  intro trace htrace
  have hx : x = x >>= fun a => pure (id a) := (bind_pure x).symm
  rw [hx]
  exact h.bind_pure fun a b hab => ⟨hab, htrace⟩

theorem Records.bind {x : StoreM α} {y : Tracing β} {f : α → StoreM γ} {g : β → Tracing δ}
    (h : c.Records good same x y) (hnext : ∀ a b, same a b → c.Records good next (f a) (g b)) :
    c.Records good next (x >>= f) (y >>= g) :=
  fun trace htrace => (h trace htrace).bind fun a recorded hrecorded =>
    hnext a recorded.1 hrecorded.1 recorded.2 hrecorded.2

/-- After equal results the computations go on alike. -/
theorem Records.bind_eq {x : StoreM α} {y : Tracing α} {f : α → StoreM γ} {g : α → Tracing γ}
    (h : c.Records good Eq x y) (hnext : ∀ a, c.Records good Eq (f a) (g a)) :
    c.Records good Eq (x >>= f) (y >>= g) :=
  h.bind fun a _ hab => hab ▸ hnext a

/-- A call is recorded. -/
theorem Records.call {x : StoreM α} {y : Tracing β} {stack : List Path} (hstack : good stack)
    (h : c.Records good same x y) :
    c.Records good same x (modify (stack :: ·) >>= fun _ => y) :=
  fun trace htrace => h (stack :: trace) fun other hother => by
    rcases List.mem_cons.mp hother with rfl | hother
    · exact hstack
    · exact htrace other hother

/-- A "no" that is recorded as an event. -/
theorem records_recorded (hnotes : c.Notes) (done : Bool) {level : Level} {text : List Char}
    {context : List (String × Datum)} :
    c.Records good Eq
      (if done = true then pure true else do
        log level text context
        pure false : StoreM Bool)
      (if done = true then pure true else do
        liftM (log level text context)
        pure false : Tracing Bool) := by
  cases done with
  | true => exact records_pure rfl
  | false => exact (records_lift (matches_log hnotes)).bind_eq fun _ => records_pure rfl

theorem records_allM {f : α → StoreM Bool} {g : α → Tracing Bool} (l : List α)
    (h : ∀ a ∈ l, c.Records good Eq (f a) (g a)) :
    c.Records good Eq (l.allM f) (l.allM g) := by
  induction l with
  | nil =>
    rw [List.allM, List.allM]
    exact records_pure rfl
  | cons a rest ih =>
    rw [List.allM, List.allM]
    refine (h a List.mem_cons_self).bind_eq fun more => ?_
    cases more with
    | true => exact ih fun b hb => h b (List.mem_cons_of_mem a hb)
    | false => exact records_pure rfl

end Comparison

namespace FileSystem

variable {fs : FileSystem} {plan : Plan} {world : World} {source target : Path} {S T top : Key}
  {levels : Nat}

open Comparison (Records)

theorem lift_pure_bind {α β : Type} (a : α) (f : α → Tracing β) :
    ((liftM (pure a : StoreM α) : Tracing α) >>= f) = f a := rfl

/-! ### Stacks of calls -/

/-- A source *deepens* another one when its key has one segment more. -/
def Deepens (fs : FileSystem) (inner outer : Path) : Prop :=
  ∃ key name, normalize? fs.root outer = some key ∧
    ∃ key', normalize? fs.root inner = some key' ∧ segments key' = segments key ++ [name]

/-- A *stack* is made of the sources of nested calls, from the inmost to the outmost one, which
starts at `start`. Each has one segment more than the next, and at most `bound` are nested in the
outmost one. -/
structure IsStack (fs : FileSystem) (start : Path) (bound : Nat) (stack : List Path) : Prop where
  isChain : stack.IsChain fs.Deepens
  getLast?_eq : stack.getLast? = some start
  length_le : stack.length ≤ bound + 1

theorem isStack_singleton (start : Path) (bound : Nat) : fs.IsStack start bound [start] :=
  ⟨.singleton _, rfl, Nat.le_add_left ..⟩

theorem IsStack.cons {start inner outer : Path} {bound : Nat} {callers : List Path}
    (h : fs.IsStack start bound (outer :: callers)) (hdeepens : fs.Deepens inner outer)
    (hlength : callers.length + 1 ≤ bound) :
    fs.IsStack start bound (inner :: outer :: callers) :=
  ⟨.cons_cons hdeepens h.isChain, by rw [List.getLast?_cons_cons, h.getLast?_eq],
    Nat.succ_le_succ hlength⟩

/-- A name in a directory is one more segment. -/
theorem deepens_child (hsource : normalize? fs.root source = some S) (hS : IsNormal S) {name : Key}
    (hname : IsName name) (hnamed : ∃ ch ∈ fs.bucket.name, ch ≠ separator) :
    fs.Deepens (S ++ separator :: name) source := by
  have hchild := hS.child hname
  refine ⟨S, name, hsource, _, normalize?_of_isNormal ⟨fs.bucket.name, rfl, hnamed⟩ hchild, ?_⟩
  rw [segments_of_isNormal hchild, segments_of_isNormal hS, pieces_append_separator,
    pieces_of_notMem hname.separator_notMem]

section

variable {kind : Store → Prop} {writes : Key → Prop} {good : List Path → Prop} {depth : Nat}
  {rename : Path → Path → Tracing Bool}
  (m : Mirror (ownRuns plan kind fun _ => False) fs fs.config.pageSize fs.config.pageSize_pos id
    (fun _ => True) writes)

include m

/-- Moving an entry records the calls that `rename` records if it is a directory. -/
theorem records_moveEntryBy (hS : IsNormal S) (hT : IsNormal T) {entry : Status}
    (hname : IsName entry.name)
    (hsource : Mirror.Opens fs.config.suffix (fun _ => True) writes (S ++ separator :: entry.name))
    (htarget : Mirror.Opens fs.config.suffix (fun _ => True) writes (T ++ separator :: entry.name))
    (hrename : entry.isDirectory = true →
      Records (ownRuns plan kind fun _ => False) good Eq
        (fs.renameWithin depth (S ++ separator :: entry.name) (T ++ separator :: entry.name))
        (rename (S ++ separator :: entry.name) (T ++ separator :: entry.name))) :
    Records (ownRuns plan kind fun _ => False) good Eq (fs.moveEntry depth source target S T entry)
      (fs.moveEntryBy rename source target S T entry) := by
  have hSelf := normalize?_of_isNormal m.namesBucket (hS.child hname)
  have hTelf := normalize?_of_isNormal m.namesBucket (hT.child hname)
  rw [moveEntry, moveEntryBy, hS.concat hname, hT.concat hname]
  cases hdirectory : entry.isDirectory with
  | true =>
    exact (hrename hdirectory).bind_eq fun moved => Comparison.records_recorded m.notes moved
  | false =>
    have hmoved := m.matches_renameFile_key hSelf hTelf hsource htarget
    exact (Comparison.records_lift hmoved).bind_eq
      fun moved => Comparison.records_recorded m.notes moved

/-- One level records the calls that `rename` records for the directories in the source, in
whatever store of the kind they are listed. -/
theorem records_renameLevel (hsource : normalize? fs.root source = some S)
    (htarget : normalize? fs.root target = some T)
    (hopens : S ≠ [] → T ≠ [] → ¬ (T = S ∨ childPrefix S <+: T) →
      Mirror.Opens fs.config.suffix (fun _ => True) writes S ∧
      Mirror.Opens fs.config.suffix (fun _ => True) writes T)
    (hentry : S ≠ [] → T ≠ [] → ¬ (T = S ∨ childPrefix S <+: T) →
      ∀ store entry, kind store →
        entry ∈ Status.entriesOf fs.config.suffix store.objects S false →
        Mirror.Opens fs.config.suffix (fun _ => True) writes (S ++ separator :: entry.name) ∧
        Mirror.Opens fs.config.suffix (fun _ => True) writes (T ++ separator :: entry.name) ∧
        (entry.isDirectory = true →
          Records (ownRuns plan kind fun _ => False) good Eq
            (fs.renameWithin depth (S ++ separator :: entry.name) (T ++ separator :: entry.name))
            (rename (S ++ separator :: entry.name) (T ++ separator :: entry.name)))) :
    Records (ownRuns plan kind fun _ => False) good Eq (fs.renameWithin (depth + 1) source target)
      (fs.renameLevel rename source target) := by
  rw [renameWithin, renameLevel, key_eq hsource, key_eq htarget, pure_bind, pure_bind,
    lift_pure_bind, lift_pure_bind]
  by_cases hroot : S = [] ∨ T = []
  · have hroot' : (isRoot S || isRoot T) = true := by simpa [isRoot] using hroot
    rw [if_pos hroot', if_pos hroot']
    exact Comparison.records_lift (m.matches_refuse _)
  have hroot' : ¬ (isRoot S || isRoot T) = true := by simpa [isRoot] using hroot
  rw [if_neg hroot', if_neg hroot']
  by_cases hinside : T = S ∨ childPrefix S <+: T
  · rw [if_pos hinside, if_pos hinside]
    exact Comparison.records_lift (m.matches_refuse _)
  rw [if_neg hinside, if_neg hinside]
  obtain ⟨hSnil, hTnil⟩ := not_or.mp hroot
  obtain ⟨hSopens, hTopens⟩ := hopens hSnil hTnil hinside
  have hSelf := m.normalize?_key hsource
  have hTelf := m.normalize?_key htarget
  have hSnormal := (isNormal_of_normalize? hsource).resolve_left hSnil
  have hTnormal := (isNormal_of_normalize? htarget).resolve_left hTnil
  refine (Comparison.records_lift
    (m.matches_listStatus (by simp [hsource]) ?_ false)).bind ?_
  · rintro _ h
    obtain rfl := Option.some.inj (hsource.symm.trans h)
    exact hSopens
  rintro _ _ (⟨S', hS', listed, _, ⟨rfl, hkind⟩, rfl, rfl⟩ | _)
  · obtain rfl := Option.some.inj (hsource.symm.trans hS')
    refine (Comparison.records_lift (m.matches_exists? ?_)).bind_eq fun taken => ?_
    · rintro _ h -
      obtain rfl := Option.some.inj (htarget.symm.trans h)
      exact hTopens
    cases taken with
    | true => exact Comparison.records_lift (m.matches_refuse _)
    | false =>
      refine (Comparison.records_lift
        (m.matches_establishTarget hSelf hTelf hSopens hTopens)).bind_eq fun established => ?_
      cases established with
      | false => exact Comparison.records_pure rfl
      | true =>
        refine Records.bind_eq (Comparison.records_allM _ fun entry hmem => ?_) fun moved => ?_
        · obtain ⟨hchild, hchildTarget, hrename⟩ := hentry hSnil hTnil hinside _ entry hkind hmem
          have hname := Status.isName_of_mem_entriesOf fs.config.suffix_ne_nil
            fs.config.separator_notMem_suffix hmem
          exact records_moveEntryBy m hSnormal hTnormal hname hchild hchildTarget hrename
        · cases moved with
          | false => exact Comparison.records_pure rfl
          | true =>
            refine Comparison.records_lift
              (m.matches_deleteDirectory (by simp [hSelf]) ?_ true Bool.noConfusion)
            rintro _ h
            obtain rfl := Option.some.inj (hSelf.symm.trans h)
            exact hSopens
  · exact (Comparison.records_lift (Comparison.matches_log m.notes)).bind_eq
      fun _ => Comparison.records_pure rfl

end

/-! ### The calls of a rename -/

/-- A rename that has come down from the directory `top`, at which `start` began, records stacks of
calls of at most as many levels as there are below the directory. -/
theorem records_tracedWithin (hplan : plan.OnlyFails)
    (hnamed : ∃ ch ∈ fs.bucket.name, ch ≠ separator) (start : Path) {bound : Nat}
    (hlevels : levels = top.count separator + bound) : ∀ (depth : Nat) {callers : List Path}
    {source target : Path} {S T : Key}, 0 < depth → normalize? fs.root source = some S →
    normalize? fs.root target = some T →
    (S ≠ [] → T ≠ [] → ¬ (T = S ∨ childPrefix S <+: T) →
      top ≠ [] ∧ fs.Within top levels depth source target S T) →
    fs.IsStack start bound (source :: callers) →
    callers.length + top.count separator = S.count separator →
    Records (ownRuns plan (fs.Shallow top levels) fun _ => False) (fs.IsStack start bound) Eq
      (fs.renameWithin depth source target) (fs.tracedWithin depth callers source target) := by
  have m : Mirror (ownRuns plan (fs.Shallow top levels) fun _ => False) fs fs.config.pageSize
      fs.config.pageSize_pos id (fun _ => True) (KeepsShallow top levels) :=
    mirror_ownRuns hplan hnamed (fun _ h => h.bucket_eq) (fun _ _ body h => h.put body)
      fun _ key h => h.remove key
  intro depth
  induction depth with
  | zero => exact fun hpos => absurd hpos (lt_irrefl 0)
  | succ depth ih =>
    intro callers source target S T _ hsource htarget hwithin hstack hlength
    refine Records.call hstack (records_renameLevel m hsource htarget ?_ ?_)
    · intro hS hT hinside
      obtain ⟨htop, h⟩ := hwithin hS hT hinside
      exact ⟨(h.keepsShallow_source htop).opens htop, (h.keepsShallow_target htop).opens htop⟩
    · intro hS hT hinside store entry hshallow hentry
      obtain ⟨htop, h⟩ := hwithin hS hT hinside
      have hSnormal := (isNormal_of_normalize? hsource).resolve_left hS
      have hTnormal := (isNormal_of_normalize? htarget).resolve_left hT
      have hname := Status.isName_of_mem_entriesOf fs.config.suffix_ne_nil
        fs.config.separator_notMem_suffix hentry
      have hchild := h.entry hshallow htop hSnormal hTnormal hnamed hentry
      refine ⟨(hchild.keepsShallow_source htop).opens htop,
        (hchild.keepsShallow_target htop).opens htop, fun _ => ?_⟩
      have hcount := count_child S entry.name hname.separator_notMem
      refine ih hchild.depth_pos hchild.source_eq hchild.target_eq (fun _ _ _ => ⟨htop, hchild⟩)
        (hstack.cons (deepens_child hsource hSnormal hname hnamed) ?_) ?_
      · rcases hchild.source_in with ⟨heq, -⟩ | ⟨-, hle⟩
        · rw [heq] at hcount
          omega
        · omega
      · rw [List.length_cons]
        omega

/-- What a run records, from a store of a kind: it ends like the run that it matches, without an
error. -/
theorem exec_of_records {kind : Store → Prop} {good : List Path → Prop} {x : StoreM Bool}
    {y : Tracing Bool} (h : Records (ownRuns plan kind fun _ => False) good Eq x y)
    (hkind : kind world.store) :
    ∃ done calls after, x.exec plan world = (.ok done, after) ∧
      (y.run []).exec plan world = (.ok (done, calls), after) ∧ ∀ stack ∈ calls, good stack := by
  have houtcomes := h [] nofun world world ⟨rfl, hkind⟩
  change Comparison.Outcomes _ _ (x.exec plan world) ((y.run []).exec plan world) at houtcomes
  generalize x.exec plan world = outcome at houtcomes
  generalize (y.run []).exec plan world = outcome' at houtcomes
  cases houtcomes with
  | @ok done recorded after other hsame hafter =>
    obtain ⟨hdone, hcalls⟩ := hsame
    obtain ⟨rfl, -⟩ := hafter
    obtain ⟨done', calls⟩ := recorded
    obtain rfl : done = done' := hdone
    exact ⟨done, calls, after, rfl, rfl, hcalls⟩
  | error hraises _ => exact hraises.elim

/-- Numbers of levels that are enough for a rename make it run alike. -/
theorem exec_renameWithin_unique {depth other : Nat} {done done' : Bool} {after after' : World}
    (h : (fs.renameWithin depth source target).exec plan world = (.ok done, after))
    (h' : (fs.renameWithin other source target).exec plan world = (.ok done', after')) :
    done = done' ∧ after = after' := by
  have hsame : (fs.renameWithin depth source target).exec plan world =
      (fs.renameWithin other source target).exec plan world := by
    rcases Nat.le_total depth other with hle | hle
    · exact (exec_renameWithin_of_le hle (by simp [h])).symm
    · exact exec_renameWithin_of_le hle (by simp [h'])
  rw [h, h'] at hsame
  obtain ⟨hdone, hafter⟩ := Prod.mk.inj hsame
  exact ⟨Except.ok.inj hdone, hafter⟩

/-- Whichever requests fail, a rename of a directory in the bucket ends, and so does every listing.
It needs no more levels than the keys below its source have parts more than the source. Each of its
calls for a directory has a source with one segment more than that of its caller, and is nested in no
more calls than there are such levels. -/
theorem renameDirectory_nests (hplan : plan.OnlyFails) (hm : fs.Mounted world.store)
    (hsource : normalize? fs.root source = some S) (htarget : normalize? fs.root target = some T) :
    (∃ done after, (fs.renameDirectory source target).exec plan world = (.ok done, after) ∧
      ∀ depth, world.store.objects.levelsBelow S < depth →
        (fs.renameWithin depth source target).exec plan world = (.ok done, after) ∧
        ∃ calls, ((fs.tracedWithin depth [] source target).run []).exec plan world =
            (.ok (done, calls), after) ∧
          ∀ stack ∈ calls, fs.IsStack source (world.store.objects.levelsBelow S) stack) ∧
    ∀ between : World, fs.Mounted between.store → ∀ key recursive,
      (fs.allPages key recursive).Returns plan between fun _ after =>
        after.store = between.store := by
  constructor
  · obtain ⟨done, after, hexec, -⟩ := returns_renameDirectory_of_onlyFails hplan hm hsource htarget
    obtain ⟨enough, -, hwithin⟩ := exec_renameDirectory fs plan world source target
    refine ⟨done, after, hexec, fun depth hdepth => ?_⟩
    have hshallow : fs.Shallow S (S.count separator + world.store.objects.levelsBelow S)
        world.store :=
      ⟨hm.bucket_eq, fun k hk => count_le_of_levelsBelow (isNormal_of_normalize? hsource) hk⟩
    have hrecords := records_tracedWithin hplan hm.named source rfl depth (by omega) hsource htarget
      (fun hS _ hinside => ⟨hS, hsource, htarget, Or.inl ⟨rfl, by omega⟩,
        fun h => absurd h hinside, by omega⟩)
      (isStack_singleton source (world.store.objects.levelsBelow S)) (Nat.zero_add _)
    obtain ⟨done', calls, after', hrun, htraced, hcalls⟩ := exec_of_records hrecords hshallow
    obtain ⟨rfl, rfl⟩ := exec_renameWithin_unique (hwithin.symm.trans hexec) hrun
    exact ⟨hrun, calls, htraced, hcalls⟩
  · intro between hmounted key recursive
    exact (fs.onlyAsks_allPages key recursive).returns
      ((returns_allPages hplan.refuses_beforehand hmounted recursive).mono
        fun _ _ hafter => hafter.1)

/-- A directory with an empty segment, with directories of odd names in one another, and with a
trailing separator. -/
def oddTree : World :=
  { store := .holding ['b'] [("s//x".toList, [1]), ("s/n/m/y".toList, [2]), ("s/n/m/o/".toList, []),
      ("s/p_$folder$_$folder$".toList, []), ("s/q".toList, [3])] }

/-- Asking for the files `d` and `d/n` fails. -/
def targetsUnseen : Plan :=
  Script.plan [{ method := some .head, key := some ['d'],
                 effect := .fail (.store (.refused (some "503") none)) false },
    { method := some .head, key := some "d/n".toList,
      effect := .fail (.store (.refused (some "503") none)) true }]

/-- The calls of a rename of the directory, the latest first. -/
def oddCalls : List (List Path) :=
  [["s/p_$folder$".toList, ['s']],
    ["s/n/m/o".toList, "s/n/m".toList, "s/n".toList, ['s']],
    ["s/n/m".toList, "s/n".toList, ['s']], ["s/n".toList, ['s']], [['s']]]

theorem renameDirectory_nests_oddTree :
    targetsUnseen.OnlyFails ∧ plainBucket.Mounted oddTree.store ∧
      oddTree.store.objects.levelsBelow ['s'] = 4 ∧
      ∃ after, (plainBucket.renameDirectory ['s'] ['d']).exec targetsUnseen oddTree =
          (.ok true, after) ∧
        ((plainBucket.tracedWithin 5 [] ['s'] ['d']).run []).exec targetsUnseen oddTree =
          (.ok (true, oddCalls), after) ∧
        ∀ stack ∈ oddCalls, plainBucket.IsStack ['s'] 4 stack := by
  have hplan : targetsUnseen.OnlyFails := Script.onlyFails_plan fun rule hrule => by
    simp only [List.mem_cons, List.not_mem_nil, or_false] at hrule
    rcases hrule with rfl | rfl <;> exact ⟨_, _, rfl⟩
  have hm : plainBucket.Mounted oddTree.store := ⟨rfl, 'b', by decide, by decide⟩
  have hlevels : oddTree.store.objects.levelsBelow ['s'] = 4 := by decide +kernel
  have hcalled : (((plainBucket.tracedWithin 5 [] ['s'] ['d']).run []).exec targetsUnseen
      oddTree).1.toOption = some (true, oddCalls) := by decide +kernel
  obtain ⟨⟨done, after, hexec, hdepths⟩, -⟩ := renameDirectory_nests hplan hm
    normalize?_plainBucket_s normalize?_plainBucket_d
  obtain ⟨-, calls, htraced, hstacks⟩ := hdepths 5 (by omega)
  rw [htraced] at hcalled
  obtain ⟨rfl, rfl⟩ := Prod.mk.inj (Option.some.inj hcalled)
  exact ⟨hplan, hm, hlevels, after, hexec, htraced, hlevels ▸ hstacks⟩

end FileSystem

end KeyTree
