import KeyTree.Proofs.FileSystem.Depth
import KeyTree.Proofs.FileSystem.Undisturbed

/-!
# Calls that commute

The first segment of a key says in which quarter of the bucket it lies; the marker of a quarter is
in it too. A call looks only at the quarters of its paths and writes only there, so if nothing fails
it ends alike over all stores that hold the same bodies in these quarters, and two calls whose paths
have no first segment in common do not notice each other. Only the times of what they write depend
on their order.

## Main definitions

* `Key.firstSegment`, `Key.Quarter` — the first segment of a key, and the keys of its quarter.
* `TreeCall` — the calls on paths, and writing a file as a whole.
* `TreeCall.Apart` — calls without a common first segment.

## Main results

* `FileSystem.matches_run` — a call ends alike over stores that agree on its quarters.
* `FileSystem.confined_run` — a call changes only its quarters.
* `FileSystem.exec_commute` — calls that are apart commute.
-/

namespace KeyTree

open Key

/-! ### First segments -/

namespace Key

variable {suffix key k a : Key}

/-- The text before the first separator. -/
def firstSegment (key : Key) : Key :=
  key.takeWhile (· ≠ separator)

theorem firstSegment_append_separator (left right : Key) :
    firstSegment (left ++ separator :: right) = firstSegment left := by
  induction left with
  | nil => simp [firstSegment]
  | cons c left ih =>
    simp only [firstSegment, List.cons_append, List.takeWhile_cons] at ih ⊢
    split
    · rw [ih]
    · rfl

theorem firstSegment_of_notMem (h : separator ∉ key) : firstSegment key = key := by
  have hall : ∀ c ∈ key, decide (c ≠ separator) = true := by
    rintro c hc
    exact decide_eq_true fun heq => h (heq ▸ hc)
  rw [firstSegment, ← List.append_nil key, List.takeWhile_append_of_pos hall, List.takeWhile_nil]

theorem firstSegment_of_below (hkey : key ≠ []) (h : childPrefix key <+: k) :
    firstSegment k = firstSegment key := by
  obtain ⟨rest, rfl⟩ := h
  rw [childPrefix_of_ne_nil hkey, List.append_assoc, List.singleton_append,
    firstSegment_append_separator]

theorem firstSegment_of_mem_chain (h : a ∈ chain key) : firstSegment a = firstSegment key := by
  obtain ⟨-, rfl | h⟩ := mem_chain_iff.mp h
  · rfl
  · obtain ⟨rest, rfl⟩ := mem_ancestors_iff.mp h
    rw [List.append_assoc, List.singleton_append, firstSegment_append_separator]

/-- The *quarter* of a key: the keys with its first segment, or with the marker of that. -/
def Quarter (suffix key k : Key) : Prop :=
  firstSegment k = firstSegment key ∨ firstSegment k = marker suffix (firstSegment key)

theorem quarter_self (suffix key : Key) : Quarter suffix key key := Or.inl rfl

/-- The marker of a key is in its quarter. -/
theorem quarter_marker (hs : separator ∉ suffix) (key : Key) :
    Quarter suffix key (marker suffix key) := by
  by_cases h : separator ∈ key
  · obtain ⟨left, right, rfl⟩ := List.append_of_mem h
    refine Or.inl ?_
    rw [marker, List.append_assoc, List.cons_append, firstSegment_append_separator,
      firstSegment_append_separator]
  · refine Or.inr ?_
    rw [firstSegment_of_notMem h, marker, firstSegment_of_notMem]
    simp [h, hs]

theorem Quarter.congr (h : Quarter suffix a k) (heq : firstSegment a = firstSegment key) :
    Quarter suffix key k := by
  rwa [Quarter, heq] at h

/-- What a key touches is in its quarter. -/
theorem Touches.quarter (h : Touches suffix key k) (hs : separator ∉ suffix) (hkey : key ≠ []) :
    Quarter suffix key k := by
  cases h with
  | self => exact quarter_self suffix key
  | marker => exact quarter_marker hs key
  | below h => exact Or.inl (firstSegment_of_below hkey h)

/-- Keys whose first segments are different and do not end the way markers do have no quarter in
common. -/
theorem Quarter.firstSegment_eq {b : Key} (ha : Quarter suffix a k) (hb : Quarter suffix b k)
    (hplain : ¬ suffix <:+ firstSegment a) (hplain' : ¬ suffix <:+ firstSegment b) :
    firstSegment a = firstSegment b := by
  rcases ha with ha | ha <;> rcases hb with hb | hb
  · exact ha.symm.trans hb
  · exact absurd (ha.symm.trans hb ▸ List.suffix_append ..) hplain
  · exact absurd (hb.symm.trans ha ▸ List.suffix_append ..) hplain'
  · exact marker_injective (ha.symm.trans hb)

end Key

/-! ### Calls -/

namespace FileSystem

/-- Writes a file through a stream, piece by piece, and closes it. -/
def save (fs : FileSystem) (path : Path) (createParent : Bool) (data : List Bytes) :
    StoreM Unit := do
  let stream ← fs.create path createParent
  let stream ← MonadExcept.ofExcept (data.foldlM OutputStream.write stream)
  stream.store

end FileSystem

/-- Calls on the tree: those on paths, and writing a file as a whole. -/
inductive TreeCall where
  | path (call : PathCall)
  | save (file : Path) (createParent : Bool) (data : List Bytes)
deriving DecidableEq

namespace TreeCall

/-- The paths of a call. -/
def paths : TreeCall → List Path
  | .path call => call.paths
  | .save file _ _ => [file]

/-- Makes a call. -/
def run (fs : FileSystem) : TreeCall → StoreM Answer
  | .path call => Session.performPath fs call
  | .save file createParent data => do
    fs.save file createParent data
    return .nothing

/-- A call is *housed* when its paths are in the bucket, below first segments that do not end the
way markers do, and it does not answer with a time alone. -/
structure Housed (fs : FileSystem) (call : TreeCall) : Prop where
  paths : ∀ path ∈ call.paths, ∃ key, normalize? fs.root path = some key ∧ key ≠ [] ∧
    ¬ fs.config.suffix <:+ firstSegment key
  untimed : ∀ pathCall, call = .path pathCall → pathCall.tellsTime = false

/-- Calls are *apart* when no first segment of a path of one of them is one of the other. -/
def Apart (fs : FileSystem) (a b : TreeCall) : Prop :=
  ∀ p ∈ a.paths, ∀ q ∈ b.paths, ∀ k l, normalize? fs.root p = some k →
    normalize? fs.root q = some l → firstSegment k ≠ firstSegment l

/-- The quarters of the paths of a call. -/
def Quarters (fs : FileSystem) (call : TreeCall) (k : Key) : Prop :=
  ∃ path ∈ call.paths, ∃ key, normalize? fs.root path = some key ∧
    Quarter fs.config.suffix key k

end TreeCall

/-- An outcome without the times in it. -/
def untimed (outcome : Except Error Answer) : Except Error Answer :=
  outcome.map (Answer.seen fun _ => 0)

namespace FileSystem

variable {fs : FileSystem} {plan : Plan} {world : World} {call : TreeCall} {k : Key}

/-! ### What a call changes -/

/-- An open stream collects what is written to it. -/
theorem ofExcept_write {stream : OutputStream} (hopen : stream.closed = false) (data : List Bytes) :
    (MonadExcept.ofExcept (data.foldlM OutputStream.write stream) : StoreM OutputStream) =
      pure { stream with written := stream.written ++ data.flatten } := by
  have hwritten : data.foldlM OutputStream.write stream =
      .ok { stream with written := stream.written ++ data.flatten } := by
    induction data generalizing stream with
    | nil => simp [pure, Except.pure]
    | cons piece data ih =>
      have hwrite : stream.write piece =
          .ok { stream with written := stream.written ++ piece } := by
        rw [OutputStream.write, if_neg (by simp [hopen])]
      rw [List.foldlM, hwrite, List.flatten_cons, ← List.append_assoc]
      exact @ih { stream with written := stream.written ++ piece } hopen
  rw [hwritten]
  rfl

/-- What is in the footprint of paths is in their quarters. -/
theorem quarters_of_footprint {climbs : Bool} (hcall : call.Housed fs)
    (h : fs.Footprint climbs call.paths k) : call.Quarters fs k := by
  obtain ⟨path, hmem, key, hpath, h⟩ := h
  obtain ⟨key', hpath', hkey, -⟩ := hcall.paths path hmem
  obtain rfl := Option.some.inj (hpath.symm.trans hpath')
  have hs := fs.config.separator_notMem_suffix
  refine ⟨path, hmem, key, hpath, ?_⟩
  rcases h with h | ⟨-, above, habove, rfl⟩
  · exact h.quarter hs hkey
  · have hchain : above ∈ chain key := mem_chain_iff.mpr ⟨hkey, Or.inr habove⟩
    exact (quarter_marker hs above).congr (firstSegment_of_mem_chain hchain)

/-- A call changes only its quarters. -/
theorem confined_run (hr : plan.Refuses) (hm : fs.Mounted world.store) (hcall : call.Housed fs) :
    (call.run fs).Confined plan fs.bucket.name (Request.About (call.Quarters fs)) world := by
  cases call with
  | path call =>
    refine (confined_performPath hr hm call fun path hmem => ?_).mono fun _ _ h => ?_
    · obtain ⟨key, hpath, -⟩ := hcall.paths path hmem
      exact ⟨key, hpath⟩
    · exact quarters_of_footprint hcall h
  | save file createParent data =>
    obtain ⟨key, hpath, hkey, -⟩ := hcall.paths file List.mem_cons_self
    refine StoreM.Confined.bind_pure ?_ _
    refine ((confined_create hr hm hpath createParent).mono fun _ _ h =>
      quarters_of_footprint hcall h).bind fun stream between _ hrun => ?_
    obtain rfl := eq_of_create hpath hrun
    rw [ofExcept_write rfl, pure_bind]
    refine (confined_store _).mono ?_
    intro _ request htarget
    exact ⟨file, List.mem_cons_self, key, hpath, Or.inl (congrArg firstSegment htarget)⟩

/-! ### What a call looks at -/

/-- Stores that hold the bucket and the same bodies under keys of some kind. -/
structure SameBodies (fs : FileSystem) (kind : Key → Prop) (store other : Store) : Prop where
  mounted : fs.Mounted store
  other_mounted : fs.Mounted other
  agree : Objects.Agree (fun _ => 0) kind store.objects other.objects

/-- Stores with the same bodies have them still after one more object is stored or removed. -/
theorem similarity_sameBodies (fs : FileSystem) (kind : Key → Prop) :
    Similarity fs (fun _ => 0) kind kind (fs.SameBodies kind) where
  mounted _ _ h := ⟨h.mounted, h.other_mounted⟩
  agree _ _ h := h.agree
  put store other key body h _ := by
    refine ⟨h.mounted.put key body, h.other_mounted.put key body, fun k hk => ?_⟩
    by_cases hkey : k = key
    · rw [hkey, Objects.getElem?_put_self, Objects.getElem?_put_self]
      rfl
    · rw [Objects.getElem?_put_of_ne store body hkey, Objects.getElem?_put_of_ne other body hkey]
      exact h.agree k hk
  remove store other key h _ := by
    refine ⟨h.mounted.remove key, h.other_mounted.remove key, fun k hk => ?_⟩
    by_cases hkey : k = key
    · rw [hkey, Objects.getElem?_remove_self, Objects.getElem?_remove_self]
    · rw [Objects.getElem?_remove_of_ne store hkey, Objects.getElem?_remove_of_ne other hkey]
      exact h.agree k hk

/-- The keys that have the first segment of a path of a call. -/
structure Reaches (fs : FileSystem) (call : TreeCall) (key : Key) : Prop where
  ne_nil : key ≠ []
  path : ∃ path ∈ call.paths, ∃ k, normalize? fs.root path = some k ∧
    firstSegment key = firstSegment k

theorem Reaches.congr {key : Key} (h : fs.Reaches call key) (hk : k ≠ [])
    (heq : firstSegment k = firstSegment key) : fs.Reaches call k := by
  obtain ⟨path, hmem, k, hpath, hfirst⟩ := h.path
  exact ⟨hk, path, hmem, k, hpath, heq.trans hfirst⟩

/-- A call may look at what such a key touches, and write there. -/
theorem Reaches.opens {key : Key} (h : fs.Reaches call key) :
    Mirror.Opens fs.config.suffix (call.Quarters fs) (call.Quarters fs) key := by
  obtain ⟨path, hmem, k, hpath, hfirst⟩ := h.path
  have hquarter : ∀ {k'}, Quarter fs.config.suffix key k' → call.Quarters fs k' :=
    fun hk => ⟨path, hmem, k, hpath, hk.congr hfirst⟩
  have hself := hquarter (quarter_self _ key)
  have hmarker := hquarter (quarter_marker fs.config.separator_notMem_suffix key)
  exact ⟨hself, hself, hmarker, hmarker,
    fun _ hbelow => hquarter (Or.inl (firstSegment_of_below h.ne_nil hbelow))⟩

/-- Renames between such keys can be followed downwards. -/
theorem descends_reaches (fs : FileSystem) (call : TreeCall) :
    Mirror.Descends (quietRuns (fs.SameBodies (call.Quarters fs)) fun _ => True) fs
      (call.Quarters fs) (call.Quarters fs) fun _ source target => ∀ path ∈ [source, target],
        ∃ key, normalize? fs.root path = some key ∧ fs.Reaches call key where
  outside _ _ _ _ _ _ _ := trivial
  opens := by
    intro depth source target h path hmem key hkey _
    obtain ⟨key', hkey', hreaches⟩ := h path hmem
    obtain rfl := Option.some.inj (hkey.symm.trans hkey')
    exact hreaches.opens
  ends _ _ _ := trivial
  entry := by
    intro depth source target S T h hS hT hSnil hTnil _ world other entry hrelated hentry
    have hname := Status.isName_of_mem_entriesOf fs.config.suffix_ne_nil
      fs.config.separator_notMem_suffix hentry
    have hchild : ∀ path ∈ [source, target], ∀ key, normalize? fs.root path = some key →
        normalize? fs.root (key ++ separator :: entry.name) =
            some (key ++ separator :: entry.name) ∧
          fs.Reaches call (key ++ separator :: entry.name) := by
      intro path hmem key hkey
      obtain ⟨key', hkey', hreaches⟩ := h path hmem
      obtain rfl := Option.some.inj (hkey.symm.trans hkey')
      have hnormal := (isNormal_of_normalize? hkey).resolve_left hreaches.ne_nil
      exact ⟨hrelated.mounted.normalize? (hnormal.child hname),
        hreaches.congr (by simp) (firstSegment_append_separator ..)⟩
    obtain ⟨hSself, hSreaches⟩ := hchild source (by simp) S hS
    obtain ⟨hTself, hTreaches⟩ := hchild target (by simp) T hT
    refine ⟨hSreaches.opens, hTreaches.opens, fun _ path hmem => ?_⟩
    rcases List.mem_pair.mp hmem with rfl | rfl
    · exact ⟨_, hSself, hSreaches⟩
    · exact ⟨_, hTself, hTreaches⟩

/-- Over similar stores a rename of a directory ends alike, though it may be given more levels in
one of them: more levels than enough change nothing. -/
theorem Similarity.matches_renameDirectory {view : Instant → Instant} {reads writes : Key → Prop}
    {similar : Store → Store → Prop} {raises : Error → Prop} {fits : Nat → Path → Path → Prop}
    (h : Similarity fs view reads writes similar) {source target : Path} {S T : Key}
    (hdescends : Mirror.Descends (quietRuns similar raises) fs reads writes fits)
    (hfits : ∀ depth, fits depth source target) (hsource : normalize? fs.root source = some S)
    (htarget : normalize? fs.root target = some T) :
    (quietRuns similar raises).Matches Eq (fs.renameDirectory source target)
      (fs.renameDirectory source target) := by
  intro world other hrelated
  obtain ⟨hm, hm'⟩ := h.mounted _ _ hrelated
  have hends : ∀ {world : World} {depth : Nat}, fs.Mounted world.store →
      (fs.renameDirectory source target).exec .quiet world =
        (fs.renameWithin depth source target).exec .quiet world →
      ((fs.renameWithin depth source target).exec .quiet world).1 ≠ .error .endlessTree := by
    intro world depth hm hexec
    obtain ⟨done, after, hrun, -⟩ := returns_renameDirectory_of_onlyFails
      Plan.refuses_quiet.onlyFails hm hsource htarget
    rw [← hexec, hrun]
    nofun
  obtain ⟨depth, -, hexec⟩ := exec_renameDirectory fs .quiet world source target
  obtain ⟨depth', -, hexec'⟩ := exec_renameDirectory fs .quiet other source target
  change Comparison.Outcomes _ _ ((fs.renameDirectory source target).exec .quiet world)
    ((fs.renameDirectory source target).exec .quiet other)
  rw [hexec, hexec', ← exec_renameWithin_of_le (Nat.le_max_left _ _) (hends hm hexec),
    ← exec_renameWithin_of_le (Nat.le_max_right _ _) (hends hm' hexec')]
  exact (h.mirror hm.named _ fs.config.pageSize_pos).matches_renameWithin hdescends _ (hfits _)
    world other hrelated

/-- A call ends alike over stores that hold the same bodies in its quarters. -/
theorem matches_run (hnamed : ∃ ch ∈ fs.bucket.name, ch ≠ separator) (hcall : call.Housed fs) :
    (quietRuns (fs.SameBodies (call.Quarters fs)) fun _ => True).Matches
      (fun a b => a.seen (fun _ => 0) = b.seen fun _ => 0) (call.run fs) (call.run fs) := by
  have hsimilar := similarity_sameBodies fs (call.Quarters fs)
  have m : Mirror (quietRuns (fs.SameBodies (call.Quarters fs)) fun _ => True) fs _ _ _ _ _ :=
    hsimilar.mirror hnamed _ fs.config.pageSize_pos
  have hreaches : ∀ path ∈ call.paths, ∀ key, normalize? fs.root path = some key →
      fs.Reaches call key := by
    intro path hmem key hkey
    obtain ⟨key', hkey', hne, -⟩ := hcall.paths path hmem
    obtain rfl := Option.some.inj (hkey.symm.trans hkey')
    exact ⟨hne, path, hmem, key, hkey, rfl⟩
  have hchain : ∀ path ∈ call.paths, ∀ key, normalize? fs.root path = some key → ∀ k ∈ chain key,
      Mirror.Opens fs.config.suffix (call.Quarters fs) (call.Quarters fs) k := by
    intro path hmem key hkey k hk
    have hnormal := isNormal_of_mem_chain (isNormal_of_normalize? hkey) hk
    exact ((hreaches path hmem key hkey).congr hnormal.1 (firstSegment_of_mem_chain hk)).opens
  cases call with
  | path call =>
    refine m.matches_performPath call (fun _ _ _ => trivial)
      (fun path hmem key hkey => (hreaches path hmem key hkey).opens) hchain (fun _ _ => trivial)
      (fun htells => absurd (htells.symm.trans (hcall.untimed call rfl)) nofun) ?_
    rintro source target rfl
    have hpaths : ∀ path ∈ [source, target], ∃ key, normalize? fs.root path = some key ∧
        fs.Reaches (.path (.renameDirectory source target)) key := by
      intro path hmem
      obtain ⟨key, hkey, -⟩ := hcall.paths path hmem
      exact ⟨key, hkey, hreaches path hmem key hkey⟩
    obtain ⟨S, hsource, -⟩ := hpaths source (by simp)
    obtain ⟨T, htarget, -⟩ := hpaths target (by simp)
    exact hsimilar.matches_renameDirectory (descends_reaches fs _) (fun _ => hpaths) hsource htarget
  | save file createParent data =>
    have hmem : file ∈ (TreeCall.save file createParent data).paths := List.mem_cons_self
    refine Comparison.Matches.bind_eq ?_ fun _ => Comparison.matches_pure rfl
    refine (m.matches_create (fun _ => trivial) (hchain file hmem) createParent
      fun _ => trivial).bind ?_
    rintro _ _ ⟨rfl, key, hkey, rfl⟩
    rw [ofExcept_write rfl, pure_bind]
    exact m.matches_store rfl (hreaches file hmem key hkey).opens.writes_key fun _ => trivial

/-- So its outcome is the same up to times, and the stores go on to hold the same bodies there. -/
theorem exec_run (hcall : call.Housed fs) {other : World}
    (h : fs.SameBodies (call.Quarters fs) world.store other.store) :
    untimed ((call.run fs).exec .quiet world).1 = untimed ((call.run fs).exec .quiet other).1 ∧
      fs.SameBodies (call.Quarters fs) ((call.run fs).exec .quiet world).2.store
        ((call.run fs).exec .quiet other).2.store := by
  have houtcomes := matches_run h.mounted.named hcall world other h
  change Comparison.Outcomes _ _ ((call.run fs).exec .quiet world)
    ((call.run fs).exec .quiet other) at houtcomes
  generalize (call.run fs).exec .quiet world = outcome at houtcomes
  generalize (call.run fs).exec .quiet other = outcome' at houtcomes
  cases houtcomes with
  | ok hsame hafter => exact ⟨congrArg Except.ok hsame, hafter⟩
  | error _ hafter => exact ⟨rfl, hafter⟩

/-! ### Calls that are apart -/

variable {a b : TreeCall}

/-- Calls that are apart have no quarters in common. -/
theorem not_quarters_of_apart (ha : a.Housed fs) (hb : b.Housed fs) (h : TreeCall.Apart fs a b)
    (hk : a.Quarters fs k) : ¬ b.Quarters fs k := by
  rintro ⟨q, hq, l, hql, hkl⟩
  obtain ⟨p, hp, m, hpm, hkm⟩ := hk
  obtain ⟨m', hpm', -, hplain⟩ := ha.paths p hp
  obtain ⟨l', hql', -, hplain'⟩ := hb.paths q hq
  obtain rfl := Option.some.inj (hpm.symm.trans hpm')
  obtain rfl := Option.some.inj (hql.symm.trans hql')
  exact h p hp q hq m l hpm hql (hkm.firstSegment_eq hkl hplain hplain')

/-- A call that is apart leaves the bodies in the quarters of the other one alone. -/
theorem sameBodies_of_apart (hm : fs.Mounted world.store) (ha : a.Housed fs) (hb : b.Housed fs)
    (h : TreeCall.Apart fs a b) :
    fs.SameBodies (a.Quarters fs) ((b.run fs).exec .quiet world).2.store world.store := by
  have hrun := confined_run Plan.refuses_quiet hm hb
  refine ⟨hm.of_run hrun, hm, fun k hk => ?_⟩
  rw [hrun.changesOnly k (not_quarters_of_apart ha hb h hk)]

/-- If nothing fails, calls that are apart commute: each of them comes back with the same, up to
times, whether it is made before or after the other one, and both orders leave the same keys with
the same bodies. -/
theorem exec_commute (hm : fs.Mounted world.store) (ha : a.Housed fs) (hb : b.Housed fs)
    (h : TreeCall.Apart fs a b) :
    untimed ((a.run fs).exec .quiet ((b.run fs).exec .quiet world).2).1 =
        untimed ((a.run fs).exec .quiet world).1 ∧
      untimed ((b.run fs).exec .quiet ((a.run fs).exec .quiet world).2).1 =
        untimed ((b.run fs).exec .quiet world).1 ∧
      ∀ k, ((b.run fs).exec .quiet ((a.run fs).exec .quiet world).2).2.store.objects.body? k =
        ((a.run fs).exec .quiet ((b.run fs).exec .quiet world).2).2.store.objects.body? k := by
  have h' : TreeCall.Apart fs b a := fun q hq p hp l k hl hk => (h p hp q hq k l hk hl).symm
  have hrunA := confined_run Plan.refuses_quiet hm ha
  have hrunB := confined_run Plan.refuses_quiet hm hb
  have hmA := hm.of_run hrunA
  have hmB := hm.of_run hrunB
  obtain ⟨houtcomeA, hsameA⟩ := exec_run ha (sameBodies_of_apart hm ha hb h)
  obtain ⟨houtcomeB, hsameB⟩ := exec_run hb (sameBodies_of_apart hm hb ha h')
  refine ⟨houtcomeA, houtcomeB, fun k => ?_⟩
  by_cases hkA : a.Quarters fs k
  · exact ((sameBodies_of_apart hmA ha hb h).agree.body?_eq hkA).trans
      (hsameA.agree.body?_eq hkA).symm
  by_cases hkB : b.Quarters fs k
  · exact (hsameB.agree.body?_eq hkB).trans
      ((sameBodies_of_apart hmB hb ha h').agree.body?_eq hkB).symm
  -- neither call changes anything else
  refine Objects.body?_congr ?_
  rw [(confined_run Plan.refuses_quiet hmA hb).changesOnly k hkB, hrunA.changesOnly k hkA,
    (confined_run Plan.refuses_quiet hmB ha).changesOnly k hkA, hrunB.changesOnly k hkB]

/-- A tree is renamed. -/
def renamesTree : TreeCall := .path (.renameDirectory ['s'] ['d'])

/-- A file is written into a new directory in two pieces. -/
def savesFile : TreeCall := .save "e/n/z".toList true [[3], [4]]

theorem exec_commute_smallTree :
    renamesTree.Housed plainBucket ∧ savesFile.Housed plainBucket ∧
      TreeCall.Apart plainBucket renamesTree savesFile ∧
      untimed ((renamesTree.run plainBucket).exec .quiet
        ((savesFile.run plainBucket).exec .quiet smallTree).2).1 = .ok (.flag true) ∧
      untimed ((savesFile.run plainBucket).exec .quiet
        ((renamesTree.run plainBucket).exec .quiet smallTree).2).1 = .ok .nothing ∧
      ((renamesTree.run plainBucket).exec .quiet
        ((savesFile.run plainBucket).exec .quiet smallTree).2).2.store.objects.body?
          "e/n/z".toList = some [3, 4] := by
  have hpaths : ∀ path ∈ renamesTree.paths ++ savesFile.paths,
      normalize? plainBucket.root path = some path ∧ path ≠ [] ∧
        ¬ plainBucket.config.suffix <:+ firstSegment path := by
    decide +kernel
  have hrenames : renamesTree.Housed plainBucket :=
    ⟨fun path hmem => ⟨path, hpaths path (List.mem_append_left _ hmem)⟩,
      fun _ h => TreeCall.path.inj h ▸ rfl⟩
  have hsaves : savesFile.Housed plainBucket :=
    ⟨fun path hmem => ⟨path, hpaths path (List.mem_append_right _ hmem)⟩, nofun⟩
  have hapart : TreeCall.Apart plainBucket renamesTree savesFile := by
    intro p hp q hq k l hk hl
    have hfirst : ∀ p ∈ renamesTree.paths, ∀ q ∈ savesFile.paths,
        firstSegment p ≠ firstSegment q := by
      decide +kernel
    rw [(hpaths p (List.mem_append_left _ hp)).1] at hk
    rw [(hpaths q (List.mem_append_right _ hq)).1] at hl
    rw [← Option.some.inj hk, ← Option.some.inj hl]
    exact hfirst p hp q hq
  obtain ⟨hrenamed, hsaved, hbodies⟩ := exec_commute mounted_smallTree hrenames hsaves hapart
  exact ⟨hrenames, hsaves, hapart, hrenamed.trans (by decide +kernel),
    hsaved.trans (by decide +kernel), (hbodies _).symm.trans (by decide +kernel)⟩

end FileSystem

end KeyTree
