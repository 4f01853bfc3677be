import KeyTree.Proofs.FileSystem.Carried
import KeyTree.Proofs.FileSystem.RenameFile

/-!
# One level of a directory rename

A rename of a directory declines, or it begins: then its entries are listed, the marker of its
target is established, the entries are moved one after another, and what is left of the source is
deleted. When it declines the store has changed at most by markers of implicit directories.

## Main definitions

* `FileSystem.Declines` — why a rename of a directory declines, and the store after it.
* `FileSystem.Begins` — the entries and the store with which a rename begins.
* `FileSystem.moveEntry`, `FileSystem.moveEntries` — what a rename does then.

## Main results

* `FileSystem.returns_establishTarget` — the marker of the target.
* `FileSystem.outcome_renameWithin_succ`, `FileSystem.returns_renameWithin_succ` — a rename declines
  or begins.
-/

namespace KeyTree.FileSystem

open Key

variable {fs : FileSystem} {plan : Plan} {world : World} {source target : Path}
  {sourceKey targetKey : Key}

/-- If nothing is refused, writing an object passes. -/
theorem passes_put_of_quiet {earlier : List Request} {key : Key} {body : Bytes} {length : Int}
    (hplan : plan = .quiet) (hkey : key ≠ []) : plan.Passes earlier (.put key body length) := by
  subst hplan
  simp [Request.hasKey, Request.target, hkey]

/-- If nothing is refused, a copy passes. -/
theorem passes_copy_of_quiet {earlier : List Request} {source target : Key} (hplan : plan = .quiet)
    (htarget : target ≠ []) : plan.Passes earlier (.copy source target) := by
  subst hplan
  simp [Request.hasKey, Request.target, htarget]

/-! ### Declining and beginning -/

/-- Why a rename of a directory declines, with the store after it. -/
inductive Declines (fs : FileSystem) (plan : Plan) (source target : Key) (store : Store) :
    Store → Prop
  | root (h : source = [] ∨ target = []) : Declines fs plan source target store store
  | inside (h : target = source ∨ childPrefix source <+: target) :
      Declines fs plan source target store store
  /-- The source is no directory, or something was refused. -/
  | unlisted {listed : Store} (hlisted : fs.Settles plan source store listed)
      (h : plan = .quiet → ¬ store.objects.IsDirectory fs.config.suffix source) :
      Declines fs plan source target store listed
  | taken {listed looked : Store} (hlisted : fs.Settles plan source store listed)
      (hlooked : fs.Settles plan target listed looked)
      (h : target ∈ listed.objects ∨ listed.objects.IsDirectory fs.config.suffix target) :
      Declines fs plan source target store looked
  | unestablished {listed looked : Store} (hlisted : fs.Settles plan source store listed)
      (hlooked : fs.Settles plan target listed looked) (h : plan ≠ .quiet) :
      Declines fs plan source target store looked

/-- A rename of a directory *begins* with the entries that are listed, after the target has not been
found and its marker has been established. -/
structure Begins (fs : FileSystem) (plan : Plan) (source target : Key) (store : Store)
    (entries : List Status) (listed looked : Store) (body : Bytes) : Prop where
  source_ne_nil : source ≠ []
  target_ne_nil : target ≠ []
  target_ne_source : target ≠ source
  not_inside : ¬ childPrefix source <+: target
  isDirectory : store.objects.IsDirectory fs.config.suffix source
  listing : fs.Settles plan source store listed
  isListing : Status.IsListing fs.config.suffix listed.objects (childPrefix source) entries
  looking : fs.Settles plan target listed looked
  target_free : plan = .quiet →
    ¬ (target ∈ listed.objects ∨ listed.objects.IsDirectory fs.config.suffix target)
  body_eq : body = [] ∨ looked.objects.body? (marker fs.config.suffix source) = some body
  body_eq_of_quiet : plan = .quiet →
    ∀ o, looked.objects[marker fs.config.suffix source]? = some o → body = o.body

variable (hr : plan.Refuses) (hm : fs.Mounted world.store)

include hr hm in
/-- The marker of a target is a copy of that of the source, or empty. -/
theorem returns_establishTarget (hsource : normalize? fs.root sourceKey = some sourceKey)
    (htarget : normalize? fs.root targetKey = some targetKey) (hnil : sourceKey ≠ [])
    (hroot : targetKey ≠ []) :
    (fs.establishTarget sourceKey targetKey).Returns plan world fun done after =>
      (done = true ∧ ∃ body,
        after.store = world.store.put (marker fs.config.suffix targetKey) body ∧
        (body = [] ∨ world.store.objects.body? (marker fs.config.suffix sourceKey) = some body) ∧
        (plan = .quiet → ∀ o, world.store.objects[marker fs.config.suffix sourceKey]? = some o →
          body = o.body)) ∨
      (done = false ∧ after.store = world.store ∧ plan ≠ .quiet) := by
  rw [establishTarget]
  refine (returns_classify hr hm hsource hnil).bind fun kind seen ⟨hseen, hsees⟩ => ?_
  have hm' := hm.of_eq hseen
  by_cases hkind : kind = .directory
  · rw [if_pos hkind, markerKey_eq hsource, markerKey_eq htarget, pure_bind, pure_bind]
    have hstored : marker fs.config.suffix sourceKey ∈ world.store.objects := by
      rw [hkind] at hsees
      generalize seen.requests = later at hsees
      cases hsees with
      | directory h => exact h.2
    refine (returns_copyKey hr hm' _ _).mono ?_
    rw [hseen]
    rintro done after (⟨rfl, -, -, o, ho, hstore⟩ | ⟨rfl, hpass, hstore⟩)
    · refine Or.inl ⟨rfl, o.body, hstore, Or.inr (Objects.body?_of_getElem? ho), ?_⟩
      exact fun _ o' ho' => congrArg Object.body (Option.some.inj (ho.symm.trans ho'))
    · refine Or.inr ⟨rfl, hstore, fun hplan => hpass ⟨?_, hstored⟩⟩
      exact passes_copy_of_quiet hplan (fs.marker_ne_nil targetKey)
  · rw [if_neg hkind]
    refine (returns_ensureMarker hr hm' htarget hroot).mono ?_
    rw [hseen]
    rintro done after ⟨-, ⟨rfl, -, hstore⟩ | ⟨rfl, hpass, hstore⟩⟩
    · refine Or.inl ⟨rfl, [], hstore, Or.inl rfl, ?_⟩
      rintro rfl o ho
      exact absurd (Objects.mem_of_getElem? ho) (hsees.notMem_marker hkind)
    · exact Or.inr ⟨rfl, hstore, fun hplan =>
        hpass (passes_put_of_quiet hplan (fs.marker_ne_nil targetKey))⟩

/-- Moves one entry of a directory. -/
def moveEntry (fs : FileSystem) (depth : Nat) (source target : Path) (sourceKey targetKey : Key)
    (entry : Status) : StoreM Bool := do
  let childSource := Key.concat sourceKey entry.name
  let childTarget := Key.concat targetKey entry.name
  let moved ←
    if entry.isDirectory then fs.renameWithin depth childSource childTarget
    else fs.renameFile childSource childTarget
  if moved then return true
  log .error "Failed to rename path, aborting rename".toList
    [("child", .text childSource), ("src", .text source), ("dst", .text target)]
  return false

/-- Moves the entries of a directory and deletes what is left of it. -/
def moveEntries (fs : FileSystem) (depth : Nat) (source target : Path) (sourceKey targetKey : Key)
    (entries : List Status) : StoreM Bool := do
  let moved ← entries.allM (fs.moveEntry depth source target sourceKey targetKey)
  if moved then fs.deleteDirectory sourceKey true else return false

include hr hm in
/-- A rename of a directory declines, or it begins and its outcome is that of moving the entries. -/
theorem outcome_renameWithin_succ {depth : Nat} (P : Except Error Bool × World → Prop)
    (hsource : normalize? fs.root source = some sourceKey)
    (htarget : normalize? fs.root target = some targetKey)
    (hdeclines : ∀ after : World, fs.Declines plan sourceKey targetKey world.store after.store →
      P (.ok false, after))
    (hbegins : ∀ entries listed looked body, ∀ between : World,
      fs.Begins plan sourceKey targetKey world.store entries listed looked body →
      between.store = looked.put (marker fs.config.suffix targetKey) body →
      P ((fs.moveEntries depth source target sourceKey targetKey entries).exec plan between)) :
    P ((fs.renameWithin (depth + 1) source target).exec plan world) := by
  rw [renameWithin, key_eq hsource, key_eq htarget, pure_bind, pure_bind]
  by_cases hroot : sourceKey = [] ∨ targetKey = []
  · rw [if_pos (by simpa [isRoot] using hroot)]
    refine (returns_refuse _).outcome P ?_
    rintro done after ⟨rfl, hstore⟩
    exact hdeclines after (hstore ▸ .root hroot)
  rw [if_neg (by simpa [isRoot] using hroot)]
  obtain ⟨hnil, htargetNil⟩ := not_or.mp hroot
  by_cases hinside : targetKey = sourceKey ∨ childPrefix sourceKey <+: targetKey
  · rw [if_pos hinside]
    refine (returns_refuse _).outcome P ?_
    rintro done after ⟨rfl, hstore⟩
    exact hdeclines after (hstore ▸ .inside hinside)
  rw [if_neg hinside]
  obtain ⟨hne, hnotInside⟩ := not_or.mp hinside
  refine (returns_listStatus hr hm hsource).bind_outcome P ?_
  rintro reply listed ⟨hlisted, hreply⟩
  cases reply with
  | none =>
    refine (StoreM.returns_log ..).bind_outcome P ?_
    rintro - after ⟨hafter, -⟩
    refine hdeclines after (hafter ▸ .unlisted hlisted fun hplan hdir => ?_)
    obtain ⟨request, hkey, hfails⟩ := hreply hdir
    exact hfails.ne_quiet hkey hplan
  | some entries =>
    obtain ⟨hdir, hlisting⟩ := hreply
    have hm' := hlisted.mounted hm
    refine (returns_exists? hr hm' htarget).bind_outcome P fun found looked hlooked => ?_
    obtain ⟨htaken, hquiet, hlooked⟩ := hlooked
    cases found with
    | true =>
      refine (returns_refuse _).outcome P ?_
      rintro done after ⟨rfl, hstore⟩
      exact hdeclines after (hstore ▸ .taken hlisted hlooked (htaken rfl))
    | false =>
      rw [if_neg (by simp)]
      have hm'' := hlooked.mounted hm'
      refine (returns_establishTarget hr hm'' (hm.normalize?_key hsource)
        (hm.normalize?_key htarget) hnil htargetNil).bind_outcome P fun done between hdone => ?_
      rcases hdone with ⟨rfl, body, hstore, hbody, hbodyQuiet⟩ | ⟨rfl, hstore, hplan⟩
      · rw [if_neg (by simp)]
        refine hbegins entries listed.store looked.store body between ?_ hstore
        exact ⟨hnil, htargetNil, hne, hnotInside, hdir, hlisted, hlisting, hlooked,
          fun hplan hexists => Bool.false_ne_true (hquiet hplan hexists), hbody, hbodyQuiet⟩
      · rw [if_pos (by simp)]
        exact hdeclines between (hstore ▸ .unestablished hlisted hlooked hplan)

include hr hm in
/-- A rename of a directory declines, or it begins and moves the entries. -/
theorem returns_renameWithin_succ {depth : Nat} {post : Bool → World → Prop}
    (hsource : normalize? fs.root source = some sourceKey)
    (htarget : normalize? fs.root target = some targetKey)
    (hdeclines : ∀ after : World, fs.Declines plan sourceKey targetKey world.store after.store →
      post false after)
    (hbegins : ∀ entries listed looked body, ∀ between : World,
      fs.Begins plan sourceKey targetKey world.store entries listed looked body →
      between.store = looked.put (marker fs.config.suffix targetKey) body →
      (fs.moveEntries depth source target sourceKey targetKey entries).Returns plan between post) :
    (fs.renameWithin (depth + 1) source target).Returns plan world post :=
  outcome_renameWithin_succ hr hm
    (fun outcome => ∃ done after, outcome = (.ok done, after) ∧ post done after) hsource htarget
    (fun after hafter => ⟨false, after, rfl, hdeclines after hafter⟩) hbegins

end KeyTree.FileSystem
