import KeyTree.Proofs.FileSystem.RenameDirectory

/-!
# What renaming a directory does to a bucket

A rename of a directory has enough levels for every tree in the bucket. In a well-formed bucket it
loses nothing, whichever requests are refused, and if none is it succeeds exactly when it should. In
a bucket with other keys it can succeed and drop what its listings do not show.

## Main definitions

* `FileSystem.CanRename` — when a directory can be renamed.
* `FileSystem.OnlyMarks` — changes that write markers of implicit directories and nothing else.

## Main results

* `FileSystem.renameDirectory_keeps` — nothing is lost in a well-formed bucket.
* `FileSystem.renameDirectory_done_iff` — when a rename succeeds in a well-formed bucket.
* `FileSystem.renameDirectory_carries_iff` — what a rename that succeeds has carried over.
-/

namespace KeyTree.FileSystem

open Key Objects

variable {fs : FileSystem} {plan : Plan} {world : World} {sourcePath targetPath : Path}
  {source target : Key}

/-! ### Levels -/

/-- A fold of maxima is above its start and above what it folds. -/
private theorem le_foldl_max (keys : List Key) (n : Nat) :
    n ≤ keys.foldl (fun longest key => max longest key.length) n ∧
      ∀ key ∈ keys, key.length ≤ keys.foldl (fun longest key => max longest key.length) n := by
  induction keys generalizing n with
  | nil => simp
  | cons key keys ih =>
    obtain ⟨hstart, hkeys⟩ := ih (max n key.length)
    refine ⟨(Nat.le_max_left ..).trans hstart, fun k hk => ?_⟩
    rcases List.mem_cons.mp hk with rfl | hk
    · exact (Nat.le_max_right ..).trans hstart
    · exact hkeys k hk

/-- A rename of a directory has more levels than any key has characters. -/
theorem exec_renameDirectory (fs : FileSystem) (plan : Plan) (world : World)
    (sourcePath targetPath : Path) :
    ∃ depth, (∀ k ∈ world.store.objects, k.length < depth + 1) ∧
      (fs.renameDirectory sourcePath targetPath).exec plan world =
        (fs.renameWithin (depth + 1) sourcePath targetPath).exec plan world := by
  have hlonger := le_foldl_max world.store.objects.keys plan.longestName
  have hbound : StoreM.depthBound.exec plan world = (.ok (world.store.objects.keys.foldl
      (fun longest key => max longest key.length) plan.longestName + 1), world) := rfl
  refine ⟨world.store.objects.keys.foldl (fun longest key => max longest key.length)
    plan.longestName, fun k hk => ?_, ?_⟩
  · exact Nat.lt_succ_of_le (hlonger.2 k (Std.ExtTreeMap.mem_keys.mpr hk))
  · rw [renameDirectory, StoreM.exec_bind, hbound]

theorem returns_renameDirectory {post : Bool → World → Prop}
    (h : ∀ depth, (∀ k ∈ world.store.objects, k.length < depth + 1) →
      (fs.renameWithin (depth + 1) sourcePath targetPath).Returns plan world post) :
    (fs.renameDirectory sourcePath targetPath).Returns plan world post := by
  obtain ⟨depth, hdepth, hexec⟩ := exec_renameDirectory fs plan world sourcePath targetPath
  obtain ⟨done, after, hrun, hpost⟩ := h depth hdepth
  exact ⟨done, after, hexec.trans hrun, hpost⟩

/-- When a directory can be renamed: both keys are below the root, the target is not in the source,
the source is a directory, and the target is neither a file nor a directory. -/
structure CanRename (suffix : List Char) (objects : Objects) (source target : Key) : Prop where
  source_ne_nil : source ≠ []
  target_ne_nil : target ≠ []
  target_ne_source : target ≠ source
  not_inside : ¬ childPrefix source <+: target
  isDirectory : objects.IsDirectory suffix source
  notMem_target : target ∉ objects
  not_isDirectory_target : ¬ objects.IsDirectory suffix target

variable (hr : plan.Refuses) (hm : fs.Mounted world.store)
  (hsource : normalize? fs.root sourcePath = some source)
  (htarget : normalize? fs.root targetPath = some target)

include hr hm hsource htarget in
/-- Renaming a directory to a target that is not there. -/
theorem returns_renameDirectory_vacant (hnil : source ≠ []) (hroot : target ≠ [])
    (hne : target ≠ source) (hinside : ¬ childPrefix source <+: target)
    (hvacant : ¬ world.store.objects.IsDirectory fs.config.suffix target)
    (hempty : plan = .quiet ∨ ∀ k o, InTree fs.config.suffix source k →
      fs.config.suffix <:+ k → world.store.objects[k]? = some o → o.body = []) :
    (fs.renameDirectory sourcePath targetPath).Returns plan world fun done after =>
      fs.Renamed plan source target world.store.objects done after.store := by
  refine returns_renameDirectory fun depth hdepth => ?_
  have hsourceNormal := (isNormal_of_normalize? hsource).resolve_left hnil
  have htargetNormal := (isNormal_of_normalize? htarget).resolve_left hroot
  refine returns_renameWithin hr (depth + 1) hsource htarget hm ⟨hsourceNormal, htargetNormal, hne,
    hinside, (not_isDirectory_iff hroot).mp hvacant, Nat.succ_pos _, fun k hk _ => ?_, hempty⟩
  have hlt := hdepth k hk
  have hle : k.count separator ≤ k.length := List.count_le_length
  omega

include hr hm hsource htarget in
/-- In a well-formed bucket a rename of a directory to a target that is not there answers and loses
nothing, whichever requests are refused: every object of the source is at the source or at the
target, and what is at the target is a copy of it. -/
theorem renameDirectory_keeps (hwf : world.store.objects.WellFormed fs.config.suffix)
    (hnil : source ≠ []) (hroot : target ≠ []) (hne : target ≠ source)
    (hinside : ¬ childPrefix source <+: target)
    (hdirectory : ¬ world.store.objects.IsDirectory fs.config.suffix target) :
    (fs.renameDirectory sourcePath targetPath).Returns plan world fun _ after =>
      ∀ r o, world.store.objects[childPrefix source ++ r]? = some o →
        (after.store.objects.body? (childPrefix source ++ r) = some o.body ∨
          after.store.objects.body? (childPrefix target ++ r) = some o.body) ∧
        ∀ o', after.store.objects[childPrefix target ++ r]? = some o' → o'.body = o.body := by
  have hin := hwf.within fs.config.separator_notMem_suffix source
  refine (returns_renameDirectory_vacant hr hm hsource htarget hnil hroot hne hinside hdirectory
    (Or.inr hin.marker_empty)).mono fun done after hrenamed r o ho => ?_
  have htail : IsTail fs.config.suffix (separator :: r) := Or.inr ⟨r, rfl⟩
  rw [childPrefix_append hnil] at ho ⊢
  rw [childPrefix_append hroot]
  have hmoves := hrenamed.moves.tail _ htail
  exact ⟨hmoves.kept (hin.carries_below fs.config.separator_notMem_suffix hnil
    (mem_of_getElem? ho)) o ho, fun o' => hmoves.copied o o' ho⟩

/-- A bucket with a file and a file in a directory. -/
def smallTree : World :=
  { store := .holding ['b'] [("s/x".toList, [1]), ("s/n/y".toList, [2])] }

/-- The removal of the file `s/x` is refused. -/
def sourceStays : Plan :=
  Script.plan [{ method := some .delete, key := some "s/x".toList,
                 effect := .fail (.store (.transport (.unreachable "endpoint"))) false }]

theorem mounted_smallTree : plainBucket.Mounted smallTree.store :=
  ⟨rfl, 'b', by decide, by decide⟩

theorem normalize?_plainBucket_s : normalize? plainBucket.root ['s'] = some ['s'] := rfl

theorem normalize?_plainBucket_d : normalize? plainBucket.root ['d'] = some ['d'] := rfl

theorem wellFormed_smallTree :
    smallTree.store.objects.WellFormed plainBucket.config.suffix := by
  refine wellFormed_of_files plainBucket.config.separator_notMem_suffix fun k hk => ?_
  obtain ⟨entry, hentry, rfl⟩ := Store.mem_holding.mp hk
  rw [smallTree, hasBelow_holding]
  revert entry
  decide

theorem canRename_smallTree :
    CanRename plainBucket.config.suffix smallTree.store.objects ['s'] ['d'] := by
  refine ⟨by decide, by decide, by decide, by decide, ?_, ?_, ?_⟩
  · refine HasBelow.isDirectory ?_
    rw [smallTree, hasBelow_holding]
    decide
  · rw [smallTree, Store.mem_holding]
    decide
  · rw [IsDirectory, smallTree, hasBelow_holding, Store.mem_holding]
    decide

theorem renameDirectory_keeps_smallTree :
    (plainBucket.renameDirectory ['s'] ['d']).Returns sourceStays smallTree fun _ after =>
      after.store.objects.body? "s/x".toList = some [1] ∨
        after.store.objects.body? "d/x".toList = some [1] := by
  have hr : sourceStays.Refuses := Script.refuses_plan fun rule hrule => by
    rw [List.mem_singleton.mp hrule]
    exact ⟨_, rfl⟩
  have h := canRename_smallTree
  refine (renameDirectory_keeps hr mounted_smallTree normalize?_plainBucket_s
    normalize?_plainBucket_d wellFormed_smallTree h.source_ne_nil h.target_ne_nil h.target_ne_source
    h.not_inside h.not_isDirectory_target).mono ?_
  intro done after hkeeps
  exact (hkeeps ['x'] ⟨[1], 1⟩ (by decide +kernel)).1

/-! ### Undisturbed renames -/

/-- A change *only marks* some keys when it writes empty markers of those among them that are
implicit directories, and these only if the configuration says so. -/
def OnlyMarks (fs : FileSystem) (keys : List Key) (before after : Objects) : Prop :=
  ∀ k, after[k]? = before[k]? ∨ (fs.config.materialize = true ∧ after.body? k = some [] ∧
    ∃ key ∈ keys, before.IsImplicit fs.config.suffix key ∧ k = marker fs.config.suffix key)

theorem Settles.onlyMarks {key : Key} {store after : Store}
    (h : fs.Settles .quiet key store after) : fs.OnlyMarks [key] store.objects after.objects := by
  cases h with
  | same => exact fun _ => Or.inl rfl
  | marked hkey hmaterialize hbelow hquiet =>
    intro k
    by_cases hk : k = marker fs.config.suffix key
    · subst hk
      exact Or.inr ⟨hmaterialize, body?_put_self .., key, by simp, ⟨hkey, hquiet rfl, hbelow⟩, rfl⟩
    · exact Or.inl (getElem?_put_of_ne store [] hk)

theorem OnlyMarks.trans {keys keys' : List Key} {before between after : Objects}
    (h : fs.OnlyMarks keys before between) (h' : fs.OnlyMarks keys' between after)
    (himplicit : ∀ key, between.IsImplicit fs.config.suffix key →
      before.IsImplicit fs.config.suffix key) : fs.OnlyMarks (keys ++ keys') before after := by
  intro k
  rcases h' k with hsame | ⟨hmaterialize, hbody, key, hkey, himp, rfl⟩
  · rcases h k with hsame' | ⟨hmaterialize, hbody, key, hkey, himp, rfl⟩
    · exact Or.inl (hsame.trans hsame')
    · exact Or.inr ⟨hmaterialize, (body?_congr hsame).trans hbody, key,
        List.mem_append_left _ hkey, himp, rfl⟩
  · exact Or.inr ⟨hmaterialize, hbody, key, List.mem_append_right _ hkey, himplicit key himp, rfl⟩

/-- What has keys below it after a question had some before. -/
theorem Settles.hasBelow_of {key other : Key} {store after : Store}
    (h : fs.Settles plan key store after) (hne : other ≠ [])
    (hbelow : after.objects.HasBelow other) : store.objects.HasBelow other := by
  cases h with
  | same => exact hbelow
  | marked _ _ hunder _ =>
    exact (hasBelow_put_marker_iff fs.config.separator_notMem_suffix hunder hne).mp hbelow

/-- A directory that is implicit after a question was so before. -/
theorem Settles.isImplicit_of {key other : Key} {store after : Store}
    (h : fs.Settles plan key store after)
    (himplicit : after.objects.IsImplicit fs.config.suffix other) :
    store.objects.IsImplicit fs.config.suffix other :=
  ⟨himplicit.1, fun hmem => himplicit.2.1 (h.mem hmem), h.hasBelow_of himplicit.1 himplicit.2.2⟩

/-- A directory after a question was one before. -/
theorem Settles.isDirectory_of {key other : Key} {store after : Store}
    (h : fs.Settles plan key store after)
    (hdir : after.objects.IsDirectory fs.config.suffix other) :
    store.objects.IsDirectory fs.config.suffix other := by
  by_cases hne : other = []
  · exact Or.inl hne
  rcases hdir.resolve_left hne with hmarker | hbelow
  · cases h with
    | same => exact Or.inr (Or.inl hmarker)
    | marked hkey _ hunder _ =>
      by_cases hother : other = key
      · subst hother
        exact hunder.isDirectory
      · refine Or.inr (Or.inl ((mem_congr (getElem?_put_of_ne store [] ?_)).mp hmarker))
        exact fun heq => hother (marker_injective heq)
  · exact (h.hasBelow_of hne hbelow).isDirectory

/-- A rename that declines while nothing is refused only marks its paths. -/
theorem Declines.onlyMarks {store after : Store}
    (h : fs.Declines .quiet source target store after) :
    fs.OnlyMarks [source, target] store.objects after.objects := by
  cases h with
  | root | inside => exact fun _ => Or.inl rfl
  | unlisted hlisted =>
    intro k
    rcases hlisted.onlyMarks k with hsame | ⟨hmaterialize, hbody, key, hkey, hmarked⟩
    · exact Or.inl hsame
    · exact Or.inr ⟨hmaterialize, hbody, key,
        List.mem_cons.mpr (Or.inl (List.mem_singleton.mp hkey)), hmarked⟩
  | taken hlisted hlooked =>
    exact hlisted.onlyMarks.trans hlooked.onlyMarks fun key => hlisted.isImplicit_of
  | unestablished _ _ h => exact absurd rfl h

/-- A rename that begins while nothing is refused could be asked for. -/
theorem Begins.canRename {store listed looked : Store} {entries : List Status} {body : Bytes}
    (h : fs.Begins .quiet source target store entries listed looked body) :
    CanRename fs.config.suffix store.objects source target :=
  ⟨h.source_ne_nil, h.target_ne_nil, h.target_ne_source, h.not_inside, h.isDirectory,
    fun hmem => h.target_free rfl (Or.inl (h.listing.mem hmem)),
    fun hdir => h.target_free rfl (Or.inr (h.listing.isDirectory hdir))⟩

include hm hsource htarget in
/-- A rename that cannot be asked for declines. -/
theorem returns_renameDirectory_of_not_canRename
    (h : ¬ CanRename fs.config.suffix world.store.objects source target) :
    (fs.renameDirectory sourcePath targetPath).Returns .quiet world fun done after =>
      done = false ∧ fs.OnlyMarks [source, target] world.store.objects after.store.objects := by
  refine returns_renameDirectory fun depth _ => ?_
  refine returns_renameWithin_succ Plan.refuses_quiet hm hsource htarget
    (fun after hdeclines => ⟨rfl, hdeclines.onlyMarks⟩) ?_
  intro _ _ _ _ _ hbegins _
  exact absurd hbegins.canRename h

include hm hsource htarget in
/-- If nothing is refused, a rename in a well-formed bucket succeeds exactly when it can be asked
for, and otherwise it changes nothing but to mark its paths. -/
theorem renameDirectory_done_iff (hwf : world.store.objects.WellFormed fs.config.suffix)
    (hunmarked : Unmarked fs.config.suffix target) :
    (fs.renameDirectory sourcePath targetPath).Returns .quiet world fun done after =>
      (done = true ↔ CanRename fs.config.suffix world.store.objects source target) ∧
      (done = false →
        fs.OnlyMarks [source, target] world.store.objects after.store.objects) := by
  by_cases h : CanRename fs.config.suffix world.store.objects source target
  · refine (returns_renameDirectory_vacant Plan.refuses_quiet hm hsource htarget h.source_ne_nil
      h.target_ne_nil h.target_ne_source h.not_inside h.not_isDirectory_target (Or.inl rfl)).mono ?_
    intro done after hrenamed
    have hs := fs.config.separator_notMem_suffix
    have hdone : done = true := by
      refine hrenamed.succeeds rfl (hwf.within hs source) h.isDirectory h.notMem_target ?_
      rintro rfl
      exact not_suffix_of_unmarked hs hunmarked (suffix_marker ..)
    exact ⟨iff_of_true hdone h, fun hnot => absurd (hdone.symm.trans hnot) (by decide)⟩
  · refine (returns_renameDirectory_of_not_canRename hm hsource htarget h).mono ?_
    rintro done after ⟨rfl, honly⟩
    exact ⟨iff_of_false (by decide) h, fun _ => honly⟩

theorem renameDirectory_done_smallTree :
    ∃ after,
      (plainBucket.renameDirectory ['s'] ['d']).exec .quiet smallTree = (.ok true, after) := by
  obtain ⟨done, after, hrun, hiff, -⟩ :=
    renameDirectory_done_iff mounted_smallTree normalize?_plainBucket_s normalize?_plainBucket_d
      wellFormed_smallTree (by decide)
  rw [hiff.mpr canRename_smallTree] at hrun
  exact ⟨after, hrun⟩

include hm hsource htarget in
/-- If nothing is refused and a rename succeeds, nothing is left of the source, and the objects that
are afterwards at the target with their bodies are exactly those that the listings on the way
show. -/
theorem renameDirectory_carries_iff :
    (fs.renameDirectory sourcePath targetPath).Returns .quiet world fun done after =>
      done = true → after.store.objects.IsVacant fs.config.suffix source ∧
        ∀ r o, world.store.objects[childPrefix source ++ r]? = some o →
          (after.store.objects.body? (childPrefix target ++ r) = some o.body ↔
            world.store.objects.Carries fs.config.suffix source (separator :: r)) := by
  by_cases h : CanRename fs.config.suffix world.store.objects source target
  · refine (returns_renameDirectory_vacant Plan.refuses_quiet hm hsource htarget h.source_ne_nil
      h.target_ne_nil h.target_ne_source h.not_inside h.not_isDirectory_target (Or.inl rfl)).mono ?_
    refine fun done after hrenamed hdone => ⟨hrenamed.vacated hdone, fun r o ho => ?_⟩
    have htail : IsTail fs.config.suffix (separator :: r) := Or.inr ⟨r, rfl⟩
    have hmoves := hrenamed.moves.tail _ htail
    rw [childPrefix_append h.source_ne_nil] at ho
    rw [childPrefix_append h.target_ne_nil]
    refine ⟨fun hbody => ?_, fun hcarries => hmoves.arrived hdone hcarries o ho⟩
    obtain ⟨o', ho', -⟩ := exists_of_body? hbody
    exact hmoves.carried (mem_of_getElem? ho')
  · refine (returns_renameDirectory_of_not_canRename hm hsource htarget h).mono ?_
    rintro done after ⟨rfl, -⟩ hdone
    exact Bool.noConfusion hdone

/-- A bucket with a key that has an empty segment. -/
def emptySegment : World :=
  { store := .holding ['b'] [("s/x".toList, [1]), ("s//y".toList, [2])] }

/-- A rename succeeds and drops an object, since its key has an empty segment. -/
theorem renameDirectory_drops_empty_segment :
    ∃ after,
      (plainBucket.renameDirectory ['s'] ['d']).exec .quiet emptySegment = (.ok true, after) ∧
      emptySegment.store.objects.body? "s//y".toList = some [2] ∧
      after.store.objects.body? "s//y".toList = none ∧
      after.store.objects.body? "d//y".toList = none :=
  ⟨((plainBucket.renameDirectory ['s'] ['d']).exec .quiet emptySegment).2,
    StoreM.exec_eq_of_fst (by decide +kernel), by decide +kernel, by decide +kernel,
    by decide +kernel⟩

theorem not_carries_empty_segment :
    ¬ emptySegment.store.objects.Carries plainBucket.config.suffix ['s'] "//y".toList := by
  have hm : plainBucket.Mounted emptySegment.store := ⟨rfl, 'b', by decide, by decide⟩
  have hrun : (plainBucket.renameDirectory ['s'] ['d']).exec .quiet emptySegment =
      (.ok true, ((plainBucket.renameDirectory ['s'] ['d']).exec .quiet emptySegment).2) :=
    StoreM.exec_eq_of_fst (by decide +kernel)
  obtain ⟨done, hdone, hpost⟩ := (renameDirectory_carries_iff hm normalize?_plainBucket_s
    normalize?_plainBucket_d).of_exec hrun
  obtain ⟨-, hiff⟩ := hpost (Except.ok.inj hdone).symm
  have hshown := hiff "/y".toList ⟨[2], 2⟩ (by decide +kernel)
  intro hcarries
  exact absurd (hshown.mpr hcarries) (by decide +kernel)

end KeyTree.FileSystem
