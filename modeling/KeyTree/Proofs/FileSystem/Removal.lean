import KeyTree.FileSystem.Delete
import KeyTree.Proofs.FileSystem.Lookup
import KeyTree.Proofs.Listing.Names

/-!
# Removing a directory

The keys below a directory are listed and then removed one by one in their order, and its marker is
removed at the end. If the listing cannot be completed nothing is removed; if a removal fails the
keys after it stay, the marker among them. The removal succeeds exactly if no request fails, and
then the tree of the directory is empty and nothing else has changed.

## Main definitions

* `Objects.Prunes`, `Objects.Removes` — contents from which some keys may have been removed, and
  those from which exactly some keys have been.
* `FileSystem.Removing`, `FileSystem.RemovesInOrder` — what holds while keys are removed one by one,
  and how that ends.
* `FileSystem.RemovesTree` — how removing a directory with everything in it ends.

## Main results

* `FileSystem.returns_subtreeKeys` — the keys below a directory.
* `FileSystem.returns_removesTree`, `FileSystem.returns_deleteDirectory` — removing a directory with
  everything in it, request by request, and in short.
* `FileSystem.deleteDirectory_removes_initial` — whatever is refused, the removed keys are an initial
  part of those below the directory, unless all of them and the marker are removed.
-/

namespace KeyTree

open Key Listing

/-- Removing keys of some kind, and nothing else, turns the one contents into the other. -/
def Objects.Prunes (removable : Key → Prop) (objects objects' : Objects) : Prop :=
  ∀ k, objects'[k]? = objects[k]? ∨ (removable k ∧ objects'[k]? = none)

theorem Objects.Prunes.getElem?_eq {removable : Key → Prop} {objects objects' : Objects}
    (h : Prunes removable objects objects') {k : Key} (hk : ¬ removable k) :
    objects'[k]? = objects[k]? :=
  (h k).resolve_right fun hgone => hk hgone.1

/-- Removing exactly the keys of a list turns the one contents into the other. -/
def Objects.Removes (removed : List Key) (objects objects' : Objects) : Prop :=
  ∀ k, objects'[k]? = if k ∈ removed then none else objects[k]?

namespace Objects.Removes

variable {removed : List Key} {objects objects' : Objects}

theorem nil (objects : Objects) : Removes [] objects objects :=
  fun _ => (if_neg List.not_mem_nil).symm

theorem snoc {store : Store} (h : Removes removed objects store.objects) (key : Key) :
    Removes (removed ++ [key]) objects (store.remove key).objects := by
  intro k
  by_cases hk : k = key
  · rw [hk, getElem?_remove_self, if_pos (by simp)]
  · rw [getElem?_remove_of_ne store hk, h k]
    simp [hk]

theorem getElem?_eq (h : Removes removed objects objects') {k : Key} (hk : k ∉ removed) :
    objects'[k]? = objects[k]? := by
  rw [h k, if_neg hk]

theorem notMem (h : Removes removed objects objects') {k : Key} (hk : k ∈ removed) :
    k ∉ objects' := by
  rw [notMem_iff, h k, if_pos hk]

theorem prunes (h : Removes removed objects objects') {removable : Key → Prop}
    (hremovable : ∀ k ∈ removed, removable k) : Prunes removable objects objects' := by
  intro k
  by_cases hk : k ∈ removed
  · exact Or.inr ⟨hremovable k hk, notMem_iff.mp (h.notMem hk)⟩
  · exact Or.inl (h.getElem?_eq hk)

end Objects.Removes

namespace FileSystem

variable {fs : FileSystem} {plan : Plan} {world : World} {path : Path} {key : Key}
  (hr : plan.Refuses) (hm : fs.Mounted world.store)

include hr hm in
/-- Removing an object succeeds exactly if the request passes. -/
theorem returns_deleteKey (key : Key) :
    (fs.deleteKey key).Returns plan world fun done after =>
      after.requests = .delete key :: world.requests ∧
      ((done = true ∧ plan.Passes world.requests (.delete key) ∧
          after.store = world.store.remove key) ∨
        (done = false ∧ ¬ plan.Passes world.requests (.delete key) ∧
          after.store = world.store)) := by
  rw [deleteKey]
  refine (Bucket.returns_delete hr hm.bucket_eq key).bind fun reply between hreply => ?_
  obtain ⟨hrequests, ⟨hpass, rfl, hstore⟩ | ⟨hpass, ⟨fault, rfl⟩, hstore⟩⟩ := hreply
  · exact StoreM.returns_pure_iff.mpr ⟨hrequests, Or.inl ⟨rfl, hpass, hstore⟩⟩
  · refine StoreM.returns_log_bind fun after hafter hsent => StoreM.returns_pure_iff.mpr ?_
    exact ⟨hsent.trans hrequests, Or.inr ⟨rfl, hpass, hafter.trans hstore⟩⟩

include hr hm in
/-- The keys below a directory are listed in their order, or a request for a page of them fails. -/
theorem returns_subtreeKeys (key : Key) :
    (fs.subtreeKeys key).Returns plan world fun reply after =>
      after.store = world.store ∧ world.requests <:+ after.requests ∧
      match reply with
      | some keys => keys = world.store.objects.keysUnder (childPrefix key) ∧
          ∀ request, ¬ plan.Fails world.requests after.requests request
      | none => ∃ query, plan.Fails world.requests after.requests (.list query) := by
  rw [subtreeKeys]
  refine (returns_allPages hr hm true).map fun reply after ⟨hstore, hsent, hreply⟩ =>
    ⟨hstore, hsent, ?_⟩
  cases reply with
  | none => exact hreply
  | some found =>
    obtain ⟨rfl, hpass⟩ := hreply
    refine ⟨?_, hpass⟩
    dsimp only
    rw [← List.map_flatMap, flatMap_objects_pages fs.config.pageSize_pos,
      filterMap_summary?_recursive]

/-! ### Removing keys in order -/

/-- How removing keys one by one ends: all of them are removed, or an initial part up to a request
that fails. If already the keys could not be listed, nothing is removed. -/
structure RemovesInOrder (fs : FileSystem) (plan : Plan) (keys : List Key) (before : World)
    (done : Bool) (after : World) : Prop where
  mounted : fs.Mounted after.store
  requests : before.requests <:+ after.requests
  complete : done = true → Objects.Removes keys before.store.objects after.store.objects ∧
    ∀ request, ¬ plan.Fails before.requests after.requests request
  incomplete : done = false →
    ∃ removed, removed <+: keys ∧
      Objects.Removes removed before.store.objects after.store.objects
  fails : done = false → ∃ request, ([] ∉ keys → request.hasKey = true) ∧
    plan.Fails before.requests after.requests request
  unlisted : ∀ query, plan.Fails before.requests after.requests (.list query) →
    after.store = before.store

/-- What holds while keys are removed one by one: those that are no longer in the rest are gone, and
all requests have passed. -/
structure Removing (fs : FileSystem) (plan : Plan) (keys : List Key) (before : World)
    (rest : List Key) (between : World) : Prop where
  mounted : fs.Mounted between.store
  requests : before.requests <:+ between.requests
  passed : ∀ request, ¬ plan.Fails before.requests between.requests request
  removed : ∃ removed, removed ++ rest = keys ∧
    Objects.Removes removed before.store.objects between.store.objects

theorem removing_start (hm : fs.Mounted world.store) (keys : List Key) :
    fs.Removing plan keys world keys world :=
  ⟨hm, List.suffix_rfl, fun _ => Plan.not_fails_self, [], rfl, .nil _⟩

variable {keys rest : List Key} {between after : World} {k : Key}

/-- A key has been removed. -/
theorem Removing.step (h : fs.Removing plan keys world (k :: rest) between)
    (hpass : plan.Passes between.requests (.delete k))
    (hrequests : after.requests = .delete k :: between.requests)
    (hstore : after.store = between.store.remove k) :
    fs.Removing plan keys world rest after := by
  obtain ⟨removed, hkeys, hremoves⟩ := h.removed
  refine ⟨?_, ?_, fun request hfails => ?_, removed ++ [k], ?_, ?_⟩
  · rw [hstore]
    exact h.mounted.remove k
  · rw [hrequests]
    exact h.requests.trans (List.suffix_cons ..)
  · rw [hrequests, Plan.fails_cons_iff_of_passed h.requests h.passed] at hfails
    exact hfails.2 hpass
  · rw [List.append_assoc]
    exact hkeys
  · rw [hstore]
    exact hremoves.snoc k

/-- A key could not be removed. -/
theorem Removing.stop (h : fs.Removing plan keys world (k :: rest) between)
    (hpass : ¬ plan.Passes between.requests (.delete k))
    (hrequests : after.requests = .delete k :: between.requests)
    (hstore : after.store = between.store) : fs.RemovesInOrder plan keys world false after := by
  obtain ⟨removed, hkeys, hremoves⟩ := h.removed
  have hfails : ∀ request, plan.Fails world.requests after.requests request ↔
      request = .delete k ∧ ¬ plan.Passes between.requests (.delete k) := fun request => by
    rw [hrequests, Plan.fails_cons_iff_of_passed h.requests h.passed]
  refine ⟨h.mounted.of_eq hstore, ?_, nofun, fun _ => ⟨removed, ⟨k :: rest, hkeys⟩, ?_⟩,
    fun _ => ⟨_, fun hnil => ?_, (hfails _).mpr ⟨rfl, hpass⟩⟩,
    fun query hquery => Request.noConfusion ((hfails _).mp hquery).1⟩
  · rw [hrequests]
    exact h.requests.trans (List.suffix_cons ..)
  · rw [hstore]
    exact hremoves
  · have hk : k ≠ [] := by
      rintro rfl
      exact hnil (by simp [← hkeys])
    simp [Request.hasKey, Request.target, hk]

/-- All keys have been removed. -/
theorem Removing.complete (h : fs.Removing plan keys world [] between) :
    fs.RemovesInOrder plan keys world true between := by
  obtain ⟨removed, hkeys, hremoves⟩ := h.removed
  rw [List.append_nil] at hkeys
  subst hkeys
  exact ⟨h.mounted, h.requests, fun _ => ⟨hremoves, h.passed⟩, nofun, nofun,
    fun query hquery => absurd hquery (h.passed _)⟩

include hr hm in
/-- Keys are removed one by one, in their order. -/
theorem returns_deleteKeys (directory : Key) (keys : List Key) :
    (fs.deleteKeys directory keys).Returns plan world
      (fs.RemovesInOrder plan keys world) := by
  rw [deleteKeys]
  refine StoreM.returns_allM (fs.Removing plan keys world) ?_ (fun _ h => h.complete) keys world
    (removing_start hm keys)
  intro k rest between h
  refine (returns_deleteKey hr h.mounted k).bind fun done after ⟨hrequests, hdone⟩ => ?_
  rcases hdone with ⟨rfl, hpass, hstore⟩ | ⟨rfl, hpass, hstore⟩
  · exact StoreM.returns_pure_iff.mpr ⟨fun _ => h.step hpass hrequests hstore, nofun⟩
  · refine StoreM.returns_log_bind fun final hfinal hsent => StoreM.returns_pure_iff.mpr ?_
    exact ⟨nofun, fun _ => h.stop hpass (hsent.trans hrequests) (hfinal.trans hstore)⟩

include hr hm in
/-- Clearing a directory removes the keys below it in their order. -/
theorem returns_clearDirectory (path : Path) (key : Key) :
    (fs.clearDirectory path key true).Returns plan world
      (fs.RemovesInOrder plan (world.store.objects.keysUnder (childPrefix key)) world) := by
  rw [clearDirectory, if_pos rfl]
  refine (returns_subtreeKeys hr hm key).bind ?_
  rintro reply between ⟨hstore, hsent, hreply⟩
  cases reply with
  | none =>
    obtain ⟨query, hfails⟩ := hreply
    refine StoreM.returns_pure_iff.mpr ⟨hm.of_eq hstore, hsent, nofun,
      fun _ => ⟨[], List.nil_prefix, ?_⟩, fun _ => ⟨_, fun _ => rfl, hfails⟩, fun _ _ => hstore⟩
    rw [hstore]
    exact .nil _
  | some keys =>
    obtain ⟨rfl, hpass⟩ := hreply
    refine (returns_deleteKeys hr (hm.of_eq hstore) key _).mono ?_
    rintro done after ⟨hm', hsent', hcomplete, hincomplete, hfails, hunlisted⟩
    rw [hstore] at hcomplete hincomplete hunlisted
    simp only [← Plan.fails_iff_of_passed hsent hpass hsent'] at hcomplete hfails hunlisted
    exact ⟨hm', hsent.trans hsent', hcomplete, hincomplete, hfails, hunlisted⟩

/-! ### Removing a directory with everything in it -/

/-- How removing a directory with everything in it ends: the keys below it and its marker are
removed, or an initial part of the keys up to a request that fails. -/
structure RemovesTree (fs : FileSystem) (plan : Plan) (key : Key) (before : World) (done : Bool)
    (after : World) : Prop where
  mounted : fs.Mounted after.store
  requests : before.requests <:+ after.requests
  complete : done = true → (∀ k, after.store.objects[k]? =
      if childPrefix key <+: k ∨ (key ≠ [] ∧ k = marker fs.config.suffix key) then none
      else before.store.objects[k]?) ∧
    ∀ request, ¬ plan.Fails before.requests after.requests request
  incomplete : done = false →
    ∃ removed, removed <+: before.store.objects.keysUnder (childPrefix key) ∧
      Objects.Removes removed before.store.objects after.store.objects
  fails : done = false → ∃ request, (key ≠ [] → request.hasKey = true) ∧
    plan.Fails before.requests after.requests request
  unlisted : ∀ query, plan.Fails before.requests after.requests (.list query) →
    after.store = before.store

/-- Removing the keys below a directory makes every key below it absent. -/
theorem removes_keysUnder {under : Key} {objects objects' : Objects}
    (h : Objects.Removes (objects.keysUnder under) objects objects') (k : Key) :
    objects'[k]? = if under <+: k then none else objects[k]? := by
  by_cases hk : under <+: k
  · rw [if_pos hk, h k]
    by_cases hmem : k ∈ objects
    · rw [if_pos (Objects.mem_keysUnder_iff.mpr ⟨hmem, hk⟩)]
    · rw [Objects.notMem_iff.mp hmem, ite_self]
  · rw [if_neg hk]
    exact h.getElem?_eq fun hmem => hk (Objects.mem_keysUnder_iff.mp hmem).2

/-- The keys below a directory could not all be removed, and its marker stays. -/
theorem RemovesInOrder.incomplete_tree
    (h : fs.RemovesInOrder plan (world.store.objects.keysUnder (childPrefix key)) world false
      after) : fs.RemovesTree plan key world false after := by
  refine ⟨h.mounted, h.requests, nofun, h.incomplete, fun hdone => ?_, h.unlisted⟩
  obtain ⟨request, hhas, hfails⟩ := h.fails hdone
  refine ⟨request, fun hkey => hhas fun hmem => ?_, hfails⟩
  have hbelow := (Objects.mem_keysUnder_iff.mp hmem).2
  rw [childPrefix_of_ne_nil hkey, List.prefix_nil] at hbelow
  simp at hbelow

/-- The root has no marker. -/
theorem RemovesInOrder.root_tree
    (h : fs.RemovesInOrder plan (world.store.objects.keysUnder (childPrefix [])) world true
      after) : fs.RemovesTree plan [] world true after := by
  obtain ⟨hremoves, hpassed⟩ := h.complete rfl
  refine ⟨h.mounted, h.requests, fun _ => ⟨fun k => ?_, hpassed⟩, nofun, nofun, h.unlisted⟩
  simpa using removes_keysUnder hremoves k

/-- The keys below a directory have been removed, and then its marker. -/
theorem RemovesInOrder.marker_removed
    (h : fs.RemovesInOrder plan (world.store.objects.keysUnder (childPrefix key)) world true
      between) (hkey : key ≠ [])
    (hpass : plan.Passes between.requests (.delete (marker fs.config.suffix key)))
    (hrequests : after.requests = .delete (marker fs.config.suffix key) :: between.requests)
    (hstore : after.store = between.store.remove (marker fs.config.suffix key)) :
    fs.RemovesTree plan key world true after := by
  obtain ⟨hremoves, hpassed⟩ := h.complete rfl
  have hpassed' : ∀ request, ¬ plan.Fails world.requests after.requests request := by
    intro request hfails
    rw [hrequests, Plan.fails_cons_iff_of_passed h.requests hpassed] at hfails
    exact hfails.2 hpass
  refine ⟨?_, ?_, fun _ => ⟨fun k => ?_, hpassed'⟩, nofun, nofun,
    fun query hquery => absurd hquery (hpassed' _)⟩
  · rw [hstore]
    exact h.mounted.remove _
  · rw [hrequests]
    exact h.requests.trans (List.suffix_cons ..)
  · rw [hstore]
    by_cases hk : k = marker fs.config.suffix key
    · rw [hk, Objects.getElem?_remove_self, if_pos (Or.inr ⟨hkey, rfl⟩)]
    · rw [Objects.getElem?_remove_of_ne _ hk, removes_keysUnder hremoves k]
      simp [hk]

/-- The keys below a directory have been removed, and its marker could not be. -/
theorem RemovesInOrder.marker_kept
    (h : fs.RemovesInOrder plan (world.store.objects.keysUnder (childPrefix key)) world true
      between)
    (hpass : ¬ plan.Passes between.requests (.delete (marker fs.config.suffix key)))
    (hrequests : after.requests = .delete (marker fs.config.suffix key) :: between.requests)
    (hstore : after.store = between.store) : fs.RemovesTree plan key world false after := by
  obtain ⟨hremoves, hpassed⟩ := h.complete rfl
  have hfails : ∀ request, plan.Fails world.requests after.requests request ↔
      request = .delete (marker fs.config.suffix key) ∧
        ¬ plan.Passes between.requests (.delete (marker fs.config.suffix key)) := fun request => by
    rw [hrequests, Plan.fails_cons_iff_of_passed h.requests hpassed]
  refine ⟨h.mounted.of_eq hstore, ?_, nofun, fun _ => ⟨_, List.prefix_rfl, ?_⟩,
    fun _ => ⟨_, fun _ => ?_, (hfails _).mpr ⟨rfl, hpass⟩⟩,
    fun query hquery => Request.noConfusion ((hfails _).mp hquery).1⟩
  · rw [hrequests]
    exact h.requests.trans (List.suffix_cons ..)
  · rw [hstore]
    exact hremoves
  · simp [Request.hasKey, Request.target, fs.marker_ne_nil]

include hr hm in
/-- Removing a directory with everything in it, request by request. -/
theorem returns_removesTree (hpath : normalize? fs.root path = some key) :
    (fs.deleteDirectory path true).Returns plan world (fs.RemovesTree plan key world) := by
  rw [deleteDirectory, key_eq hpath, pure_bind]
  refine (returns_clearDirectory hr hm path key).bind fun done between hcleared => ?_
  cases done with
  | false => exact StoreM.returns_pure_iff.mpr hcleared.incomplete_tree
  | true =>
    rw [if_neg (by simp)]
    by_cases hkey : key = []
    · subst hkey
      exact StoreM.returns_pure_iff.mpr hcleared.root_tree
    · rw [if_neg (by simpa [isRoot] using hkey), markerKey_eq (hm.normalize?_key hpath), pure_bind]
      refine (returns_deleteKey hr hcleared.mounted _).mono ?_
      rintro done after ⟨hrequests, ⟨rfl, hpass, hstore⟩ | ⟨rfl, hpass, hstore⟩⟩
      · exact hcleared.marker_removed hkey hpass hrequests hstore
      · exact hcleared.marker_kept hpass hrequests hstore

include hr hm in
/-- Removing a directory with everything in it changes nothing outside its tree, leaves nothing of
the tree if it succeeds, and succeeds if nothing is refused. -/
theorem returns_deleteDirectory (hpath : normalize? fs.root path = some key) (hkey : key ≠ []) :
    (fs.deleteDirectory path true).Returns plan world fun done after =>
      fs.Mounted after.store ∧
      Objects.Prunes (InTree fs.config.suffix key) world.store.objects after.store.objects ∧
      (done = true → after.store.objects.IsVacant fs.config.suffix key) ∧
      (plan = .quiet → done = true) := by
  refine (returns_removesTree hr hm hpath).mono fun done after h => ⟨h.mounted, ?_, ?_, ?_⟩
  · cases done with
    | false =>
      obtain ⟨removed, hinitial, hremoves⟩ := h.incomplete rfl
      exact hremoves.prunes fun k hk =>
        Or.inr (Objects.mem_keysUnder_iff.mp (hinitial.subset hk)).2
    | true =>
      intro k
      rw [(h.complete rfl).1 k]
      split
      · rename_i hin
        exact Or.inr ⟨hin.symm.imp_left And.right, rfl⟩
      · exact Or.inl rfl
  · rintro rfl k hin
    rw [Objects.notMem_iff, (h.complete rfl).1 k, if_pos]
    exact hin.symm.imp_right fun heq => ⟨hkey, heq⟩
  · intro hplan
    by_contra hdone
    obtain ⟨request, hhas, hfails⟩ := h.fails (by simpa using hdone)
    exact hfails.ne_quiet (hhas hkey) hplan

include hr hm in
/-- Whatever is refused, removing a directory with everything in it removes its tree and nothing
else, or an initial part of the keys below it and not its marker; and nothing at all if the keys
cannot be listed. -/
theorem deleteDirectory_removes_initial (hpath : normalize? fs.root path = some key) :
    (fs.deleteDirectory path true).Returns plan world fun done after =>
      (done = true ↔ ∀ request, ¬ plan.Fails world.requests after.requests request) ∧
      (done = true → ∀ k, after.store.objects[k]? =
        if childPrefix key <+: k ∨ (key ≠ [] ∧ k = marker fs.config.suffix key) then none
        else world.store.objects[k]?) ∧
      (done = false →
        (∃ removed, removed <+: world.store.objects.keysUnder (childPrefix key) ∧
          Objects.Removes removed world.store.objects after.store.objects) ∧
        (key ≠ [] → after.store.objects[marker fs.config.suffix key]? =
          world.store.objects[marker fs.config.suffix key]?)) ∧
      ((∃ query, plan.Fails world.requests after.requests (.list query)) →
        done = false ∧ after.store = world.store) := by
  refine (returns_removesTree hr hm hpath).mono fun done after h => ?_
  have hdone : done = true ↔ ∀ request, ¬ plan.Fails world.requests after.requests request := by
    refine ⟨fun hdone => (h.complete hdone).2, fun hpass => ?_⟩
    by_contra hdone
    obtain ⟨request, -, hfails⟩ := h.fails (by simpa using hdone)
    exact hpass request hfails
  refine ⟨hdone, fun hdone => (h.complete hdone).1, fun hdone => ?_, ?_⟩
  · obtain ⟨removed, hinitial, hremoves⟩ := h.incomplete hdone
    refine ⟨⟨removed, hinitial, hremoves⟩, fun hkey => hremoves.getElem?_eq fun hmem => ?_⟩
    exact not_childPrefix_prefix_marker fs.config.separator_notMem_suffix hkey
      (Objects.mem_keysUnder_iff.mp (hinitial.subset hmem)).2
  · rintro ⟨query, hfails⟩
    refine ⟨?_, h.unlisted query hfails⟩
    rw [← Bool.not_eq_true, hdone]
    exact fun hpass => hpass _ hfails

/-- A directory with three files and a marker, beside a file whose key begins like its own. -/
def threeFiles : World :=
  { store := .holding ['b'] [("s/a".toList, [1]), ("s/b".toList, [2]), ("s/c".toList, [3]),
      ("s~".toList, []), ("st".toList, [4])] }

/-- The file `s/b` cannot be removed. -/
def secondStays : Plan :=
  Script.plan [{ method := some .delete, key := some "s/b".toList,
                 effect := .fail (.store (.refused (some "503") none)) false }]

/-- A removal that fails at the second file has removed the first one only. -/
theorem deleteDirectory_removes_initial_secondStays :
    (narrowBucket.deleteDirectory ['s'] true).Returns secondStays threeFiles fun done after =>
      done = false ∧
      (∃ removed, removed <+: threeFiles.store.objects.keysUnder ['s', separator] ∧
        Objects.Removes removed threeFiles.store.objects after.store.objects) ∧
      after.store.objects.keys = ["s/b".toList, "s/c".toList, "st".toList, "s~".toList] := by
  have hr : secondStays.Refuses := Script.refuses_plan_singleton rfl
  have hm : narrowBucket.Mounted threeFiles.store := ⟨rfl, 'b', by decide, by decide⟩
  have hpath : normalize? narrowBucket.root ['s'] = some ['s'] := by decide +kernel
  have hdone : ((narrowBucket.deleteDirectory ['s'] true).exec secondStays threeFiles).1 =
      .ok false := by
    decide +kernel
  have hkeys : ((narrowBucket.deleteDirectory ['s'] true).exec secondStays
      threeFiles).2.store.objects.keys =
      ["s/b".toList, "s/c".toList, "st".toList, "s~".toList] := by
    decide +kernel
  obtain ⟨done, after, hrun, -, -, hincomplete, -⟩ := deleteDirectory_removes_initial hr hm hpath
  rw [hrun] at hdone hkeys
  obtain rfl := Except.ok.inj hdone
  exact ⟨false, after, hrun, rfl, (hincomplete rfl).1, hkeys⟩

end FileSystem

end KeyTree
