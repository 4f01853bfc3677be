import KeyTree.Proofs.FileSystem.Mirror

/-!
# Plans under which requests fail

Under a plan that only fails requests, each request either gets the reply of the store or fails with
a store error; a request that fails may have been carried out all the same. A computation that only
asks about objects cannot tell the difference, so it runs as under the plan that lets the same
requests fail beforehand, which refuses.

## Main definitions

* `Plan.OnlyFails` — plans that disrupt requests by store errors only.
* `Plan.beforehand` — the plan that lets requests fail before they are carried out.
* `StoreM.OnlyAsks` — computations that do not notice when requests fail.
* `FileSystem.ownRuns` — a run compared with itself, in stores of some kind.

## Main results

* `FileSystem.mirror_ownRuns` — under a plan that only fails requests, every request ends like
  itself, without an error, and leaves a store of the kind behind.
-/

namespace KeyTree

open Key Listing

/-! ### Failing before or after -/

/-- A plan *only fails* requests when every disrupted request fails with a store error, before or
after it is carried out. -/
def Plan.OnlyFails (plan : Plan) : Prop :=
  ∀ earlier request disruption, plan.disrupt earlier request = some disruption →
    ∃ error, disruption = .fail (.store error) ∨ disruption = .failAfter (.store error)

/-- A disruption that lets the request fail before it is carried out, if it fails. -/
def Disruption.beforehand {Reply : Type} : Disruption Reply → Disruption Reply
  | .failAfter failure => .fail failure
  | disruption => disruption

/-- The plan that lets the same requests fail, but before they are carried out. -/
def Plan.beforehand (plan : Plan) : Plan :=
  { plan with
    disrupt := fun earlier request =>
      (plan.disrupt earlier request).map Disruption.beforehand }

theorem Plan.Refuses.onlyFails {plan : Plan} (h : plan.Refuses) : plan.OnlyFails :=
  fun earlier request disruption hd =>
    (h earlier request disruption hd).imp fun _ => Or.inl

theorem Plan.OnlyFails.refuses_beforehand {plan : Plan} (h : plan.OnlyFails) :
    plan.beforehand.Refuses := by
  intro earlier request disruption hd
  obtain ⟨disruption', hd', rfl⟩ := Option.map_eq_some_iff.mp hd
  obtain ⟨error, rfl | rfl⟩ := h earlier request disruption' hd'
  · exact ⟨error, rfl⟩
  · exact ⟨error, rfl⟩

/-- A script whose rules let requests fail with store errors only fails requests. -/
theorem Script.onlyFails_plan {rules : List Rule}
    (h : ∀ rule ∈ rules, ∃ error after, rule.effect = .fail (.store error) after) :
    (plan rules).OnlyFails := by
  intro earlier request disruption hd
  obtain ⟨rule, hrule, rfl⟩ := exists_rule_of_disrupt hd
  obtain ⟨error, after, heq⟩ := h rule hrule
  rw [heq]
  cases after with
  | true => exact ⟨error, Or.inr rfl⟩
  | false => exact ⟨error, Or.inl rfl⟩

/-- A request that only asks is served alike if it fails before or after. -/
theorem serve_beforehand (plan : Plan) (earlier : List Request) (store : Store)
    (bucket : List Char) {request : Request} (h : request.asksOnly = true) :
    serve plan.beforehand earlier store bucket request =
      serve plan earlier store bucket request := by
  have hdisrupt : plan.beforehand.disrupt earlier request =
      (plan.disrupt earlier request).map Disruption.beforehand := rfl
  rw [serve, serve, hdisrupt]
  rcases plan.disrupt earlier request with _ | disruption
  · rfl
  · cases disruption with
    | failAfter failure => simp [Disruption.beforehand, h]
    | _ => rfl

namespace StoreM

/-- A computation *only asks* when it runs alike whether requests fail before or after. -/
def OnlyAsks {α : Type} (x : StoreM α) (plan : Plan) : Prop :=
  ∀ world, x.exec plan.beforehand world = x.exec plan world

variable {α β : Type} {plan : Plan} {bucket : List Char}

theorem OnlyAsks.bind {x : StoreM α} {f : α → StoreM β} (h : x.OnlyAsks plan)
    (hf : ∀ a, (f a).OnlyAsks plan) : (x >>= f).OnlyAsks plan := by
  intro world
  rw [exec_bind, exec_bind, h world]
  rcases x.exec plan world with ⟨error | a, after⟩
  · rfl
  · exact hf a after

theorem onlyAsks_pure (a : α) : (pure a : StoreM α).OnlyAsks plan := fun _ => rfl

theorem onlyAsks_throw (error : Error) : (throw error : StoreM α).OnlyAsks plan := fun _ => rfl

theorem onlyAsks_log (level : Level) (text : List Char) (context : List (String × Datum)) :
    (log level text context).OnlyAsks plan := fun _ => rfl

theorem onlyAsks_send {request : Request} (h : request.asksOnly = true) :
    (send bucket request).OnlyAsks plan := by
  intro world
  rw [exec_send, exec_send, serve_beforehand plan _ _ _ h]

/-- What a computation that only asks returns under a plan that refuses, it returns under the plan
that lets requests fail after they are carried out. -/
theorem OnlyAsks.returns {x : StoreM α} {world : World} {post : α → World → Prop}
    (h : x.OnlyAsks plan) (hx : x.Returns plan.beforehand world post) :
    x.Returns plan world post := by
  obtain ⟨a, after, hrun, hpost⟩ := hx
  exact ⟨a, after, (h world).symm.trans hrun, hpost⟩

end StoreM

open StoreM

variable {plan : Plan}

theorem Bucket.onlyAsks_list (bucket : Bucket) (under delimiter : List Char) (maxKeys : Int)
    (token : Option (List Char)) : (bucket.list under delimiter maxKeys token).OnlyAsks plan := by
  refine (onlyAsks_send rfl).bind fun reply => ?_
  cases reply with
  | error fault => exact onlyAsks_pure _
  | ok reply =>
    dsimp only
    split
    · exact onlyAsks_throw _
    · exact (onlyAsks_log _ _ _).bind fun _ => onlyAsks_pure _

theorem Cursor.onlyAsks_next (cursor : Cursor) : cursor.next.OnlyAsks plan := by
  rw [Cursor.next]
  split
  · exact onlyAsks_pure _
  · refine (cursor.bucket.onlyAsks_list _ _ _ _).bind fun reply => ?_
    cases reply with
    | ok page => exact onlyAsks_pure _
    | error fault => exact (onlyAsks_log _ _ _).bind fun _ => onlyAsks_pure _

theorem Cursor.onlyAsks_drainWithin (moves : Nat) (cursor : Cursor) :
    (drainWithin moves cursor).OnlyAsks plan := by
  induction moves generalizing cursor with
  | zero => exact onlyAsks_throw _
  | succ moves ih =>
    rw [drainWithin]
    refine (onlyAsks_next cursor).bind ?_
    rintro ⟨_ | page, cursor⟩
    · exact onlyAsks_pure _
    · exact (ih cursor).bind fun _ => onlyAsks_pure _

theorem Cursor.onlyAsks_drain (cursor : Cursor) : cursor.drain.OnlyAsks plan := by
  have hbound : StoreM.pageBound.OnlyAsks plan := fun _ => rfl
  exact hbound.bind fun moves => onlyAsks_drainWithin moves cursor

namespace FileSystem

theorem onlyAsks_allPages (fs : FileSystem) (key : Key) (recursive : Bool) :
    (fs.allPages key recursive).OnlyAsks plan := by
  refine (Cursor.onlyAsks_drain _).bind ?_
  rintro ⟨pages, cursor⟩
  dsimp only
  split
  · exact (onlyAsks_log _ _ _).bind fun _ => onlyAsks_pure _
  · split
    · exact (onlyAsks_log _ _ _).bind fun _ => onlyAsks_pure _
    · exact onlyAsks_pure _

/-! ### A run and itself -/

/-- The comparison of runs under a plan with themselves, in stores of some kind. -/
def ownRuns (plan : Plan) (kind : Store → Prop) (raises : Error → Prop) : Comparison where
  plan
  related world other := world = other ∧ kind world.store
  raises

variable {kind : Store → Prop} {raises : Error → Prop} {α : Type}

/-- What a computation returns from stores of some kind matches itself. -/
theorem matches_ownRuns {x : StoreM α} {same : α → α → Prop}
    (h : ∀ world : World, kind world.store →
      x.Returns plan world fun a after => same a a ∧ kind after.store) :
    (ownRuns plan kind raises).Matches same x x := by
  rintro world _ ⟨rfl, hkind⟩
  obtain ⟨a, after, hrun, hsame, hafter⟩ := h world hkind
  change Comparison.Outcomes _ same (x.exec plan world) (x.exec plan world)
  rw [hrun]
  exact .ok hsame ⟨rfl, hafter⟩

/-- What matches itself leaves a store of the kind behind, and ends only in errors that are
allowed. -/
theorem outcome_of_matches_ownRuns {x y : StoreM α} {same : α → α → Prop}
    (h : (ownRuns plan kind raises).Matches same x y) {world : World} (hworld : kind world.store) :
    kind (x.exec plan world).2.store ∧
      ∀ error, (x.exec plan world).1 = .error error → raises error := by
  have houtcomes := h world world ⟨rfl, hworld⟩
  change Comparison.Outcomes _ same (x.exec plan world) (y.exec plan world) at houtcomes
  generalize x.exec plan world = outcome at houtcomes
  generalize y.exec plan world = outcome' at houtcomes
  cases houtcomes with
  | ok _ hafter => exact ⟨hafter.2, nofun⟩
  | error hraises hafter => exact ⟨hafter.2, fun _ heq => Except.error.inj heq ▸ hraises⟩

/-- Under a plan that only fails requests, a request gets the reply of the store or fails with a
store error. -/
theorem serve_fst_of_onlyFails (hplan : plan.OnlyFails) (earlier : List Request) (store : Store)
    (bucket : List Char) (request : Request) :
    (∃ error, (serve plan earlier store bucket request).1 = .error (.store error)) ∨
      (serve plan earlier store bucket request).1 =
        (store.perform request).1.mapError .store := by
  rw [serve]
  split
  · rcases hd : plan.disrupt earlier request with _ | disruption
    · dsimp only
      split
      · exact Or.inr rfl
      · exact Or.inl ⟨_, rfl⟩
    · obtain ⟨error, rfl | rfl⟩ := hplan _ _ _ hd
      · exact Or.inl ⟨error, rfl⟩
      · dsimp only
        split
        · exact Or.inl ⟨error, rfl⟩
        · rcases (store.perform request).1 with error' | reply
          · exact Or.inl ⟨error', rfl⟩
          · exact Or.inl ⟨error, rfl⟩
  · exact Or.inl ⟨_, rfl⟩

/-- So the store is what it was or what the request makes of it, and there is no error. -/
theorem returns_send_of_onlyFails (hplan : plan.OnlyFails) {world : World} {bucket : List Char}
    (request : Request) :
    (send bucket request).Returns plan world fun reply after =>
      ((∃ fault, reply = .error fault) ∨
        reply = (world.store.perform request).1.mapError (⟨request, ·⟩)) ∧
      (after.store = world.store ∨ after.store = (world.store.perform request).2) := by
  unfold StoreM.Returns
  rw [exec_send]
  have hstore := serve_snd_eq_or plan world.requests world.store bucket request
  rcases serve_fst_of_onlyFails hplan world.requests world.store bucket request with
    ⟨error, hreply⟩ | hreply
  · rw [hreply]
    exact ⟨_, _, rfl, Or.inl ⟨_, rfl⟩, hstore⟩
  · rw [hreply]
    rcases (world.store.perform request).1 with error | reply
    · exact ⟨_, _, rfl, Or.inl ⟨_, rfl⟩, hstore⟩
    · exact ⟨_, _, rfl, Or.inr rfl, hstore⟩

/-- A request ends like itself, and the store stays of the kind if the request keeps it so. -/
theorem matches_send_ownRuns (hplan : plan.OnlyFails) {bucket : List Char} (request : Request)
    {same : request.Reply → request.Reply → Prop}
    (hreply : ∀ store : Store, ∀ reply, (store.perform request).1 = .ok reply → same reply reply)
    (hkind : ∀ store, kind store → kind (store.perform request).2) :
    (ownRuns plan kind raises).Matches (SameReply same) (send bucket request)
      (send bucket request) := by
  refine matches_ownRuns fun world hworld => ?_
  refine (returns_send_of_onlyFails hplan request).mono fun reply after ⟨hfrom, hstore⟩ => ?_
  constructor
  · rcases hfrom with ⟨fault, rfl⟩ | rfl
    · exact .error fault
    · rcases hperform : (world.store.perform request).1 with error | reply
      · exact .error _
      · exact .ok (hreply world.store reply hperform)
  · rcases hstore with hstore | hstore
    · rw [hstore]
      exact hworld
    · rw [hstore]
      exact hkind _ hworld

/-- Under a plan that only fails requests, every request ends like itself, without an error, and
leaves a store of the kind behind. -/
theorem mirror_ownRuns {fs : FileSystem} {writes : Key → Prop} (hplan : plan.OnlyFails)
    (hnamed : ∃ ch ∈ fs.bucket.name, ch ≠ separator)
    (hbucket : ∀ store, kind store → fs.bucket.name = store.bucket)
    (hput : ∀ store key body, kind store → writes key → kind (store.put key body))
    (hremove : ∀ store key, kind store → kind (store.remove key)) :
    Mirror (ownRuns plan kind raises) fs fs.config.pageSize fs.config.pageSize_pos id
      (fun _ => True) writes where
  named := hnamed
  notes := by
    rintro world _ event ⟨rfl, hkind⟩
    exact ⟨rfl, hkind⟩
  agree := by
    rintro world _ ⟨rfl, -⟩ k -
    rfl
  metadata key _ := by
    refine matches_metadata_of_send
      (matches_send_ownRuns hplan (.head key) ?_ fun store hstore => ?_)
    · intro store reply hreply
      rw [Store.perform] at hreply
      split at hreply
      · rename_i o ho
        cases hreply
        exact ⟨o, o, rfl, rfl, rfl⟩
      · cases hreply
    · rwa [store.perform_snd_of_not_writes rfl]
  read key _ := by
    refine (matches_send_ownRuns hplan (.get key) (fun _ _ _ => rfl) fun store hstore => ?_).mono
      fun _ _ => SameReply.eq
    rwa [store.perform_snd_of_not_writes rfl]
  write key body length hkey :=
    (matches_send_ownRuns hplan (.put key body _) (fun _ _ _ => rfl) fun store hstore =>
      hput store key body hstore hkey).mono fun _ _ => SameReply.eq
  upload key body hkey :=
    (matches_send_ownRuns hplan (.upload key body) (fun _ _ _ => rfl) fun store hstore =>
      hput store key body hstore hkey).mono fun _ _ => SameReply.eq
  delete key _ :=
    (matches_send_ownRuns hplan (.delete key) (fun _ _ _ => rfl) fun store hstore =>
      hremove store key hstore).mono fun _ _ => SameReply.eq
  copy source target _ htarget := by
    refine (matches_send_ownRuns hplan (.copy source target) (fun _ _ _ => rfl)
      fun store hstore => ?_).mono fun _ _ => SameReply.eq
    simp only [Store.perform]
    split
    · exact hput store target _ hstore htarget
    · exact hstore
  listOne key _ := by
    refine matches_ownRuns fun world hworld => ?_
    have hone := Bucket.returns_list_one hplan.refuses_beforehand (hbucket _ hworld) key
    refine (Bucket.onlyAsks_list _ _ _ _ _).returns (hone.mono ?_)
    rintro reply after ⟨hstore, -, hreply⟩
    refine ⟨?_, by rwa [hstore]⟩
    cases reply with
    | ok page => exact .ok rfl
    | error fault => exact .error fault
  allPages key recursive _ := by
    refine matches_ownRuns fun world hworld => ?_
    have hall : (fs.allPages key recursive).Returns plan.beforehand world _ :=
      returns_allPages hplan.refuses_beforehand ⟨hbucket _ hworld, hnamed⟩ recursive
    refine (fs.onlyAsks_allPages key recursive).returns (hall.mono ?_)
    rintro reply after ⟨hstore, -, hreply⟩
    refine ⟨?_, by rwa [hstore]⟩
    cases reply with
    | none => exact .none
    | some found => exact .some ⟨world, world, ⟨rfl, hworld⟩, hreply.1, hreply.1⟩

end FileSystem

end KeyTree
