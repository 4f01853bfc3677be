import KeyTree.Proofs.Computation
import KeyTree.Proofs.Contents
import Mathlib.Logic.Relation

/-!
# The course of a run

A run goes from world to world by single steps: something is noted in the journal, or a request is
served. A computation is *confined* to requests of some kind when every writing request that it
sends is of that kind in the store that it is sent to, whether it ends with a result or with an
error. What holds of a store and is kept by those requests holds at the end of the run.

## Main definitions

* `World.Step`, `World.Run` — the steps of a run, and runs.
* `StoreM.Confined` — computations whose writing requests are of some kind.
* `StoreM.ChangesOnly` — computations that change no other keys than those of some kind.
* `StoreM.Leaves` — computations after which the store is of some kind.

## Main results

* `World.Run.invariant`, `World.Run.invariant_of_hasKey` — what every allowed request keeps is kept
  by a run.
* `World.Run.getElem?_eq` — an object that no allowed request is about stays as it is.
* `StoreM.Confined.bind`, `StoreM.Confined.bind_returns`, `StoreM.confined_allM`,
  `StoreM.Leaves.bind`, `StoreM.leaves_allM` — sequences and loops.
-/

namespace KeyTree

/-! ### What a request can change -/

/-- A request leaves all objects alone but the one that it is about. -/
theorem Store.getElem?_perform_of_ne (store : Store) {request : Request} {k : Key}
    (h : k ≠ request.target) :
    (store.perform request).2.objects[k]? = store.objects[k]? := by
  cases request with
  | put key body _ | upload key body => exact Objects.getElem?_put_of_ne store body h
  | delete key => exact Objects.getElem?_remove_of_ne store h
  | copy source target =>
    simp only [perform]
    split
    · exact Objects.getElem?_put_of_ne store _ h
    · rfl
  | head | get | list => rw [store.perform_snd_of_not_writes rfl]

/-- A request is *about* keys of some kind when the key that it names is of that kind. -/
def Request.About (kind : Key → Prop) (_ : Store) (request : Request) : Prop :=
  kind request.target

/-- A request is carried out, or it leaves the store alone. -/
theorem serve_snd_eq_or (plan : Plan) (earlier : List Request) (store : Store)
    (bucket : List Char) (request : Request) :
    (serve plan earlier store bucket request).2 = store ∨
      (serve plan earlier store bucket request).2 = (store.perform request).2 := by
  unfold serve
  split
  · split
    · exact Or.inl rfl
    · split
      · exact Or.inl rfl
      · exact Or.inr rfl
    · exact Or.inl rfl
    · exact Or.inr rfl
    · split
      · exact Or.inr rfl
      · exact Or.inl rfl
  · exact Or.inl rfl

/-- A request that does not write, or that lacks its key, leaves the store alone. -/
theorem serve_snd_of_not_sent (plan : Plan) (earlier : List Request) (store : Store)
    (bucket : List Char) {request : Request}
    (h : ¬ (request.writes = true ∧ request.hasKey = true)) :
    (serve plan earlier store bucket request).2 = store := by
  by_cases hwrites : request.writes = true
  · rw [serve, if_neg fun hkey => h ⟨hwrites, hkey⟩]
  · exact serve_snd_of_not_writes _ _ _ _ (by simpa using hwrites)

namespace World

variable {plan : Plan} {bucket : List Char} {allowed allowed' : Store → Request → Prop}
  {before between after : World}

/-- A step of a run: something is noted in the journal, or a request is served. A request that
writes has to be allowed in the store that it is sent to. -/
inductive Step (plan : Plan) (bucket : List Char) (allowed : Store → Request → Prop) :
    World → World → Prop
  | note (world : World) {entry : Entry} (h : ∀ request, entry ≠ .request request) :
      Step plan bucket allowed world { world with journal := entry :: world.journal }
  | send (world : World) {request : Request}
      (h : request.writes = true → allowed world.store request) :
      Step plan bucket allowed world
        { store := (serve plan world.requests world.store bucket request).2,
          journal := .request request :: world.journal }

/-- A *run* goes from the one world to the other by steps. The journal at its end tells the
steps. -/
def Run (plan : Plan) (bucket : List Char) (allowed : Store → Request → Prop) :
    World → World → Prop :=
  Relation.ReflTransGen (Step plan bucket allowed)

theorem Run.refl (world : World) : Run plan bucket allowed world world :=
  Relation.ReflTransGen.refl

theorem Run.trans (h : Run plan bucket allowed before between)
    (h' : Run plan bucket allowed between after) : Run plan bucket allowed before after :=
  Relation.ReflTransGen.trans h h'

theorem Run.mono (h : Run plan bucket allowed before after)
    (himp : ∀ store request, allowed store request → allowed' store request) :
    Run plan bucket allowed' before after := by
  refine Relation.ReflTransGen.mono (fun _ _ step => ?_) _ _ h
  cases step with
  | note hentry => exact .note _ hentry
  | send hallowed => exact .send _ fun hwrites => himp _ _ (hallowed hwrites)

/-- What every allowed request that names its key keeps is kept by a run. -/
theorem Run.invariant_of_hasKey (Inv : Store → Prop) (h : Run plan bucket allowed before after)
    (hstep : ∀ store request, allowed store request → request.hasKey = true → Inv store →
      Inv (store.perform request).2)
    (hbefore : Inv before.store) : Inv after.store := by
  induction h with
  | refl => exact hbefore
  | @tail between _ _ step ih =>
    cases step with
    | note => exact ih
    | @send request hallowed =>
      by_cases hsent : request.writes = true ∧ request.hasKey = true
      · rcases serve_snd_eq_or plan between.requests between.store bucket request with h | h
        · rw [h]
          exact ih
        · rw [h]
          exact hstep _ _ (hallowed hsent.1) hsent.2 ih
      · rw [serve_snd_of_not_sent _ _ _ _ hsent]
        exact ih

/-- What every allowed request keeps is kept by a run. -/
theorem Run.invariant (Inv : Store → Prop) (h : Run plan bucket allowed before after)
    (hstep : ∀ store request, allowed store request → Inv store → Inv (store.perform request).2)
    (hbefore : Inv before.store) : Inv after.store :=
  h.invariant_of_hasKey Inv (fun _ _ hallowed _ => hstep _ _ hallowed) hbefore

/-- An object that no allowed request is about stays as it is. -/
theorem Run.getElem?_eq (h : Run plan bucket allowed before after) {k : Key}
    (hk : ∀ store request, allowed store request → k ≠ request.target) :
    after.store.objects[k]? = before.store.objects[k]? := by
  refine h.invariant (fun store => store.objects[k]? = before.store.objects[k]?) ?_ rfl
  intro store request hallowed hstore
  rw [store.getElem?_perform_of_ne (hk store request hallowed), hstore]

/-- The store keeps its bucket. -/
theorem Run.bucket_eq (h : Run plan bucket allowed before after) :
    after.store.bucket = before.store.bucket :=
  h.invariant (fun store => store.bucket = before.store.bucket)
    (fun store request _ hstore => (store.perform_snd_bucket request).1.trans hstore) rfl

/-- A run that sends no writing request leaves the store alone. -/
theorem Run.store_eq (h : Run plan bucket (fun _ _ => False) before after) :
    after.store = before.store :=
  h.invariant (fun store => store = before.store) (fun _ _ hfalse => hfalse.elim) rfl

end World

namespace StoreM

variable {α β : Type} {plan : Plan} {bucket : List Char} {allowed allowed' : Store → Request → Prop}
  {world : World}

/-- A computation is *confined* when every writing request that it sends is allowed in the store
that it is sent to. -/
def Confined (x : StoreM α) (plan : Plan) (bucket : List Char)
    (allowed : Store → Request → Prop) (world : World) : Prop :=
  World.Run plan bucket allowed world (x.exec plan world).2

theorem Confined.mono {x : StoreM α} (h : x.Confined plan bucket allowed world)
    (himp : ∀ store request, allowed store request → allowed' store request) :
    x.Confined plan bucket allowed' world :=
  World.Run.mono h himp

/-- A result comes with the run that led to it. -/
theorem Returns.with_run {x : StoreM α} {post : α → World → Prop} (h : x.Returns plan world post)
    (hx : x.Confined plan bucket allowed world) :
    x.Returns plan world fun a after =>
      post a after ∧ World.Run plan bucket allowed world after := by
  obtain ⟨a, after, hrun, hpost⟩ := h
  refine ⟨a, after, hrun, hpost, ?_⟩
  rw [Confined, hrun] at hx
  exact hx

/-- A computation that returns after a run is confined to what the run sends. -/
theorem Returns.confined {x : StoreM α} {post : α → World → Prop} (h : x.Returns plan world post)
    (hpost : ∀ a after, post a after → World.Run plan bucket allowed world after) :
    x.Confined plan bucket allowed world := by
  obtain ⟨a, after, hrun, ha⟩ := h
  rw [Confined, hrun]
  exact hpost a after ha

/-- A computation *changes only* keys of some kind, whether it ends with a result or with an
error. -/
def ChangesOnly (x : StoreM α) (plan : Plan) (world : World) (kind : Key → Prop) : Prop :=
  ∀ k, ¬ kind k → (x.exec plan world).2.store.objects[k]? = world.store.objects[k]?

/-- What sends only requests about keys of some kind changes only these. -/
theorem Confined.changesOnly {x : StoreM α} {kind : Key → Prop}
    (h : x.Confined plan bucket (Request.About kind) world) : x.ChangesOnly plan world kind := by
  refine fun k hk => World.Run.getElem?_eq h fun store request habout => ?_
  rintro rfl
  exact hk habout

theorem confined_pure (a : α) : (pure a : StoreM α).Confined plan bucket allowed world :=
  .refl world

theorem confined_throw (error : Error) :
    (throw error : StoreM α).Confined plan bucket allowed world :=
  .refl world

theorem confined_ofExcept (result : Except Error α) :
    (MonadExcept.ofExcept result : StoreM α).Confined plan bucket allowed world := by
  cases result with
  | ok a => exact confined_pure a
  | error error => exact confined_throw error

theorem confined_log (level : Level) (text : List Char) (context : List (String × Datum)) :
    (log level text context).Confined plan bucket allowed world :=
  Relation.ReflTransGen.single (.note world nofun)

/-- A request is sent. -/
theorem confined_send (request : Request)
    (h : request.writes = true → allowed world.store request) :
    (send bucket request).Confined plan bucket allowed world := by
  rw [Confined, exec_send]
  exact Relation.ReflTransGen.single (.send world h)

/-- A request that does not write is always allowed. -/
theorem confined_ask {request : Request} (h : request.writes = false) :
    (send bucket request).Confined plan bucket allowed world :=
  confined_send request fun hwrites => absurd (h.symm.trans hwrites) Bool.false_ne_true

/-- What comes after a computation goes on from the world that it ends in. -/
theorem Confined.bind {x : StoreM α} {f : α → StoreM β} (hx : x.Confined plan bucket allowed world)
    (hf : ∀ a after, World.Run plan bucket allowed world after →
      x.exec plan world = (.ok a, after) → (f a).Confined plan bucket allowed after) :
    (x >>= f).Confined plan bucket allowed world := by
  rw [Confined] at hx
  rw [Confined, exec_bind]
  rcases hrun : x.exec plan world with ⟨result, after⟩
  rw [hrun] at hx
  cases result with
  | error => exact hx
  | ok a => exact hx.trans (hf a after hx hrun)

/-- What comes after a computation goes on from what the computation returns. -/
theorem Confined.bind_returns {x : StoreM α} {f : α → StoreM β} {mid : α → World → Prop}
    (hx : x.Confined plan bucket allowed world) (hmid : x.Returns plan world mid)
    (hf : ∀ a after, World.Run plan bucket allowed world after → mid a after →
      (f a).Confined plan bucket allowed after) :
    (x >>= f).Confined plan bucket allowed world := by
  refine hx.bind fun a after hrun hexec => ?_
  obtain ⟨b, hb, hpost⟩ := hmid.of_exec hexec
  obtain rfl := Except.ok.inj hb
  exact hf a after hrun hpost

theorem Confined.bind_pure {x : StoreM α} (hx : x.Confined plan bucket allowed world) (f : α → β) :
    (x >>= fun a => pure (f a)).Confined plan bucket allowed world :=
  hx.bind fun a _ _ _ => confined_pure (f a)

theorem Confined.map {x : StoreM α} (f : α → β) (hx : x.Confined plan bucket allowed world) :
    (f <$> x).Confined plan bucket allowed world := by
  rw [Confined] at hx
  rw [Confined, exec_map]
  rcases hrun : x.exec plan world with ⟨result, after⟩
  rw [hrun] at hx
  cases result <;> exact hx

/-- What comes after an event goes on from the same store. -/
theorem confined_log_bind {level : Level} {text : List Char} {context : List (String × Datum)}
    {x : StoreM β} (h : ∀ after : World, after.store = world.store →
      x.Confined plan bucket allowed after) :
    (log level text context >>= fun _ => x).Confined plan bucket allowed world :=
  (confined_log level text context).bind_returns (returns_log level text context)
    fun _ after _ hafter => h after hafter.1

/-- A "no" that is recorded sends nothing. -/
theorem confined_recorded {done : Bool} {level : Level} {text : List Char}
    {context : List (String × Datum)} :
    (if done = true then pure true else do
      log level text context
      pure false : StoreM Bool).Confined plan bucket allowed world := by
  cases done with
  | true => exact confined_pure true
  | false => exact confined_log_bind fun after _ => confined_pure false

/-- A loop is confined if each round is. -/
theorem confined_allM {f : α → StoreM Bool} (l : List α)
    (h : ∀ a ∈ l, ∀ between, World.Run plan bucket allowed world between →
      (f a).Confined plan bucket allowed between) :
    (l.allM f).Confined plan bucket allowed world := by
  induction l generalizing world with
  | nil =>
    rw [List.allM]
    exact confined_pure true
  | cons a rest ih =>
    rw [List.allM]
    refine (h a List.mem_cons_self world (.refl world)).bind fun more between hrun _ => ?_
    cases more with
    | false => exact confined_pure false
    | true =>
      exact ih fun b hb after hrun' => h b (List.mem_cons_of_mem a hb) after (hrun.trans hrun')

/-! ### Stores that are left behind -/

/-- A computation *leaves* a store of some kind, whether it ends with a result or with an error. -/
def Leaves (x : StoreM α) (plan : Plan) (world : World) (post : Store → Prop) : Prop :=
  post (x.exec plan world).2.store

theorem Returns.leaves {x : StoreM α} {mid : α → World → Prop} {post : Store → Prop}
    (hx : x.Returns plan world mid) (h : ∀ a after, mid a after → post after.store) :
    x.Leaves plan world post :=
  hx.outcome (fun outcome => post outcome.2.store) h

/-- What every allowed request keeps is left. -/
theorem Confined.leaves {x : StoreM α} (Inv : Store → Prop)
    (hx : x.Confined plan bucket allowed world)
    (hstep : ∀ store request, allowed store request → Inv store → Inv (store.perform request).2)
    (hworld : Inv world.store) : x.Leaves plan world Inv :=
  World.Run.invariant Inv hx hstep hworld

theorem Leaves.mono {x : StoreM α} {mid post : Store → Prop} (hx : x.Leaves plan world mid)
    (h : ∀ store, mid store → post store) : x.Leaves plan world post :=
  h _ hx

/-- A computation that sends no request that writes leaves the store alone. -/
theorem Confined.leaves_same {x : StoreM α} {post : Store → Prop}
    (hx : x.Confined plan bucket (fun _ _ => False) world) (hworld : post world.store) :
    x.Leaves plan world post := by
  have hsame : (x.exec plan world).2.store = world.store := World.Run.store_eq hx
  rwa [Leaves, hsame]

/-- What comes after a computation starts from what the computation leaves. -/
theorem Leaves.bind {x : StoreM α} {f : α → StoreM β} {mid post : Store → Prop}
    (hx : x.Leaves plan world mid) (hmid : ∀ store, mid store → post store)
    (hf : ∀ a after, mid after.store → (f a).Leaves plan after post) :
    (x >>= f).Leaves plan world post := by
  rw [Leaves] at hx
  rw [Leaves, exec_bind]
  rcases hrun : x.exec plan world with ⟨result, after⟩
  rw [hrun] at hx
  cases result with
  | error => exact hmid _ hx
  | ok a => exact hf a after hx

theorem Leaves.bind_pure {x : StoreM α} {post : Store → Prop} (hx : x.Leaves plan world post)
    (f : α → β) : (x >>= fun a => pure (f a)).Leaves plan world post :=
  hx.bind (fun _ => id) fun _ _ h => h

/-- A "no" that is recorded leaves the store alone. -/
theorem leaves_recorded {done : Bool} {level : Level} {text : List Char}
    {context : List (String × Datum)} {post : Store → Prop} (h : post world.store) :
    (if done = true then pure true else do
      log level text context
      pure false : StoreM Bool).Leaves plan world post := by
  cases done <;> exact h

theorem leaves_ofExcept (result : Except Error α) {post : Store → Prop} (h : post world.store) :
    (MonadExcept.ofExcept result : StoreM α).Leaves plan world post := by
  cases result <;> exact h

/-- A loop leaves what each round leaves. -/
theorem leaves_allM {f : α → StoreM Bool} {post : Store → Prop} (l : List α)
    (h : ∀ a ∈ l, ∀ between : World, post between.store → (f a).Leaves plan between post)
    (hworld : post world.store) : (l.allM f).Leaves plan world post := by
  induction l generalizing world with
  | nil =>
    rw [List.allM]
    exact hworld
  | cons a rest ih =>
    rw [List.allM]
    refine (h a List.mem_cons_self world hworld).bind (fun _ => id) fun more between hbetween => ?_
    cases more with
    | false => exact hbetween
    | true => exact ih (fun b hb => h b (List.mem_cons_of_mem a hb)) hbetween

end StoreM

end KeyTree
