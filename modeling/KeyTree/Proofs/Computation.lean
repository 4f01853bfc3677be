import KeyTree.Store.Script
import KeyTree.StoreM
import Mathlib.Order.Basic
import Mathlib.Tactic.Common

/-!
# What computations return

A computation *returns* under a plan when it ends without an error, in a world that is related to
its result as a post-condition says. The post-condition of a sequence is found from its end, the
requests are the only steps that can change the store, and a loop that stops at the first "no" is
described by what holds before each of its rounds.

## Main definitions

* `StoreM.Returns` — ending without an error and with a post-condition.
* `Plan.Passes`, `Plan.Fails` — requests that a plan leaves alone, and those of a run that it does
  not.

## Main results

* `StoreM.Returns.bind` — sequencing.
* `StoreM.returns_allM` — loops that stop at the first "no".
* `returns_send_of_passes`, `returns_send` — a request that passes is served by the store; under a
  plan that refuses, any other one changes nothing.
* `Plan.fails_trans_iff` — what fails in a run that is cut in two.
* `Script.refuses_plan` — scripts that refuse.
-/

namespace KeyTree

namespace StoreM

variable {α β : Type} {plan : Plan} {world : World}

/-- A computation *returns* when it ends without an error, with a result and in a world that satisfy
the post-condition. -/
def Returns (x : StoreM α) (plan : Plan) (world : World) (post : α → World → Prop) : Prop :=
  ∃ a after, x.exec plan world = (.ok a, after) ∧ post a after

theorem Returns.mono {x : StoreM α} {post post' : α → World → Prop}
    (h : x.Returns plan world post) (himp : ∀ a after, post a after → post' a after) :
    x.Returns plan world post' := by
  obtain ⟨a, after, hrun, hpost⟩ := h
  exact ⟨a, after, hrun, himp a after hpost⟩

/-- A run is its result with the world after it. -/
theorem exec_eq_of_fst {x : StoreM α} {result : Except Error α}
    (h : (x.exec plan world).1 = result) :
    x.exec plan world = (result, (x.exec plan world).2) := by
  rw [← h]

/-- A computation has one run. -/
theorem Returns.of_exec {x : StoreM α} {post : α → World → Prop} (h : x.Returns plan world post)
    {result : Except Error α} {after : World} (hrun : x.exec plan world = (result, after)) :
    ∃ a, result = .ok a ∧ post a after := by
  obtain ⟨a, after', hrun', hpost⟩ := h
  obtain ⟨rfl, rfl⟩ : result = .ok a ∧ after = after' := by
    simpa [hrun'] using hrun.symm
  exact ⟨a, rfl, hpost⟩

@[simp] theorem returns_pure_iff {a : α} {post : α → World → Prop} :
    (pure a : StoreM α).Returns plan world post ↔ post a world := by
  simp [Returns]

/-- What is to hold of an outcome may be shown from what a computation returns. -/
theorem Returns.outcome {x : StoreM α} {mid : α → World → Prop}
    (P : Except Error α × World → Prop) (hx : x.Returns plan world mid)
    (h : ∀ a after, mid a after → P (.ok a, after)) : P (x.exec plan world) := by
  obtain ⟨a, after, hrun, hmid⟩ := hx
  rw [hrun]
  exact h a after hmid

/-- What is to hold of the outcome of a sequence is to hold of the outcome of its end. -/
theorem Returns.bind_outcome {x : StoreM α} {f : α → StoreM β} {mid : α → World → Prop}
    (P : Except Error β × World → Prop) (hx : x.Returns plan world mid)
    (hf : ∀ a after, mid a after → P ((f a).exec plan after)) : P ((x >>= f).exec plan world) := by
  obtain ⟨a, between, hrun, hmid⟩ := hx
  rw [exec_bind, hrun]
  exact hf a between hmid

theorem Returns.bind {x : StoreM α} {f : α → StoreM β} {mid : α → World → Prop}
    {post : β → World → Prop} (hx : x.Returns plan world mid)
    (hf : ∀ a after, mid a after → (f a).Returns plan after post) :
    (x >>= f).Returns plan world post :=
  hx.bind_outcome (fun outcome => ∃ b after, outcome = (.ok b, after) ∧ post b after) hf

/-- The run of a sequence is the run of its end, from where its beginning returns. -/
theorem Returns.of_bind {x : StoreM α} {f : α → StoreM β} {mid : α → World → Prop}
    (hx : x.Returns plan world mid) {outcome : Except Error β × World}
    (hrun : (x >>= f).exec plan world = outcome) :
    ∃ a between, mid a between ∧ (f a).exec plan between = outcome := by
  obtain ⟨a, between, hexec, hmid⟩ := hx
  rw [exec_bind, hexec] at hrun
  exact ⟨a, between, hmid, hrun⟩

theorem Returns.map {x : StoreM α} {f : α → β} {mid : α → World → Prop} {post : β → World → Prop}
    (hx : x.Returns plan world mid) (hf : ∀ a after, mid a after → post (f a) after) :
    (f <$> x).Returns plan world post := by
  obtain ⟨a, after, hrun, hmid⟩ := hx
  refine ⟨f a, after, ?_, hf a after hmid⟩
  rw [exec_map, hrun]

/-- An event leaves the store and the requests alone. -/
theorem returns_log (level : Level) (text : List Char) (context : List (String × Datum)) :
    (log level text context).Returns plan world fun _ after =>
      after.store = world.store ∧ after.requests = world.requests :=
  ⟨(), _, exec_log .., rfl, rfl⟩

/-- What comes after an event is decided by the store and the requests. -/
theorem returns_log_bind {level : Level} {text : List Char} {context : List (String × Datum)}
    {x : StoreM β} {post : β → World → Prop}
    (h : ∀ after : World, after.store = world.store → after.requests = world.requests →
      x.Returns plan after post) :
    (log level text context >>= fun _ => x).Returns plan world post :=
  (returns_log level text context).bind fun _ after hafter => h after hafter.1 hafter.2

/-- A "no" that is recorded leaves the store alone. -/
theorem returns_recorded {done : Bool} {level : Level} {text : List Char}
    {context : List (String × Datum)} {post : Bool → World → Prop}
    (h : ∀ after : World, after.store = world.store → post done after) :
    (if done = true then pure true else do
      log level text context
      pure false : StoreM Bool).Returns plan world post := by
  cases done with
  | true => exact returns_pure_iff.mpr (h world rfl)
  | false =>
    exact returns_log_bind fun after hafter _ => returns_pure_iff.mpr (h after hafter)

/-! ### Loops -/

/-- A loop returns when each round does from the worlds that the rounds before it lead to. -/
theorem returns_allM {f : α → StoreM Bool} (Inv : List α → World → Prop)
    {post : Bool → World → Prop}
    (hround : ∀ a rest world, Inv (a :: rest) world → (f a).Returns plan world fun more after =>
      (more = true → Inv rest after) ∧ (more = false → post false after))
    (hdone : ∀ world, Inv [] world → post true world) (l : List α) (world : World)
    (h : Inv l world) : (l.allM f).Returns plan world post := by
  induction l generalizing world with
  | nil =>
    rw [List.allM]
    exact returns_pure_iff.mpr (hdone world h)
  | cons a rest ih =>
    rw [List.allM]
    refine (hround a rest world h).bind fun more after hafter => ?_
    cases more with
    | false => exact returns_pure_iff.mpr (hafter.2 rfl)
    | true => exact ih after (hafter.1 rfl)

end StoreM

/-! ### Requests -/

/-- A request *passes* when it names a key and the plan leaves it alone. -/
def Plan.Passes (plan : Plan) (earlier : List Request) (request : Request) : Prop :=
  request.hasKey = true ∧ plan.disrupt earlier request = none

@[simp] theorem Plan.passes_quiet_iff {earlier : List Request} {request : Request} :
    Plan.quiet.Passes earlier request ↔ request.hasKey = true := by
  simp [Passes, quiet]

/-- A request that passes is served by the store of the bucket that it is addressed to. -/
theorem serve_of_passes {plan : Plan} {earlier : List Request} {store : Store} {bucket : List Char}
    {request : Request} (h : plan.Passes earlier request) (hbucket : bucket = store.bucket) :
    serve plan earlier store bucket request =
      ((store.perform request).1.mapError .store, (store.perform request).2) := by
  rw [serve, if_pos h.1, h.2]
  simp [hbucket]

/-- Under a plan that refuses, a request that does not pass fails and changes nothing. -/
theorem serve_of_not_passes {plan : Plan} (hr : plan.Refuses) {earlier : List Request}
    {request : Request} (h : ¬ plan.Passes earlier request) (store : Store) (bucket : List Char) :
    ∃ error, serve plan earlier store bucket request = (.error (.store error), store) := by
  by_cases hkey : request.hasKey = true
  · obtain ⟨disruption, hd⟩ := Option.ne_none_iff_exists'.mp fun hnone => h ⟨hkey, hnone⟩
    obtain ⟨error, rfl⟩ := hr earlier request disruption hd
    exact ⟨error, by rw [serve, if_pos hkey, hd]⟩
  · exact ⟨.emptyKey, by rw [serve, if_neg hkey]⟩

/-- What a request that passes comes back with is what the store replies. -/
theorem returns_send_of_passes {plan : Plan} {world : World} {bucket : List Char}
    (hbucket : bucket = world.store.bucket) {request : Request}
    (h : plan.Passes world.requests request) :
    (send bucket request).Returns plan world fun reply after =>
      after.requests = request :: world.requests ∧
      reply = (world.store.perform request).1.mapError (⟨request, ·⟩) ∧
      after.store = (world.store.perform request).2 := by
  unfold StoreM.Returns
  rw [exec_send, serve_of_passes h hbucket]
  rcases (world.store.perform request).1 with error | reply
  · exact ⟨.error ⟨request, error⟩, _, rfl, rfl, rfl, rfl⟩
  · exact ⟨.ok reply, _, rfl, rfl, rfl, rfl⟩

/-- What a request comes back with under a plan that refuses: what the store replies if it passes,
and else a fault. -/
theorem returns_send {plan : Plan} (hr : plan.Refuses) {world : World} {bucket : List Char}
    (hbucket : bucket = world.store.bucket) (request : Request) :
    (send bucket request).Returns plan world fun reply after =>
      after.requests = request :: world.requests ∧
      ((plan.Passes world.requests request ∧
          reply = (world.store.perform request).1.mapError (⟨request, ·⟩) ∧
          after.store = (world.store.perform request).2) ∨
        (¬ plan.Passes world.requests request ∧ (∃ fault, reply = .error fault) ∧
          after.store = world.store)) := by
  by_cases h : plan.Passes world.requests request
  · exact (returns_send_of_passes hbucket h).mono
      fun _ _ ⟨hrequests, hreply, hstore⟩ => ⟨hrequests, Or.inl ⟨h, hreply, hstore⟩⟩
  · obtain ⟨error, hserve⟩ := serve_of_not_passes hr h world.store bucket
    unfold StoreM.Returns
    rw [exec_send, hserve]
    exact ⟨.error ⟨request, error⟩, _, rfl, rfl, Or.inr ⟨h, ⟨_, rfl⟩, rfl⟩⟩

/-! ### Failures -/

/-- A request *fails* between two points of the journal when it was sent between them and did not
pass. -/
def Plan.Fails (plan : Plan) (before after : List Request) (request : Request) : Prop :=
  ∃ earlier, before <:+ earlier ∧ request :: earlier <:+ after ∧ ¬ plan.Passes earlier request

namespace Plan

variable {plan : Plan} {before between after : List Request} {request sent : Request}

theorem not_fails_self : ¬ plan.Fails before before request := by
  rintro ⟨earlier, hbefore, hafter, -⟩
  have := hbefore.length_le
  have := hafter.length_le
  rw [List.length_cons] at this
  omega

/-- One request that is sent fails exactly if it does not pass. -/
theorem fails_cons_iff :
    plan.Fails before (sent :: before) request ↔ request = sent ∧ ¬ plan.Passes before sent := by
  constructor
  · rintro ⟨earlier, hbefore, hafter, hpass⟩
    rcases List.suffix_cons_iff.mp hafter with heq | hafter
    · obtain ⟨rfl, rfl⟩ := List.cons.inj heq
      exact ⟨rfl, hpass⟩
    · exact absurd ⟨earlier, hbefore, hafter, hpass⟩ not_fails_self
  · rintro ⟨rfl, hpass⟩
    exact ⟨before, List.suffix_rfl, List.suffix_rfl, hpass⟩

/-- What fails in a run fails in its first part or in the rest. -/
theorem fails_trans_iff (hfirst : before <:+ between) (hrest : between <:+ after) :
    plan.Fails before after request ↔
      plan.Fails before between request ∨ plan.Fails between after request := by
  constructor
  · rintro ⟨earlier, hbefore, hafter, hpass⟩
    rcases List.suffix_or_suffix_of_suffix hafter hrest with hin | hover
    · exact Or.inl ⟨earlier, hbefore, hin, hpass⟩
    · rcases List.suffix_cons_iff.mp hover with heq | hover
      · exact Or.inl ⟨earlier, hbefore, heq ▸ List.suffix_rfl, hpass⟩
      · exact Or.inr ⟨earlier, hover, hafter, hpass⟩
  · rintro (⟨earlier, hbefore, hin, hpass⟩ | ⟨earlier, hover, hafter, hpass⟩)
    · exact ⟨earlier, hbefore, hin.trans hrest, hpass⟩
    · exact ⟨earlier, hfirst.trans hover, hafter, hpass⟩

/-- After requests that have all passed, what fails is in the rest of a run. -/
theorem fails_iff_of_passed (hfirst : before <:+ between)
    (hpassed : ∀ request, ¬ plan.Fails before between request) (hrest : between <:+ after) :
    plan.Fails before after request ↔ plan.Fails between after request := by
  rw [fails_trans_iff hfirst hrest, or_iff_right (hpassed request)]

theorem fails_cons_iff_of_passed (hfirst : before <:+ between)
    (hpassed : ∀ request, ¬ plan.Fails before between request) :
    plan.Fails before (sent :: between) request ↔
      request = sent ∧ ¬ plan.Passes between sent := by
  rw [fails_iff_of_passed hfirst hpassed (List.suffix_cons ..), fails_cons_iff]

/-- If nothing is refused, only requests without a key fail. -/
theorem Fails.ne_quiet (h : plan.Fails before after request) (hkey : request.hasKey = true) :
    plan ≠ .quiet := by
  rintro rfl
  obtain ⟨earlier, -, -, hpass⟩ := h
  exact hpass (passes_quiet_iff.mpr hkey)

end Plan

/-! ### Scripts -/

namespace Script

/-- A request leaves the rules of a script as they are, and the effect that fires is one of
theirs. -/
theorem step_spec (request : Request) (counts : List (Rule × Nat)) :
    (step counts request).1.map Prod.fst = counts.map Prod.fst ∧
      ∀ effect ∈ (step counts request).2, ∃ rule ∈ counts.map Prod.fst, rule.effect = effect := by
  induction counts with
  | nil => simp [step]
  | cons entry more ih =>
    obtain ⟨rule, count⟩ := entry
    obtain ⟨hrules, heffect⟩ := ih
    have hlater : ∀ effect ∈ (step more request).2,
        ∃ rule' ∈ rule :: more.map Prod.fst, rule'.effect = effect := by
      intro effect h
      obtain ⟨rule', hmem, heq⟩ := heffect effect h
      exact ⟨rule', List.mem_cons_of_mem _ hmem, heq⟩
    rw [step, List.map_cons]
    split
    · split
      · exact ⟨rfl, fun effect h => ⟨rule, List.mem_cons_self, Option.some.inj h⟩⟩
      · exact ⟨by rw [List.map_cons, hrules], hlater⟩
    · exact ⟨by rw [List.map_cons, hrules], hlater⟩

theorem map_fst_foldl_step (requests : List Request) (counts : List (Rule × Nat)) :
    (requests.foldl (fun counts request => (step counts request).1) counts).map Prod.fst =
      counts.map Prod.fst := by
  induction requests generalizing counts with
  | nil => rfl
  | cons request requests ih =>
    rw [List.foldl_cons, ih, (step_spec request counts).1]

theorem map_fst_countsAfter (rules : List Rule) (earlier : List Request) :
    (countsAfter rules earlier).map Prod.fst = rules := by
  rw [countsAfter, map_fst_foldl_step, List.map_map]
  exact List.map_id _

/-- What a script does to a request is the effect of one of its rules. -/
theorem exists_rule_of_disrupt {rules : List Rule} {earlier : List Request} {request : Request}
    {disruption : Disruption request.Reply}
    (h : (plan rules).disrupt earlier request = some disruption) :
    ∃ rule ∈ rules, disruption = rule.effect.disruption request := by
  obtain ⟨effect, heffect, rfl⟩ := Option.map_eq_some_iff.mp h
  obtain ⟨rule, hrule, rfl⟩ := (step_spec request _).2 effect heffect
  rw [map_fst_countsAfter] at hrule
  exact ⟨rule, hrule, rfl⟩

/-- A script whose rules let requests fail with store errors refuses. -/
theorem refuses_plan {rules : List Rule}
    (h : ∀ rule ∈ rules, ∃ error, rule.effect = .fail (.store error) false) :
    (plan rules).Refuses := by
  intro earlier request disruption hd
  obtain ⟨rule, hrule, rfl⟩ := exists_rule_of_disrupt hd
  obtain ⟨error, heq⟩ := h rule hrule
  exact ⟨error, by rw [heq]; rfl⟩

theorem refuses_plan_singleton {rule : Rule} {error : StoreError}
    (h : rule.effect = .fail (.store error) false) : (plan [rule]).Refuses :=
  refuses_plan fun rule' hrule => ⟨error, by rw [List.mem_singleton.mp hrule, h]⟩

end Script

end KeyTree
