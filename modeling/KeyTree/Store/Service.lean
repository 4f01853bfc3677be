import KeyTree.Store.Basic

/-!
# Serving requests

Between the sender and the store a request may be disrupted: it fails before it is carried out, or
after, or gets a reply that the store did not give, or reaches the store although it is addressed to
another bucket. A *plan* says which requests are disrupted, and may look at all earlier requests for
that.

## Main definitions

* `Disruption`, `Plan` — what can happen to a request, and when.
* `serve` — what a request comes back with, and the store after it.
* `Plan.Refuses` — plans under which disrupted requests fail as requests do, and change nothing.
-/

namespace KeyTree

/-- What can happen to a request on the way. -/
inductive Disruption (Reply : Type) where
  /-- It fails and is not carried out. -/
  | fail (failure : Failure)
  /-- It is carried out and then reported as failed. A request that fails by itself fails with its
  own error, but one that only asks about objects leaves nothing to carry out. -/
  | failAfter (failure : Failure)
  /-- It gets this reply and is not carried out. -/
  | answer (reply : Reply)
  /-- It is carried out, whatever bucket it is addressed to. -/
  | carryOut

/-- Which requests are disrupted. -/
structure Plan where
  /-- What happens to a request after the earlier requests, the latest first. -/
  disrupt : List Request → (request : Request) → Option (Disruption request.Reply)
  /-- How often listings that the plan answers itself can turn out not to be the last page. It
  bounds the loops over pages together with the number of keys. -/
  patience : Nat := 0
  /-- The length of the longest name in the listings that the plan answers itself. It bounds the
  depth of trees together with the lengths of the keys. -/
  longestName : Nat := 0

namespace Plan

/-- Nothing is disrupted. -/
def quiet : Plan where
  disrupt _ _ := none

/-- The plan that treats the first `count` requests as none of its own. -/
def startingAfter (count : Nat) (plan : Plan) : Plan :=
  { plan with
    disrupt := fun earlier request => plan.disrupt (earlier.take (earlier.length - count)) request }

/-- A plan *refuses* when every disrupted request fails with a store error and is not carried
out. -/
def Refuses (plan : Plan) : Prop :=
  ∀ earlier request disruption, plan.disrupt earlier request = some disruption →
    ∃ error, disruption = .fail (.store error)

theorem refuses_quiet : quiet.Refuses := by
  intro earlier request disruption h
  simp [quiet] at h

end Plan

/-- Whether a request names a key, as all but listings must. -/
def Request.hasKey : Request → Bool
  | .list _ => true
  | request => request.target ≠ []

/-- Whether a request only asks about objects: their metadata or their names. -/
def Request.asksOnly : Request → Bool
  | .head _ | .list _ => true
  | _ => false

/-- Serves a request to a bucket. An empty key is noticed by the sender; then the plan has its say;
only a request that it leaves alone has to be addressed to the store's bucket. -/
def serve (plan : Plan) (earlier : List Request) (store : Store) (bucket : List Char)
    (request : Request) : Except Failure request.Reply × Store :=
  if request.hasKey then
    match plan.disrupt earlier request with
    | some (.fail failure) => (.error failure, store)
    | some (.failAfter failure) =>
      if request.asksOnly then (.error failure, store)
      else
        let (outcome, store) := store.perform request
        (match outcome with
          | .ok _ => .error failure
          | .error error => .error (.store error), store)
    | some (.answer reply) => (.ok reply, store)
    | some .carryOut =>
      let (outcome, store) := store.perform request
      (outcome.mapError .store, store)
    | none =>
      if bucket = store.bucket then
        let (outcome, store) := store.perform request
        (outcome.mapError .store, store)
      else (.error (.store (.missingBucket request)), store)
  else (.error (.store .emptyKey), store)

/-- The bucket and the step of the clock never change. -/
theorem serve_snd_bucket (plan : Plan) (earlier : List Request) (store : Store)
    (bucket : List Char) (request : Request) :
    (serve plan earlier store bucket request).2.bucket = store.bucket ∧
      (serve plan earlier store bucket request).2.tick = store.tick := by
  unfold serve
  split
  · split
    · exact ⟨rfl, rfl⟩
    · split
      · exact ⟨rfl, rfl⟩
      · exact store.perform_snd_bucket request
    · exact ⟨rfl, rfl⟩
    · exact store.perform_snd_bucket request
    · split
      · exact store.perform_snd_bucket request
      · exact ⟨rfl, rfl⟩
  · exact ⟨rfl, rfl⟩

/-- Requests that do not write leave the store alone. -/
theorem serve_snd_of_not_writes (plan : Plan) (earlier : List Request) (store : Store)
    (bucket : List Char) {request : Request} (h : request.writes = false) :
    (serve plan earlier store bucket request).2 = store := by
  unfold serve
  split
  · split
    · rfl
    · split
      · rfl
      · exact store.perform_snd_of_not_writes h
    · rfl
    · exact store.perform_snd_of_not_writes h
    · split
      · exact store.perform_snd_of_not_writes h
      · rfl
  · rfl

end KeyTree
