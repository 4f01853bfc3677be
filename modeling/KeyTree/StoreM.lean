import KeyTree.Config.Connection
import KeyTree.Error
import KeyTree.Event
import KeyTree.Store.Service

/-!
# Computations over a store

Operations send requests, record events and may end with an error. What has happened is kept in a
journal; the store and the journal survive an error.

## Main definitions

* `World` — the store and the journal.
* `StoreM` — computations over a world under a plan.
* `send`, `log` — the two ways to act.
* `StoreM.exec` — what a computation does to a world.

## Main results

* `StoreM.exec_bind`, `exec_send`, `exec_log` — what sequencing and the two ways to act do.
-/

namespace KeyTree

/-- What the journal records. -/
inductive Entry where
  | request (request : Request)
  | event (event : Event)
  /-- A connection to the store was opened. -/
  | connection (connection : Connection)
deriving DecidableEq

/-- A store and what has happened so far, the latest first. -/
structure World where
  store : Store
  journal : List Entry := []
deriving DecidableEq

/-- The requests among journal entries. -/
def requestsOf (journal : List Entry) : List Request :=
  journal.filterMap fun
    | .request request => some request
    | _ => none

/-- The requests sent so far, the latest first. -/
def World.requests (world : World) : List Request :=
  requestsOf world.journal

/-- Computations that send requests to a store under a plan, record events, and may end with an
error. -/
abbrev StoreM := ReaderT Plan (ExceptT Error (StateM World))

namespace StoreM

/-- The result of a computation and the world after it. -/
def exec {α : Type} (x : StoreM α) (plan : Plan) (world : World) : Except Error α × World :=
  ((x.run plan).run).run world

@[simp]
theorem exec_pure {α : Type} (a : α) (plan : Plan) (world : World) :
    (pure a : StoreM α).exec plan world = (.ok a, world) := rfl

@[simp]
theorem exec_throw {α : Type} (error : Error) (plan : Plan) (world : World) :
    (throw error : StoreM α).exec plan world = (.error error, world) := rfl

/-- An error ends a computation; the world stays as it was left. -/
theorem exec_bind {α β : Type} (x : StoreM α) (f : α → StoreM β) (plan : Plan) (world : World) :
    (x >>= f).exec plan world =
      match x.exec plan world with
      | (.ok a, world) => (f a).exec plan world
      | (.error error, world) => (.error error, world) := by
  simp only [exec, ReaderT.run_bind, ExceptT.run_bind, StateT.run_bind]
  rcases ((x.run plan).run).run world with ⟨result, after⟩
  cases result <;> rfl

/-- A function of the result leaves the world alone. -/
theorem exec_map {α β : Type} (f : α → β) (x : StoreM α) (plan : Plan) (world : World) :
    (f <$> x).exec plan world =
      match x.exec plan world with
      | (.ok a, world) => (.ok (f a), world)
      | (.error error, world) => (.error error, world) := by
  simp only [exec, ReaderT.run_map, ExceptT.run_map, StateT.run_map]
  rcases ((x.run plan).run).run world with ⟨result, after⟩
  cases result <;> rfl

/-- A bound for the pages of a listing. Each page of the store names a key at least, and a listing
starts again no more often than the plan answers itself. -/
def pageBound : StoreM Nat := do
  let plan ← read
  return (plan.patience + 1) * ((← get).store.objects.size + plan.patience + 2)

/-- A bound for the depth of a tree: each level takes a character of a name. -/
def depthBound : StoreM Nat := do
  let plan ← read
  return (← get).store.objects.keys.foldl (fun longest key => max longest key.length)
    plan.longestName + 1

end StoreM

/-- Sends a request to a bucket. A failed request is a value; a breakdown is an error. -/
def send (bucket : List Char) (request : Request) : StoreM (Except ServiceFault request.Reply) := do
  let plan ← read
  let world ← get
  let (outcome, store) := serve plan world.requests world.store bucket request
  set { store, journal := .request request :: world.journal : World }
  match outcome with
  | .ok reply => return .ok reply
  | .error (.store error) => return .error ⟨request, error⟩
  | .error (.breakdown cause) => throw (.breakdown cause)

/-- Records an event. -/
def log (level : Level) (text : List Char) (context : List (String × Datum)) : StoreM Unit :=
  modify fun world => { world with journal := .event ⟨level, text, context⟩ :: world.journal }

/-- A request is served once and goes into the journal. -/
theorem exec_send (bucket : List Char) (request : Request) (plan : Plan) (world : World) :
    (send bucket request).exec plan world =
      (match (serve plan world.requests world.store bucket request).1 with
        | .ok reply => .ok (.ok reply)
        | .error (.store error) => .ok (.error ⟨request, error⟩)
        | .error (.breakdown cause) => .error (.breakdown cause),
      { store := (serve plan world.requests world.store bucket request).2,
        journal := .request request :: world.journal }) := by
  have sent : (send bucket request).exec plan world =
      StoreM.exec
        (match (serve plan world.requests world.store bucket request).1 with
          | .ok reply => pure (.ok reply)
          | .error (.store error) => pure (.error ⟨request, error⟩)
          | .error (.breakdown cause) => throw (.breakdown cause))
        plan
        { store := (serve plan world.requests world.store bucket request).2,
          journal := .request request :: world.journal } := rfl
  rw [sent]
  rcases (serve plan world.requests world.store bucket request).1 with failure | reply
  · cases failure <;> rfl
  · rfl

/-- An event goes into the journal and changes nothing else. -/
@[simp]
theorem exec_log (level : Level) (text : List Char) (context : List (String × Datum)) (plan : Plan)
    (world : World) :
    (log level text context).exec plan world =
      (.ok (), { world with journal := .event ⟨level, text, context⟩ :: world.journal }) := rfl

end KeyTree
