import KeyTree.Proofs.Matching
import KeyTree.Session

/-!
# Computations in sessions

A computation in a session is run in it, and an error leaves behind the session that it found. Two
sessions are in step when they hold file systems that are compared, have the same open handles, and
their worlds are related. Computations that match as computations over the store keep them in step,
and the calls that consist of such computations answer alike in both.

## Main definitions

* `Session.InStep` — sessions over two file systems with related worlds.
* `Session.Alike` — computations that answer alike and keep sessions in step.

## Main results

* `Session.liftStore_run`, `Session.perform_path` — what a computation over the store does to a
  session.
* `Session.Alike.bind`, `Session.alike_liftStore` — computations made of matching ones.
* `Session.performAll_inStep` — calls that are alike, one after another.
-/

namespace KeyTree.Session

/-! ### One session -/

variable {α β : Type}

theorem get_bind_run (f : Session → SessionM α) (session : Session) :
    (get >>= f).run.run session = (f session).run.run session := rfl

/-- An error ends a computation; the session stays as it was left. -/
theorem bind_run (x : SessionM α) (f : α → SessionM β) (session : Session) :
    (x >>= f).run.run session =
      match x.run.run session with
      | (.ok a, session) => (f a).run.run session
      | (.error error, session) => (.error error, session) := by
  rw [ExceptT.run_bind, StateT.run_bind]
  rcases x.run.run session with ⟨result, after⟩
  cases result <;> rfl

/-- A computation over the store changes nothing in a session but the world. -/
theorem liftStore_run (x : StoreM α) (session : Session) :
    (liftStore x).run.run session = ((x.exec session.plan session.world).1,
      { session with world := (x.exec session.plan session.world).2 }) := by
  rw [liftStore, get_bind_run]
  rcases x.exec session.plan session.world with ⟨result, after⟩
  cases result <;> rfl

theorem perform_path (session : Session) (call : PathCall) :
    session.perform (.path call) =
      (((performPath session.fs call).exec session.plan session.world).1,
        { session with
          world := ((performPath session.fs call).exec session.plan session.world).2 }) := by
  rw [perform, performM, get_bind_run, liftStore_run]

theorem streamOf_run {session : Session} {name : String} {stream : OutputStream}
    (h : session.handles[name]? = some (.stream stream)) :
    (streamOf name).run.run session = (.ok stream, session) := by
  rw [streamOf, get_bind_run, h]
  rfl

theorem keep_run (name : String) (handle : Handle) (session : Session) :
    (keep name handle).run.run session =
      (.ok (), { session with handles := session.handles.insert name handle }) := rfl

/-- A stream is closed, and comes back with what storing its object comes back with. -/
theorem closeStream_run {session : Session} {name : String} {stream : OutputStream}
    (h : session.handles[name]? = some (.stream stream)) :
    (closeStream name).run.run session =
      ((stream.store.exec session.plan session.world).1,
        { session with
          handles := session.handles.insert name (.stream stream.close)
          world := (stream.store.exec session.plan session.world).2 }) := by
  rw [closeStream, bind_run, streamOf_run h]
  dsimp only
  rw [bind_run, keep_run]
  exact liftStore_run _ _

/-! ### Two sessions -/

/-- Sessions over two file systems are *in step* when they run under the plan of a comparison, their
worlds are related, and the same is open in both. -/
structure InStep (c : Comparison) (fs fs' : FileSystem) (session other : Session) : Prop where
  fs_eq : session.fs = fs
  other_fs_eq : other.fs = fs'
  plan_eq : session.plan = c.plan
  other_plan_eq : other.plan = c.plan
  related : c.related session.world other.world
  handles_eq : other.handles = session.handles

/-- Computations are *alike* when, from sessions in step, they come back with the same and leave
sessions in step. -/
def Alike (c : Comparison) (fs fs' : FileSystem) (x y : SessionM α) : Prop :=
  ∀ session other, InStep c fs fs' session other →
    (y.run.run other).1 = (x.run.run session).1 ∧
      InStep c fs fs' (x.run.run session).2 (y.run.run other).2

variable {c : Comparison} {fs fs' : FileSystem}

theorem alike_pure (a : α) : Alike c fs fs' (pure a) (pure a) :=
  fun _ _ h => ⟨rfl, h⟩

theorem alike_throw (error : Error) : Alike (α := α) c fs fs' (throw error) (throw error) :=
  fun _ _ h => ⟨rfl, h⟩

theorem Alike.bind {x y : SessionM α} {f g : α → SessionM β} (h : Alike c fs fs' x y)
    (hnext : ∀ a, Alike c fs fs' (f a) (g a)) : Alike c fs fs' (x >>= f) (y >>= g) := by
  intro session other hstep
  have hx := h session other hstep
  rw [bind_run, bind_run]
  generalize x.run.run session = outcome at hx
  generalize y.run.run other = outcome' at hx
  rcases outcome with ⟨result, after⟩
  rcases outcome' with ⟨result', after'⟩
  obtain ⟨hresult, hafter⟩ := hx
  obtain rfl : result' = result := hresult
  cases result' with
  | ok a => exact hnext a _ _ hafter
  | error error => exact ⟨rfl, hafter⟩

/-- Computations that look at the session first are alike if they are so for all sessions over the
two file systems. -/
theorem alike_get {f g : Session → SessionM α} (h : ∀ session other : Session, session.fs = fs →
    other.fs = fs' → Alike c fs fs' (f session) (g other)) :
    Alike c fs fs' (get >>= f) (get >>= g) := by
  intro session other hstep
  rw [get_bind_run, get_bind_run]
  exact h session other hstep.fs_eq hstep.other_fs_eq session other hstep

/-- Computations over the store that match are alike. -/
theorem alike_liftStore {x y : StoreM α} (h : c.Matches Eq x y) :
    Alike c fs fs' (liftStore x) (liftStore y) := by
  intro session other hstep
  have houtcomes := h _ _ hstep.related
  rw [liftStore_run, liftStore_run]
  rw [← hstep.plan_eq] at houtcomes
  nth_rewrite 2 [hstep.plan_eq.trans hstep.other_plan_eq.symm] at houtcomes
  generalize x.exec session.plan session.world = outcome at houtcomes
  generalize y.exec other.plan other.world = outcome' at houtcomes
  cases houtcomes with
  | ok hsame hafter => exact ⟨by rw [hsame], { hstep with related := hafter }⟩
  | error _ hafter => exact ⟨rfl, { hstep with related := hafter }⟩

theorem alike_streamOf (name : String) : Alike c fs fs' (streamOf name) (streamOf name) := by
  intro session other hstep
  rw [streamOf, get_bind_run, get_bind_run, hstep.handles_eq]
  split
  · exact ⟨rfl, hstep⟩
  · exact ⟨rfl, hstep⟩

theorem alike_keep (name : String) (handle : Handle) :
    Alike c fs fs' (keep name handle) (keep name handle) :=
  fun _ _ hstep => ⟨rfl, { hstep with
    handles_eq := congrArg (fun handles => handles.insert name handle) hstep.handles_eq }⟩

theorem alike_forM {f g : α → SessionM Unit} (h : ∀ a, Alike c fs fs' (f a) (g a)) (l : List α) :
    Alike c fs fs' (l.forM f) (l.forM g) := by
  induction l with
  | nil => exact alike_pure ()
  | cons a l ih => exact (h a).bind fun _ => ih

/-- Calls that are alike come back with the same, one after another, and leave sessions in step. -/
theorem performAll_inStep {calls : List Call}
    (hcalls : ∀ call ∈ calls, Alike c fs fs' (performM call) (performM call))
    {session other : Session} (h : InStep c fs fs' session other) :
    (other.performAll calls).1 = (session.performAll calls).1 ∧
      InStep c fs fs' (session.performAll calls).2 (other.performAll calls).2 := by
  induction calls generalizing session other with
  | nil => exact ⟨rfl, h⟩
  | cons call calls ih =>
    obtain ⟨hanswer, hafter⟩ := hcalls call List.mem_cons_self session other h
    obtain ⟨hanswers, hend⟩ := ih (fun later hmem => hcalls later (List.mem_cons_of_mem _ hmem))
      hafter
    exact ⟨congrArg₂ List.cons hanswer hanswers, hend⟩

end KeyTree.Session
