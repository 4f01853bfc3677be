import KeyTree.Proofs.FileSystem.Depth
import KeyTree.Proofs.Session

/-!
# The errors that calls end with

A failed request is recorded as an event, and the operation that sent it goes on with a careful
answer: what cannot be looked up counts as absent, what cannot be changed is reported as not done.
Only few errors are left over for the caller, each of a call that documents it. A stream takes
whatever is written until it is closed, and closing it tells whether its object could be stored.

## Main definitions

* `Session.InOrder` — calls on paths in the bucket and on open streams.
* `Session.Ends` — how such a call may end.

## Main results

* `FileSystem.error?_of_onlyFails` — the only error that a call on paths may end with.
* `Session.perform_ends` — how one call ends.
* `Session.performAll_ends` — how the calls of a session end.
-/

namespace KeyTree

open Key

/-- Closing an open stream comes back with what its upload comes back with. -/
theorem OutputStream.exec_store {stream : OutputStream} (plan : Plan) (world : World)
    (hopen : stream.closed = false) :
    (stream.store.exec plan world).1 =
        (match (serve plan world.requests world.store stream.bucket.name
            (.upload stream.key stream.written)).1 with
          | .ok () => .ok ()
          | .error (.store error) => .error (.service ⟨.upload stream.key stream.written, error⟩)
          | .error (.breakdown cause) => .error (.breakdown cause)) ∧
      (stream.store.exec plan world).2.store = (serve plan world.requests world.store
        stream.bucket.name (.upload stream.key stream.written)).2 := by
  rw [OutputStream.store, if_neg (by simp [hopen]), StoreM.exec_bind, Bucket.upload, exec_send]
  rcases (serve plan world.requests world.store stream.bucket.name
    (.upload stream.key stream.written)).1 with (error | cause) | reply
  · exact ⟨rfl, rfl⟩
  · exact ⟨rfl, rfl⟩
  · exact ⟨rfl, rfl⟩

namespace FileSystem

variable {fs : FileSystem} {plan : Plan} {world : World}

/-- Under a plan that only fails requests, requests end like themselves over any store that holds
the bucket. -/
theorem mirror_mounted (hplan : plan.OnlyFails) (hnamed : ∃ ch ∈ fs.bucket.name, ch ≠ separator)
    (raises : Error → Prop) :
    Mirror (ownRuns plan fs.Mounted raises) fs fs.config.pageSize fs.config.pageSize_pos id
      (fun _ => True) (fun _ => True) :=
  mirror_ownRuns hplan hnamed (fun _ h => h.bucket_eq) (fun _ key body h _ => h.put key body)
    fun _ key h => h.remove key

variable (hplan : plan.OnlyFails) (hm : fs.Mounted world.store)

include hplan hm

/-- Whichever requests fail, a call on paths in the bucket ends with no error but its own. -/
theorem error?_of_onlyFails (call : PathCall)
    (hpaths : ∀ path ∈ call.paths, ∃ key, normalize? fs.root path = some key) :
    fs.Mounted ((Session.performPath fs call).exec plan world).2.store ∧
      ∀ error, ((Session.performPath fs call).exec plan world).1 = .error error →
        call.error? = some error := by
  have m := mirror_mounted hplan hm.named fun error => call.error? = some error
  refine outcome_of_matches_ownRuns (m.matches_performPath call ?_
    (fun _ _ key _ => Mirror.opens_all _ key) (fun _ _ _ _ k _ => Mirror.opens_all _ k)
    (fun _ => id) (fun _ => Function.injective_id) ?_) hm
  · intro path hmem hnone
    obtain ⟨key, hpath⟩ := hpaths path hmem
    exact absurd (hpath.symm.trans hnone) nofun
  · rintro source target rfl
    obtain ⟨S, hsource⟩ := hpaths source (by simp [PathCall.paths])
    obtain ⟨T, htarget⟩ := hpaths target (by simp [PathCall.paths])
    refine matches_ownRuns fun world hmounted => ?_
    exact (returns_renameDirectory_of_onlyFails hplan hmounted hsource htarget).mono
      fun _ _ hafter => ⟨rfl, hafter⟩

/-- Whichever requests fail, a stream is opened, unless a missing directory was to be created for
it. -/
theorem create_of_onlyFails {path : Path} (createParent : Bool)
    (hpath : ∃ key, normalize? fs.root path = some key) :
    fs.Mounted ((fs.create path createParent).exec plan world).2.store ∧
      ∀ error, ((fs.create path createParent).exec plan world).1 = .error error →
        createParent = true ∧ error = .noParent path := by
  have m := mirror_mounted hplan hm.named fun error => createParent = true ∧ error = .noParent path
  refine outcome_of_matches_ownRuns (m.matches_create ?_
    (fun _ _ k _ => Mirror.opens_all _ k) createParent fun h => ⟨h, rfl⟩) hm
  intro hnone
  obtain ⟨key, hpath⟩ := hpath
  exact absurd (hpath.symm.trans hnone) nofun

end FileSystem

namespace Session

/-- A call is *in order* in a session when its paths are in the bucket, and the stream that it writes
to or closes is open. -/
inductive InOrder (session : Session) : Call → Prop
  | path {call : PathCall}
      (h : ∀ path ∈ call.paths, ∃ key, normalize? session.fs.root path = some key) :
      InOrder session (.path call)
  | create {name : String} {path : Path} {createParent : Bool}
      (h : ∃ key, normalize? session.fs.root path = some key) :
      InOrder session (.stream name (.create path createParent))
  | write {name : String} {data : Bytes} {stream : OutputStream}
      (h : session.handles[name]? = some (.stream stream)) (hopen : stream.closed = false) :
      InOrder session (.stream name (.write data))
  | close {name : String} {stream : OutputStream}
      (h : session.handles[name]? = some (.stream stream)) (hopen : stream.closed = false) :
      InOrder session (.stream name .close)

/-- What the upload of a stream that is being closed comes back with. -/
def upload (session : Session) (stream : OutputStream) : Except Failure Unit :=
  (serve session.plan session.world.requests session.world.store stream.bucket.name
    (.upload stream.key stream.written)).1

/-- How a call that is in order ends, whichever requests fail. -/
inductive Ends (session : Session) : Call → Except Error Answer → Prop
  /-- A call on paths ends with no error but its own. -/
  | path {call : PathCall} {result : Except Error Answer}
      (h : ∀ error, result = .error error → call.error? = some error) :
      Ends session (.path call) result
  /-- A stream is opened, unless a missing directory was to be created for it. -/
  | create {name : String} {path : Path} {createParent : Bool} {result : Except Error Answer}
      (h : ∀ error, result = .error error → createParent = true ∧ error = .noParent path) :
      Ends session (.stream name (.create path createParent)) result
  /-- An open stream takes what is written. -/
  | write {name : String} {data : Bytes} :
      Ends session (.stream name (.write data)) (.ok (.number data.length))
  /-- An open stream is closed without an error if its upload succeeds. -/
  | stored {name : String} {stream : OutputStream}
      (h : session.handles[name]? = some (.stream stream))
      (hupload : session.upload stream = .ok ()) :
      Ends session (.stream name .close) (.ok .nothing)
  /-- It tells why its upload fails. -/
  | failed {name : String} {stream : OutputStream} {error : StoreError}
      (h : session.handles[name]? = some (.stream stream))
      (hupload : session.upload stream = .error (.store error)) :
      Ends session (.stream name .close)
        (.error (.service ⟨.upload stream.key stream.written, error⟩))

/-- What a session keeps: its file system, and that the store holds the bucket. -/
structure Keeps (session after : Session) : Prop where
  fs_eq : after.fs = session.fs
  plan_eq : after.plan = session.plan
  mounted : after.fs.Mounted after.world.store

section

variable {session : Session} (hplan : session.plan.OnlyFails)
  (hm : session.fs.Mounted session.world.store)

include hplan hm

/-- Whichever requests fail, a call that is in order ends as documented, and the session goes on. -/
theorem perform_ends {call : Call} (hcall : session.InOrder call) :
    session.Ends call (session.perform call).1 ∧ session.Keeps (session.perform call).2 := by
  cases hcall with
  | @path call hpaths =>
    obtain ⟨hafter, herror⟩ := FileSystem.error?_of_onlyFails hplan hm call hpaths
    rw [perform_path]
    exact ⟨.path herror, rfl, rfl, hafter⟩
  | @create name path createParent hpath =>
    obtain ⟨hafter, herror⟩ := FileSystem.create_of_onlyFails hplan hm createParent hpath
    rw [perform, performM, performStream, get_bind_run, bind_run, liftStore_run]
    generalize (session.fs.create path createParent).exec session.plan session.world = outcome
      at hafter herror
    rcases outcome with ⟨error | stream, after⟩
    · exact ⟨.create fun _ heq => herror _ (by rw [Except.error.inj heq]), rfl, rfl, hafter⟩
    · exact ⟨.create (by rintro _ ⟨⟩), rfl, rfl, hafter⟩
  | @write name data stream hhandle hopen =>
    have hwrite : stream.write data = .ok { stream with written := stream.written ++ data } := by
      rw [OutputStream.write, if_neg (by simp [hopen])]
    rw [perform, performM, performStream, bind_run, writeTo, bind_run, streamOf_run hhandle]
    dsimp only
    rw [hwrite]
    exact ⟨.write, rfl, rfl, hm⟩
  | @close name stream hhandle hopen =>
    obtain ⟨hresult, hstore⟩ := OutputStream.exec_store session.plan session.world hopen
    have hafter : session.fs.Mounted (stream.store.exec session.plan session.world).2.store := by
      rw [hstore]
      exact ⟨hm.bucket_eq.trans (serve_snd_bucket ..).1.symm, hm.named⟩
    rw [perform, performM, performStream, bind_run, closeStream_run hhandle]
    rcases FileSystem.serve_fst_of_onlyFails hplan session.world.requests session.world.store
      stream.bucket.name (.upload stream.key stream.written) with ⟨error, hserve⟩ | hserve
    · rw [hserve] at hresult
      rw [hresult]
      exact ⟨.failed hhandle hserve, rfl, rfl, hafter⟩
    · rw [hserve] at hresult
      rw [hresult]
      exact ⟨.stored hhandle hserve, rfl, rfl, hafter⟩

/-- Whichever requests fail, in a session whose calls are all in order each of them ends as
documented. -/
theorem performAll_ends {calls : List Call} (hcalls : ∀ past call, past ++ [call] <+: calls →
      (session.performAll past).2.InOrder call) :
    ∀ past call, past ++ [call] <+: calls → (session.performAll past).2.Ends call
      ((session.performAll past).2.perform call).1 := by
  induction calls generalizing session with
  | nil =>
    intro past call hpast
    simp at hpast
  | cons first calls ih =>
    have hfirst : session.InOrder first := hcalls [] first (by simp)
    obtain ⟨hends, hkeeps⟩ := perform_ends hplan hm hfirst
    have hrest := ih (hkeeps.plan_eq ▸ hplan) hkeeps.mounted fun past call hpast =>
      hcalls (first :: past) call (List.cons_prefix_cons.mpr ⟨rfl, hpast⟩)
    intro past call hpast
    cases past with
    | nil =>
      obtain rfl : call = first := by simpa using hpast
      exact hends
    | cons earlier past =>
      obtain ⟨rfl, hnext⟩ := List.cons_prefix_cons.mp hpast
      exact hrest past call hnext

end

/-- Listings are refused without a code, and what is stored is reported as failed after it was
carried out. -/
def hardlyReplies : Plan :=
  Script.plan
    [{ method := some .list, effect := .fail (.store (.refused none none)) false },
      { method := some .put, effect := .fail (.store (.refused (some "SlowDown") none)) true },
      { method := some .upload,
        effect := .fail (.store (.transport (.readTimeout "endpoint"))) true }]

/-- A session over a bucket with a file in a directory. -/
def hardSession : Session :=
  { fs := FileSystem.plainBucket, plan := hardlyReplies,
    world := { store := .holding ['b'] [("s/x".toList, [1])] } }

/-- A directory is created, and a file in it is written. -/
def hardCalls : List Call :=
  [.path (.mkdirs (some ['d']) true), .stream "out" (.create "d/e/x".toList true),
    .stream "out" (.create "d/x".toList true), .stream "out" (.write [7]), .stream "out" .close]

theorem performAll_ends_hardCalls :
    hardSession.plan.OnlyFails ∧
      (∀ past call, past ++ [call] <+: hardCalls → (hardSession.performAll past).2.InOrder call) ∧
      (hardSession.performAll hardCalls).1 =
        [.ok (.flag false), .error (.noParent "d/e/x".toList), .ok (.text "d/x".toList),
          .ok (.number 1), .error (.service
            ⟨.upload "d/x".toList [7], .transport (.readTimeout "endpoint")⟩)] ∧
      (hardSession.performAll (hardCalls.take 4)).2.Ends (.stream "out" .close)
        ((hardSession.performAll (hardCalls.take 4)).2.perform (.stream "out" .close)).1 := by
  have hplan : hardSession.plan.OnlyFails := Script.onlyFails_plan fun rule hrule => by
    simp only [List.mem_cons, List.not_mem_nil, or_false] at hrule
    rcases hrule with rfl | rfl | rfl <;> exact ⟨_, _, rfl⟩
  have hm : hardSession.fs.Mounted hardSession.world.store := ⟨rfl, 'b', by decide, by decide⟩
  have hcalls : ∀ past call, past ++ [call] <+: hardCalls →
      (hardSession.performAll past).2.InOrder call := by
    intro past call hpast
    -- one case for each of the five calls
    rcases past with _ | ⟨c₁, _ | ⟨c₂, _ | ⟨c₃, _ | ⟨c₄, _ | ⟨c₅, past⟩⟩⟩⟩⟩ <;>
      simp [hardCalls] at hpast
    · subst hpast
      exact .path fun path hmem => ⟨['d'], by rw [List.mem_singleton.mp hmem]; decide +kernel⟩
    · obtain ⟨rfl, rfl⟩ := hpast
      exact .create ⟨"d/e/x".toList, by decide +kernel⟩
    · obtain ⟨rfl, rfl, rfl⟩ := hpast
      exact .create ⟨"d/x".toList, by decide +kernel⟩
    · obtain ⟨rfl, rfl, rfl, rfl⟩ := hpast
      exact @InOrder.write _ _ _ { bucket := ⟨['b']⟩, key := "d/x".toList } (by decide +kernel) rfl
    · obtain ⟨rfl, rfl, rfl, rfl, rfl⟩ := hpast
      exact @InOrder.close _ _ { bucket := ⟨['b']⟩, key := "d/x".toList, written := [7] }
        (by decide +kernel) rfl
  exact ⟨hplan, hcalls, by decide +kernel,
    performAll_ends hplan hm hcalls _ _ (by decide)⟩

end Session

end KeyTree
