import KeyTree.Proofs.FileSystem.Undisturbed
import KeyTree.Proofs.Session

/-!
# Page sizes

The page size decides how many requests a listing takes and where its pages end. If no request
fails, nothing else depends on it: every call on the file system comes back with the same and leaves
the same store behind, with the same times, because also the keys of a directory are deleted in the
same order.

## Main definitions

* `Call.onFileSystem` — the calls on paths and on the streams of a file system.
* `Session.withPageSize` — a session over the file system with another page size.

## Main results

* `Session.alike_performM` — every call is alike for both page sizes.
* `Session.performAll_withPageSize` — so is every sequence of calls.
-/

namespace KeyTree

open Key

/-- The calls on paths and on the streams of a file system. The others are calls on the bucket, on
cursors, on the store from outside, and whole commands. -/
def Call.onFileSystem : Call → Bool
  | .path _ | .ownership _ | .stream .. => true
  | _ => false

namespace FileSystem

/-- The comparison of runs in which nothing fails, from one store that holds the bucket. -/
def twinRuns (fs : FileSystem) : Comparison :=
  quietRuns (fun store other => store = other ∧ fs.Mounted store) fun _ => True

variable {fs : FileSystem} {α : Type}

/-- One store is similar to itself. -/
theorem similarity_eq (fs : FileSystem) :
    Similarity fs id (fun _ => True) (fun _ => True)
      (fun store other => store = other ∧ fs.Mounted store) where
  mounted := by
    rintro store _ ⟨rfl, hm⟩
    exact ⟨hm, hm⟩
  agree := by
    rintro store _ ⟨rfl, -⟩ k -
    rfl
  put := by
    rintro store _ key body ⟨rfl, hm⟩ -
    exact ⟨rfl, hm.put key body⟩
  remove := by
    rintro store _ key ⟨rfl, hm⟩ -
    exact ⟨rfl, hm.remove key⟩

/-- If nothing fails, any request to any bucket comes back with the same from the same store. -/
theorem matches_send_twinRuns (bucket : List Char) (request : Request) :
    fs.twinRuns.Matches Eq (send bucket request) (send bucket request) := by
  rintro world other ⟨hstore, hm⟩
  have hserve : serve fs.twinRuns.plan world.requests world.store bucket request =
      serve fs.twinRuns.plan other.requests other.store bucket request := by
    rw [hstore]
    rfl
  have hafter : fs.twinRuns.related
      { store := (serve fs.twinRuns.plan other.requests other.store bucket request).2,
        journal := .request request :: world.journal }
      { store := (serve fs.twinRuns.plan other.requests other.store bucket request).2,
        journal := .request request :: other.journal } := by
    refine ⟨rfl, ?_, hm.named⟩
    rw [(serve_snd_bucket ..).1, ← hstore]
    exact hm.bucket_eq
  rw [exec_send, exec_send, hserve]
  rcases (serve fs.twinRuns.plan other.requests other.store bucket request).1 with
    (error | cause) | reply
  · exact .ok rfl hafter
  · exact .error trivial hafter
  · exact .ok rfl hafter

/-- A stream over any bucket is stored alike. -/
theorem matches_store_twinRuns (stream : OutputStream) :
    fs.twinRuns.Matches Eq stream.store stream.store := by
  rw [OutputStream.store]
  split
  · exact Comparison.matches_pure rfl
  · refine (matches_send_twinRuns stream.bucket.name _).bind_eq fun reply => ?_
    cases reply with
    | ok _ => exact Comparison.matches_log fun _ _ _ h => h
    | error fault => exact Comparison.matches_throw trivial

variable (hnamed : ∃ ch ∈ fs.bucket.name, ch ≠ separator) (size : Nat) (hsize : 0 < size)

include hnamed

theorem mirror_twinRuns :
    Mirror fs.twinRuns fs size hsize id (fun _ => True) (fun _ => True) :=
  fs.similarity_eq.mirror hnamed size hsize

theorem matches_renameDirectory_twinRuns (source target : Path) :
    fs.twinRuns.Matches Eq (fs.renameDirectory source target)
      ((fs.withPageSize size hsize).renameDirectory source target) := by
  have hdepth : fs.twinRuns.Matches Eq StoreM.depthBound StoreM.depthBound := by
    rintro world other ⟨hstore, hm⟩
    rcases other with ⟨store, journal⟩
    obtain rfl : world.store = store := hstore
    exact .ok rfl ⟨rfl, hm⟩
  have hdescends : Mirror.Descends fs.twinRuns fs (fun _ => True) (fun _ => True)
      fun _ _ _ => True := by
    refine ⟨fun _ _ _ _ _ _ _ => trivial, fun _ _ _ _ _ _ key _ _ => Mirror.opens_all _ key,
      fun _ _ _ => trivial, ?_⟩
    intro depth source target S T _ _ _ _ _ _ world other entry _ _
    exact ⟨Mirror.opens_all _ _, Mirror.opens_all _ _, fun _ => trivial⟩
  exact hdepth.bind_eq fun depth =>
    (mirror_twinRuns hnamed size hsize).matches_renameWithin hdescends depth trivial

theorem matches_performPath_twinRuns (call : PathCall) :
    fs.twinRuns.Matches Eq (Session.performPath fs call)
      (Session.performPath (fs.withPageSize size hsize) call) := by
  have h := (mirror_twinRuns hnamed size hsize).matches_performPath call
    (fun _ _ _ => trivial) (fun _ _ key _ => Mirror.opens_all _ key)
    (fun _ _ _ _ k _ => Mirror.opens_all _ k) (fun _ _ => trivial) (fun _ => Function.injective_id)
    fun source target _ => matches_renameDirectory_twinRuns hnamed size hsize source target
  exact h.mono fun a b hab => by rwa [Answer.seen_id, Answer.seen_id] at hab

end FileSystem

namespace Session

variable {fs : FileSystem} (hnamed : ∃ ch ∈ fs.bucket.name, ch ≠ separator) (size : Nat)
  (hsize : 0 < size)

/-! ### Streams -/

theorem alike_writeTo (name : String) (data : Bytes) :
    Alike fs.twinRuns fs (fs.withPageSize size hsize) (writeTo name data) (writeTo name data) := by
  refine (alike_streamOf name).bind fun stream => ?_
  cases stream.write data with
  | ok stream => exact alike_keep name _
  | error error => exact alike_throw error

theorem alike_closeStream (name : String) :
    Alike fs.twinRuns fs (fs.withPageSize size hsize) (closeStream name) (closeStream name) :=
  (alike_streamOf name).bind fun stream => (alike_keep name _).bind fun _ =>
    alike_liftStore (FileSystem.matches_store_twinRuns stream)

theorem alike_requireOpen (name : String) :
    Alike fs.twinRuns fs (fs.withPageSize size hsize) (requireOpen name) (requireOpen name) := by
  refine (alike_streamOf name).bind fun stream => ?_
  split
  · exact alike_throw _
  · exact alike_pure ()

include hnamed in
theorem alike_performStream (name : String) (call : StreamCall) :
    Alike fs.twinRuns fs (fs.withPageSize size hsize) (performStream name call)
      (performStream name call) := by
  have hwrite : ∀ data : List Bytes, Alike fs.twinRuns fs (fs.withPageSize size hsize)
      (data.forM (writeTo name)) (data.forM (writeTo name)) :=
    alike_forM (alike_writeTo size hsize name)
  cases call with
  | create path createParent =>
    have hcreate : fs.twinRuns.Matches Eq (fs.create path createParent)
        ((fs.withPageSize size hsize).create path createParent) := by
      rw [FileSystem.create_withPageSize]
      refine ((FileSystem.mirror_twinRuns hnamed size hsize).matches_create (fun _ => trivial)
        (fun _ _ k _ => FileSystem.Mirror.opens_all _ k) createParent fun _ => trivial).mono ?_
      exact fun stream stream' h => h.1.symm
    refine alike_get fun session other hfs hother => ?_
    rw [hfs, hother]
    exact (alike_liftStore hcreate).bind fun stream =>
      (alike_keep name _).bind fun _ => alike_pure _
  | new key spoolLimit =>
    refine alike_get fun session other hfs hother => ?_
    rw [hfs, hother]
    exact (alike_keep name _).bind fun _ => alike_pure _
  | write data => exact (alike_writeTo size hsize name data).bind fun _ => alike_pure _
  | writeLines data =>
    exact (alike_requireOpen size hsize name).bind fun _ =>
      (hwrite data).bind fun _ => alike_pure _
  | scope data failure =>
    refine (alike_requireOpen size hsize name).bind fun _ => (hwrite data).bind fun _ =>
      (alike_closeStream size hsize name).bind fun _ => ?_
    split
    · exact alike_throw _
    · exact alike_pure _
  | close => exact (alike_closeStream size hsize name).bind fun _ => alike_pure _
  | state => exact (alike_streamOf name).bind fun _ => alike_pure _

/-! ### Calls -/

include hnamed in
/-- If nothing fails, every call on the file system is alike for both page sizes. -/
theorem alike_performM {call : Call} (hcall : call.onFileSystem = true) :
    Alike fs.twinRuns fs (fs.withPageSize size hsize) (performM call) (performM call) := by
  cases call with
  | path call =>
    refine alike_get fun session other hfs hother => ?_
    rw [hfs, hother]
    exact alike_liftStore (FileSystem.matches_performPath_twinRuns hnamed size hsize call)
  | ownership call =>
    refine alike_get fun session other hfs hother => ?_
    rw [hfs, hother]
    cases call <;> exact alike_pure _
  | stream name call => exact alike_performStream hnamed size hsize name call
  | _ => exact absurd hcall Bool.false_ne_true

/-- The session over the file system with another page size. -/
def withPageSize (session : Session) (size : Nat) (hsize : 0 < size) : Session :=
  { session with fs := session.fs.withPageSize size hsize }

/-- If nothing fails, calls on a file system come back with the same under every page size, and
leave the same store behind, with its times and its clock. -/
theorem performAll_withPageSize {session : Session} (hquiet : session.plan = .quiet)
    (hm : session.fs.Mounted session.world.store) (size : Nat) (hsize : 0 < size)
    {calls : List Call} (hcalls : ∀ call ∈ calls, call.onFileSystem = true) :
    ((session.withPageSize size hsize).performAll calls).1 = (session.performAll calls).1 ∧
      ((session.withPageSize size hsize).performAll calls).2.world.store =
        (session.performAll calls).2.world.store ∧
      ((session.withPageSize size hsize).performAll calls).2.handles =
        (session.performAll calls).2.handles := by
  have hstep : InStep session.fs.twinRuns session.fs (session.fs.withPageSize size hsize) session
      (session.withPageSize size hsize) := ⟨rfl, rfl, hquiet, hquiet, ⟨rfl, hm⟩, rfl⟩
  obtain ⟨hanswers, hend⟩ :=
    performAll_inStep (fun call hmem => alike_performM hm.named size hsize (hcalls call hmem)) hstep
  exact ⟨hanswers, hend.related.1.symm, hend.handles_eq⟩

/-- A session whose listings show one name a page. -/
def narrowSession : Session :=
  { fs := FileSystem.narrowBucket, world := FileSystem.mixedNames }

/-- A tree is listed, gets a file, is renamed, and is deleted. -/
def treeCalls : List Call :=
  [.path (.listNames ['s'] true), .stream "out" (.create "s/d/z".toList true),
    .stream "out" (.write [7]), .stream "out" .close, .path (.renameDirectory ['s'] ['t']),
    .path (.listStatus ['t'] true), .path (.deleteDirectory ['t'] false),
    .path (.delete ['t'] true)]

/-- With two names a page the file `s/a` comes on one page and the group of its name on the
next. -/
theorem performAll_withPageSize_treeCalls :
    narrowSession.fs.Mounted narrowSession.world.store ∧
      (∀ call ∈ treeCalls, call.onFileSystem = true) ∧
      ((narrowSession.withPageSize 2 (by decide)).performAll treeCalls).1 =
        [.ok (.names [['a'], "a/x".toList, ['d'], ['y']]), .ok (.text "s/d/z".toList),
          .ok (.number 1), .ok .nothing, .ok (.flag true),
          .ok (.statuses
            [{ name := ['a'], isDirectory := false, length := 1, modified := some 8 },
              Status.directory ['d'],
              { name := "d/z".toList, isDirectory := false, length := 1, modified := some 10 }]),
          .error (.notEmpty ['t']), .ok (.flag true)] ∧
      ((narrowSession.withPageSize 2 (by decide)).performAll treeCalls).2.world.store =
        (narrowSession.performAll treeCalls).2.world.store := by
  have hm : narrowSession.fs.Mounted narrowSession.world.store := ⟨rfl, 'b', by decide, by decide⟩
  have hcalls : ∀ call ∈ treeCalls, call.onFileSystem = true := by decide
  obtain ⟨hanswers, hstore, -⟩ := performAll_withPageSize rfl hm 2 (by decide) hcalls
  exact ⟨hm, hcalls, hanswers.trans (by decide +kernel), hstore⟩

end Session

end KeyTree
