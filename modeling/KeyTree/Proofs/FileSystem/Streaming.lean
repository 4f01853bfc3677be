import KeyTree.Proofs.FileSystem.Outside
import KeyTree.Proofs.FileSystem.Raising

/-!
# Streams and their objects

In a session that opens, fills and closes streams in any order, a stream is what has been asked of
its name since it was opened last. Nothing is stored while it is open. Its first close sends one
upload, with all that was written to it, and changes at most the object of its key; whether or not
that succeeds the stream is closed, and stays so. So what is stored under a key in the end is the
body of the last stream whose upload to it was accepted.

## Main definitions

* `Session.OnStream` — the calls of such a session.
* `Session.Opened` — when a stream was opened, and what has been asked since.
* `Session.Proceeds` — what comes back from a call, and the world after it.
* `Session.Stores` — the calls that store the object of a stream.
* `Session.Settled` — what is stored under a key in the end.

## Main results

* `OutputStream.exec_store_of_refuses` — storing the object of a stream.
* `Session.Tracks.perform` — one call.
* `Session.performAll_streams` — the calls of a session.
-/

namespace KeyTree

open Key

/-! ### Storing the object of a stream -/

/-- A request is *accepted* when it passes and is addressed to the bucket of the store. -/
def Plan.Accepts (plan : Plan) (bucket : List Char) (world : World) (request : Request) : Prop :=
  plan.Passes world.requests request ∧ bucket = world.store.bucket

/-- Under a plan that refuses, a request that is not accepted fails and changes nothing. -/
theorem serve_of_not_accepts {plan : Plan} (hr : plan.Refuses) {bucket : List Char} {world : World}
    {request : Request} (h : ¬ plan.Accepts bucket world request) :
    ∃ error, serve plan world.requests world.store bucket request =
      (.error (.store error), world.store) := by
  by_cases hpass : plan.Passes world.requests request
  · have hbucket : bucket ≠ world.store.bucket := fun heq => h ⟨hpass, heq⟩
    refine ⟨.missingBucket request, ?_⟩
    rw [serve, if_pos hpass.1, hpass.2]
    exact if_neg hbucket
  · exact serve_of_not_passes hr hpass world.store bucket

/-- Closing an open stream sends its upload. If that is accepted the object is stored, and else the
error of the service comes back and the store is as it was. -/
theorem OutputStream.exec_store_of_refuses {plan : Plan} (hr : plan.Refuses) (world : World)
    {stream : OutputStream} (hopen : stream.closed = false) :
    (stream.store.exec plan world).2.requests =
        .upload stream.key stream.written :: world.requests ∧
      ((plan.Accepts stream.bucket.name world (.upload stream.key stream.written) ∧
          (stream.store.exec plan world).1 = .ok () ∧
          (stream.store.exec plan world).2.store = world.store.put stream.key stream.written) ∨
        (¬ plan.Accepts stream.bucket.name world (.upload stream.key stream.written) ∧
          (∃ error, (stream.store.exec plan world).1 =
            .error (.service ⟨.upload stream.key stream.written, error⟩)) ∧
          (stream.store.exec plan world).2.store = world.store)) := by
  rw [OutputStream.store, if_neg (by simp [hopen]), StoreM.exec_bind, Bucket.upload, exec_send]
  by_cases h : plan.Accepts stream.bucket.name world (.upload stream.key stream.written)
  · rw [serve_of_passes h.1 h.2]
    exact ⟨rfl, Or.inl ⟨h, rfl, rfl⟩⟩
  · obtain ⟨error, hserve⟩ := serve_of_not_accepts hr h
    rw [hserve]
    exact ⟨rfl, Or.inr ⟨h, ⟨error, rfl⟩, rfl⟩⟩

theorem OutputStream.exec_store_of_closed (plan : Plan) (world : World) {stream : OutputStream}
    (hclosed : stream.closed = true) : stream.store.exec plan world = (.ok (), world) := by
  rw [OutputStream.store, if_pos hclosed, StoreM.exec_pure]

namespace Session

variable {fs : FileSystem} {plan : Plan} {name other : String} {key key' : Key}
  {past since since' : List Call} {call : Call} {session : Session}

/-! ### What has been asked of a stream -/

/-- The calls that open streams, without directories for them, that write to them, and that close
them. -/
inductive OnStream : Call → Prop
  | create (name : String) (path : Path) : OnStream (.stream name (.create path false))
  | new (name : String) (key : Key) (spoolLimit : Int) : OnStream (.stream name (.new key spoolLimit))
  | write (name : String) (data : Bytes) : OnStream (.stream name (.write data))
  | close (name : String) : OnStream (.stream name .close)

/-- A call *opens* the stream of a name for a key. -/
inductive Opens (fs : FileSystem) (name : String) (key : Key) : Call → Prop
  | create {path : Path} (h : normalize? fs.root path = some key) :
      Opens fs name key (.stream name (.create path false))
  | new {spoolLimit : Int} : Opens fs name key (.stream name (.new key spoolLimit))

/-- The stream of a name has been *opened* for a key, last before the calls `since`. -/
structure Opened (fs : FileSystem) (name : String) (past : List Call) (key : Key)
    (since : List Call) : Prop where
  opening : ∃ before call, past = before ++ call :: since ∧ Opens fs name key call
  not_again : ∀ call ∈ since, ∀ key, ¬ Opens fs name key call

/-- What calls write to the stream of a name, in their order. -/
def writtenTo (name : String) (calls : List Call) : Bytes :=
  calls.flatMap fun
    | .stream other (.write data) => if other = name then data else []
    | _ => []

theorem writtenTo_append (name : String) (calls more : List Call) :
    writtenTo name (calls ++ more) = writtenTo name calls ++ writtenTo name more :=
  List.flatMap_append

theorem writtenTo_write (name : String) (data : Bytes) :
    writtenTo name [.stream name (.write data)] = data := by
  simp [writtenTo]

/-- What is asked of another stream writes nothing to this one. -/
theorem writtenTo_other (hne : other ≠ name) (call : StreamCall) :
    writtenTo name [.stream other call] = [] := by
  cases call with
  | write data => simp [writtenTo, hne]
  | _ => rfl

theorem Opens.key_unique (h : Opens fs name key call) (h' : Opens fs name key' call) :
    key = key' := by
  cases h with
  | create hpath =>
    cases h' with
    | create hpath' => exact Option.some.inj (hpath.symm.trans hpath')
  | new =>
    cases h' with
    | new => rfl

theorem Opened.of_opens (h : Opens fs name key call) : Opened fs name (past ++ [call]) key [] :=
  ⟨⟨past, call, rfl, h⟩, nofun⟩

/-- A call that does not open the stream adds to what has been asked of it. -/
theorem Opened.append (h : Opened fs name past key since)
    (hskip : ∀ key, ¬ Opens fs name key call) :
    Opened fs name (past ++ [call]) key (since ++ [call]) := by
  obtain ⟨⟨before, opening, rfl, hopens⟩, hagain⟩ := h
  refine ⟨⟨before, opening, by simp, hopens⟩, fun later hlater => ?_⟩
  rcases List.mem_append.mp hlater with hlater | hlater
  · exact hagain later hlater
  · rw [List.mem_singleton.mp hlater]
    exact hskip

/-- Where calls that end with `last` are cut in two: there, or before. -/
theorem cut_append_singleton {before later : List Call} {last : Call}
    (h : past ++ [last] = before ++ call :: later) :
    (past = before ∧ last = call ∧ later = []) ∨
      ∃ since, later = since ++ [last] ∧ past = before ++ call :: since := by
  rcases List.eq_nil_or_concat later with rfl | ⟨since, final, rfl⟩
  · obtain ⟨hpast, hlast⟩ := List.append_inj' h rfl
    exact Or.inl ⟨hpast, List.singleton_inj.mp hlast, rfl⟩
  · rw [List.concat_eq_append, ← List.cons_append, ← List.append_assoc] at h
    obtain ⟨hpast, hlast⟩ := List.append_inj' h rfl
    rw [List.singleton_inj.mp hlast, List.concat_eq_append]
    exact Or.inr ⟨since, rfl, hpast⟩

theorem not_opened_append (h : ∀ key since, ¬ Opened fs name past key since)
    (hskip : ∀ key, ¬ Opens fs name key call) :
    ∀ key since, ¬ Opened fs name (past ++ [call]) key since := by
  rintro key since ⟨⟨before, opening, heq, hopens⟩, hagain⟩
  rcases cut_append_singleton heq with ⟨-, rfl, -⟩ | ⟨since, rfl, hpast⟩
  · exact hskip key hopens
  · exact h key since ⟨⟨before, opening, hpast, hopens⟩, fun later hlater =>
      hagain later (List.mem_append_left _ hlater)⟩

/-- When a stream was opened last is determined by the calls. -/
theorem Opened.unique (h : Opened fs name past key since) (h' : Opened fs name past key' since') :
    key = key' ∧ since = since' := by
  -- of two openings, the later one would be among the calls since the earlier one
  have hlast : ∀ {key key' since since' opening opening'},
      opening' :: since' <:+ opening :: since → Opens fs name key opening →
      Opens fs name key' opening' → (∀ call ∈ since, ∀ key, ¬ Opens fs name key call) →
      key = key' ∧ since = since' := by
    intro key key' since since' opening opening' hsuffix hopens hopens' hagain
    rcases List.suffix_cons_iff.mp hsuffix with heq | hin
    · obtain ⟨rfl, rfl⟩ := List.cons.inj heq
      exact ⟨hopens.key_unique hopens', rfl⟩
    · exact absurd hopens' (hagain _ (hin.subset List.mem_cons_self) _)
  obtain ⟨⟨before, opening, heq, hopens⟩, hagain⟩ := h
  obtain ⟨⟨before', opening', heq', hopens'⟩, hagain'⟩ := h'
  rcases List.suffix_or_suffix_of_suffix ⟨before, heq.symm⟩ ⟨before', heq'.symm⟩ with hin | hin
  · obtain ⟨hkey, hsince⟩ := hlast hin hopens' hopens hagain'
    exact ⟨hkey.symm, hsince.symm⟩
  · exact hlast hin hopens hopens' hagain

/-! ### The streams of a session -/

/-- The handle of a name after calls: none if no stream has been opened, and else the stream, closed
if that has been asked since, and with all that has been written if it is open. -/
inductive HandleOf (fs : FileSystem) (past : List Call) (name : String) : Option Handle → Prop
  | unknown (h : ∀ key since, ¬ Opened fs name past key since) : HandleOf fs past name none
  | stream {key : Key} {since : List Call} {stream : OutputStream}
      (h : Opened fs name past key since) (hbucket : stream.bucket = fs.bucket)
      (hkey : stream.key = key) (hclosed : stream.closed = true ↔ .stream name .close ∈ since)
      (hwritten : stream.closed = false → stream.written = writtenTo name since) :
      HandleOf fs past name (some (.stream stream))

variable {handle : Option Handle}

/-- A call that neither opens nor closes the stream, and writes nothing to it, leaves its handle. -/
theorem HandleOf.append (h : HandleOf fs past name handle) (hskip : ∀ key, ¬ Opens fs name key call)
    (hclose : call ≠ .stream name .close) (hidle : writtenTo name [call] = []) :
    HandleOf fs (past ++ [call]) name handle := by
  cases h with
  | unknown h => exact .unknown (not_opened_append h hskip)
  | stream h hbucket hkey hclosed hwritten =>
    refine .stream (h.append hskip) hbucket hkey ?_ fun hopen => ?_
    · rw [hclosed, List.mem_append, List.mem_singleton, or_iff_left hclose.symm]
    · rw [writtenTo_append, hidle, List.append_nil, hwritten hopen]

theorem HandleOf.append_other (h : HandleOf fs past other handle) (hne : name ≠ other)
    (call : StreamCall) : HandleOf fs (past ++ [.stream name call]) other handle := by
  refine h.append ?_ ?_ (writtenTo_other hne call)
  · rintro key (_ | _)
    · exact hne rfl
    · exact hne rfl
  · rintro ⟨⟩
    exact hne rfl

/-- A stream that has just been opened is open and empty. -/
theorem HandleOf.of_opens (h : Opens fs name key call) {stream : OutputStream}
    (hbucket : stream.bucket = fs.bucket) (hkey : stream.key = key) (hopen : stream.closed = false)
    (hempty : stream.written = []) : HandleOf fs (past ++ [call]) name (some (.stream stream)) :=
  .stream (.of_opens h) hbucket hkey (by simp [hopen]) fun _ => hempty

/-- A session *tracks* calls when its handles are those after the calls. -/
def Tracks (past : List Call) (session : Session) : Prop :=
  ∀ name, HandleOf session.fs past name session.handles[name]?

theorem tracks_nil (hhandles : session.handles = ∅) : Tracks [] session := by
  intro name
  rw [hhandles, Std.ExtTreeMap.getElem?_empty]
  refine .unknown ?_
  rintro key since ⟨⟨before, call, heq, -⟩, -⟩
  simp at heq

/-- A call that changes no handle is tracked if the handle of its name is as the call says. -/
theorem Tracks.stay (h : Tracks past session) {call : StreamCall}
    (hself : HandleOf session.fs (past ++ [.stream name call]) name session.handles[name]?) :
    Tracks (past ++ [.stream name call]) session := by
  intro other
  by_cases hne : name = other
  · exact hne ▸ hself
  · exact (h other).append_other hne call

/-- So is one that keeps a stream under its name. -/
theorem Tracks.keep (h : Tracks past session) {call : StreamCall} {handle : Handle}
    (hself : HandleOf session.fs (past ++ [.stream name call]) name (some handle)) (world : World) :
    Tracks (past ++ [.stream name call])
      { session with handles := session.handles.insert name handle, world } := by
  intro other
  dsimp only
  rw [Std.ExtTreeMap.getElem?_insert]
  by_cases hne : name = other
  · rw [if_pos (by simpa using hne)]
    exact hne ▸ hself
  · rw [if_neg (by simpa using hne)]
    exact (h other).append_other hne call

/-! ### One call -/

/-- What comes back from a call after others, and the world after it. -/
inductive Proceeds (session : Session) (past : List Call) : Call → Except Error Answer → World → Prop
  /-- A stream is opened at the key of a path. -/
  | created {name : String} {path : Path} {key : Key}
      (h : normalize? session.fs.root path = some key) :
      Proceeds session past (.stream name (.create path false)) (.ok (.text key)) session.world
  /-- None is opened outside the bucket. -/
  | outside {name : String} {path : Path} (h : Outside session.fs.root path) :
      Proceeds session past (.stream name (.create path false))
        (.error (.outside path session.fs.root)) session.world
  /-- A stream is opened at a key. -/
  | new {name : String} {key : Key} {spoolLimit : Int} :
      Proceeds session past (.stream name (.new key spoolLimit)) (.ok .nothing) session.world
  /-- There is no stream of that name. -/
  | unknown {name : String} {call : StreamCall} (hcall : call = .close ∨ ∃ data, call = .write data)
      (h : ∀ key since, ¬ Opened session.fs name past key since) :
      Proceeds session past (.stream name call) (.error (.noHandle name)) session.world
  /-- An open stream takes what is written. -/
  | write {name : String} {data : Bytes} {key : Key} {since : List Call}
      (h : Opened session.fs name past key since) (hopen : .stream name .close ∉ since) :
      Proceeds session past (.stream name (.write data)) (.ok (.number data.length)) session.world
  /-- A closed one does not. -/
  | late {name : String} {data : Bytes} {key : Key} {since : List Call}
      (h : Opened session.fs name past key since) (hclosed : .stream name .close ∈ since) :
      Proceeds session past (.stream name (.write data)) (.error .closedStream) session.world
  /-- The first close of a stream stores all that was written to it. -/
  | stored {name : String} {key : Key} {since : List Call} {after : World}
      (h : Opened session.fs name past key since) (hopen : .stream name .close ∉ since)
      (haccepted : session.plan.Accepts session.fs.bucket.name session.world
        (.upload key (writtenTo name since)))
      (hsent : after.requests = .upload key (writtenTo name since) :: session.world.requests)
      (hstore : after.store = session.world.store.put key (writtenTo name since)) :
      Proceeds session past (.stream name .close) (.ok .nothing) after
  /-- It tells why that is not accepted. -/
  | failed {name : String} {key : Key} {since : List Call} {after : World} {error : StoreError}
      (h : Opened session.fs name past key since) (hopen : .stream name .close ∉ since)
      (hrefused : ¬ session.plan.Accepts session.fs.bucket.name session.world
        (.upload key (writtenTo name since)))
      (hsent : after.requests = .upload key (writtenTo name since) :: session.world.requests)
      (hstore : after.store = session.world.store) :
      Proceeds session past (.stream name .close)
        (.error (.service ⟨.upload key (writtenTo name since), error⟩)) after
  /-- Every further close does nothing. -/
  | again {name : String} {key : Key} {since : List Call}
      (h : Opened session.fs name past key since) (hclosed : .stream name .close ∈ since) :
      Proceeds session past (.stream name .close) (.ok .nothing) session.world

/-- A session *goes on* with a call after others when the call proceeds as it has to and is
tracked. -/
structure GoesOn (past : List Call) (session : Session) (call : Call) : Prop where
  proceeds : session.Proceeds past call (session.perform call).1 (session.perform call).2.world
  tracks : Tracks (past ++ [call]) (session.perform call).2
  fs_eq : (session.perform call).2.fs = session.fs
  plan_eq : (session.perform call).2.plan = session.plan

theorem GoesOn.stay {answer : Except Error Answer} (hrun : session.perform call = (answer, session))
    (hproceeds : session.Proceeds past call answer session.world)
    (htracks : Tracks (past ++ [call]) session) : GoesOn past session call := by
  constructor <;> rw [hrun]
  · exact hproceeds
  · exact htracks

theorem GoesOn.keep {answer : Except Error Answer} {handle : Handle} {world : World}
    (hrun : session.perform call =
      (answer, { session with handles := session.handles.insert name handle, world }))
    (hproceeds : session.Proceeds past call answer world)
    (htracks : Tracks (past ++ [call])
      { session with handles := session.handles.insert name handle, world }) :
    GoesOn past session call := by
  constructor <;> rw [hrun]
  · exact hproceeds
  · exact htracks

theorem streamOf_run_of_none (hname : session.handles[name]? = none) :
    (streamOf name).run.run session = (.error (.noHandle name), session) := by
  rw [streamOf, get_bind_run, hname]
  rfl

/-- A close comes back with what storing the object of the stream comes back with. -/
theorem perform_close_eq {stream : OutputStream}
    (h : session.handles[name]? = some (.stream stream)) :
    session.perform (.stream name .close) =
      ((stream.store.exec session.plan session.world).1.map fun _ => .nothing,
        { session with
          handles := session.handles.insert name (.stream stream.close)
          world := (stream.store.exec session.plan session.world).2 }) := by
  rw [perform, performM, performStream, bind_run, closeStream_run h]
  rcases (stream.store.exec session.plan session.world).1 with error | ⟨⟩
  · rfl
  · rfl

namespace Tracks

variable (h : Tracks past session)

include h

/-- A stream is opened, if its path is in the bucket. -/
theorem perform_create (name : String) (path : Path) :
    GoesOn past session (.stream name (.create path false)) := by
  rcases session.fs.key?_or_outside path with ⟨key, hpath⟩ | houtside
  · have hcreate : session.fs.create path false = pure { bucket := session.fs.bucket, key } := by
      rw [FileSystem.create, FileSystem.key_eq hpath, pure_bind]
      rfl
    have hself : HandleOf session.fs (past ++ [.stream name (.create path false)]) name
        (some (.stream { bucket := session.fs.bucket, key })) :=
      .of_opens (.create hpath) rfl rfl rfl rfl
    refine .keep ?_ (.created hpath) (h.keep hself session.world)
    rw [Session.perform, performM, performStream, get_bind_run, bind_run, liftStore_run, hcreate]
    rfl
  · refine .stay ?_ (.outside houtside) (h.stay ((h name).append ?_ ?_ rfl))
    · rw [Session.perform, performM, performStream, get_bind_run, bind_run, liftStore_run,
        FileSystem.create_outside houtside]
      rfl
    · rintro key (⟨hpath⟩ | _)
      exact FileSystem.normalize?_ne_some houtside key hpath
    · rintro ⟨⟩

/-- A stream is opened. -/
theorem perform_new (name : String) (key : Key) (spoolLimit : Int) :
    GoesOn past session (.stream name (.new key spoolLimit)) :=
  .keep rfl .new (h.keep (.of_opens .new rfl rfl rfl rfl) session.world)

/-- Where no stream has been opened, there is none to be written to or closed. -/
theorem perform_unknown {call : StreamCall} (hcall : call = .close ∨ ∃ data, call = .write data)
    (hnone : session.handles[name]? = none)
    (hunknown : ∀ key since, ¬ Opened session.fs name past key since) :
    GoesOn past session (.stream name call) := by
  have hskip : ∀ key, ¬ Opens session.fs name key (.stream name call) := by
    intro key hopens
    rcases hcall with rfl | ⟨data, rfl⟩
    · cases hopens
    · cases hopens
  refine .stay ?_ (.unknown hcall hunknown) (h.stay ?_)
  · rcases hcall with rfl | ⟨data, rfl⟩
    · rw [Session.perform, performM, performStream, bind_run, closeStream, bind_run,
        streamOf_run_of_none hnone]
    · rw [Session.perform, performM, performStream, bind_run, writeTo, bind_run,
        streamOf_run_of_none hnone]
  · rw [hnone]
    exact .unknown (not_opened_append hunknown hskip)

/-- An open stream takes what is written. -/
theorem perform_write (name : String) (data : Bytes) :
    GoesOn past session (.stream name (.write data)) := by
  have hskip : ∀ key, ¬ Opens session.fs name key (.stream name (.write data)) := nofun
  have hname := h name
  generalize hhandle : session.handles[name]? = handle at hname
  cases hname with
  | unknown hunknown => exact h.perform_unknown (Or.inr ⟨data, rfl⟩) hhandle hunknown
  | @stream key since stream hopened hbucket hkey hclosed hwritten =>
    cases hopen : stream.closed with
    | true =>
      have hmem := hclosed.mp hopen
      refine .stay ?_ (.late hopened hmem) (h.stay ?_)
      · rw [Session.perform, performM, performStream, bind_run, writeTo, bind_run,
          streamOf_run hhandle]
        dsimp only
        rw [OutputStream.write, if_pos hopen]
        rfl
      · rw [hhandle]
        exact .stream (hopened.append hskip) hbucket hkey
          (iff_of_true hopen (List.mem_append_left _ hmem)) (by simp [hopen])
    | false =>
      have hmem : .stream name .close ∉ since := by simp [← hclosed, hopen]
      have hself : HandleOf session.fs (past ++ [.stream name (.write data)]) name
          (some (.stream { stream with written := stream.written ++ data })) := by
        refine .stream (hopened.append hskip) hbucket hkey (by simp [hopen, hmem]) fun _ => ?_
        rw [writtenTo_append, writtenTo_write, hwritten hopen]
      refine .keep ?_ (.write hopened hmem) (h.keep hself session.world)
      rw [Session.perform, performM, performStream, bind_run, writeTo, bind_run,
        streamOf_run hhandle]
      dsimp only
      rw [OutputStream.write, if_neg (by simp [hopen])]
      rfl

/-- The first close of a stream sends its upload, and every further one does nothing. -/
theorem perform_close (hr : session.plan.Refuses) (name : String) :
    GoesOn past session (.stream name .close) := by
  have hskip : ∀ key, ¬ Opens session.fs name key (.stream name .close) := nofun
  have hname := h name
  generalize hhandle : session.handles[name]? = handle at hname
  cases hname with
  | unknown hunknown => exact h.perform_unknown (Or.inl rfl) hhandle hunknown
  | @stream key since stream hopened hbucket hkey hclosed hwritten =>
    have hself : HandleOf session.fs (past ++ [.stream name .close]) name
        (some (.stream stream.close)) :=
      .stream (hopened.append hskip) hbucket hkey (by simp [OutputStream.close])
        (by simp [OutputStream.close])
    refine .keep (perform_close_eq hhandle) ?_ (h.keep hself _)
    cases hopen : stream.closed with
    | true =>
      rw [OutputStream.exec_store_of_closed _ _ hopen]
      exact .again hopened (hclosed.mp hopen)
    | false =>
      have hmem : .stream name .close ∉ since := by simp [← hclosed, hopen]
      have hstored := OutputStream.exec_store_of_refuses hr session.world hopen
      rw [hbucket, hkey, hwritten hopen] at hstored
      obtain ⟨hsent, ⟨haccepted, hresult, hstore⟩ | ⟨hrefused, ⟨error, hresult⟩, hstore⟩⟩ := hstored
      · rw [hresult]
        exact .stored hopened hmem haccepted hsent hstore
      · rw [hresult]
        exact .failed hopened hmem hrefused hsent hstore

/-- Every call on streams goes on as it has to. -/
theorem perform (hr : session.plan.Refuses) (hcall : OnStream call) :
    GoesOn past session call := by
  cases hcall with
  | create name path => exact h.perform_create name path
  | new name key spoolLimit => exact h.perform_new name key spoolLimit
  | write name data => exact h.perform_write name data
  | close name => exact h.perform_close hr name

end Tracks

/-! ### The calls of a session -/

theorem performAll_append_singleton (session : Session) (past : List Call) (call : Call) :
    (session.performAll (past ++ [call])).2 = ((session.performAll past).2.perform call).2 := by
  induction past generalizing session with
  | nil => rfl
  | cons first past ih => exact ih (session.perform first).2

/-- After `past`, a call *stores* a body under a key when it is the first close of a stream at the
key, the body is all that was written to the stream, and its upload is accepted. -/
inductive Stores (session : Session) (past : List Call) (key : Key) (body : Bytes) : Call → Prop
  | close {name : String} {since : List Call}
      (h : Opened (session.performAll past).2.fs name past key since)
      (hopen : .stream name .close ∉ since) (hbody : writtenTo name since = body)
      (haccepted : (session.performAll past).2.plan.Accepts
        (session.performAll past).2.fs.bucket.name (session.performAll past).2.world
        (.upload key body)) :
      Stores session past key body (.stream name .close)

/-- What is *settled* under a key after calls: the body that was stored there last, or what was there
before. -/
inductive Settled (session : Session) (calls : List Call) (key : Key) : Prop
  | stored {past later : List Call} {call : Call} {body : Bytes}
      (hcalls : calls = past ++ call :: later) (h : session.Stores past key body call)
      (hlast : ∀ between again body', between ++ [again] <+: later →
        ¬ session.Stores (past ++ call :: between) key body' again)
      (hbody : (session.performAll calls).2.world.store.objects.body? key = some body)
  | untouched
      (h : ∀ past call body, past ++ [call] <+: calls → ¬ session.Stores past key body call)
      (hsame : (session.performAll calls).2.world.store.objects[key]? =
        session.world.store.objects[key]?)

section

variable (hr : session.plan.Refuses) (hhandles : session.handles = ∅)

include hr hhandles

/-- The calls of a session are tracked. -/
theorem tracks_performAll {calls : List Call} (hcalls : ∀ call ∈ calls, OnStream call) :
    Tracks calls (session.performAll calls).2 ∧
      (session.performAll calls).2.plan = session.plan := by
  induction calls using List.reverseRecOn with
  | nil => exact ⟨tracks_nil hhandles, rfl⟩
  | append_singleton past call ih =>
    obtain ⟨htracks, hplan⟩ := ih fun earlier hmem => hcalls earlier (List.mem_append_left _ hmem)
    have hgoes := htracks.perform (hplan ▸ hr) (hcalls call (by simp))
    rw [performAll_append_singleton]
    exact ⟨hgoes.tracks, hgoes.plan_eq.trans hplan⟩

/-- Every call of a session proceeds as it has to. -/
theorem proceeds_performAll {past : List Call} {call : Call}
    (hcalls : ∀ other ∈ past ++ [call], OnStream other) :
    (session.performAll past).2.Proceeds past call ((session.performAll past).2.perform call).1
      ((session.performAll past).2.perform call).2.world := by
  obtain ⟨htracks, hplan⟩ := tracks_performAll hr hhandles fun earlier hmem =>
    hcalls earlier (List.mem_append_left _ hmem)
  exact (htracks.perform (hplan ▸ hr) (hcalls call (by simp))).proceeds

/-- A call stores a body under a key, or it leaves the object there alone. -/
theorem stores_or_same {past : List Call} {call : Call}
    (hcalls : ∀ other ∈ past ++ [call], OnStream other) (key : Key) :
    (∃ body, session.Stores past key body call ∧
      (session.performAll (past ++ [call])).2.world.store.objects.body? key = some body) ∨
    (∀ body, ¬ session.Stores past key body call) ∧
      (session.performAll (past ++ [call])).2.world.store.objects[key]? =
        (session.performAll past).2.world.store.objects[key]? := by
  have hproceeds := proceeds_performAll hr hhandles hcalls
  rw [performAll_append_singleton]
  generalize ((session.performAll past).2.perform call).1 = answer at hproceeds
  generalize ((session.performAll past).2.perform call).2.world = after at hproceeds
  cases hproceeds with
  | created | outside | new | write | late => exact Or.inr ⟨nofun, rfl⟩
  | unknown hcall hunknown =>
    refine Or.inr ⟨?_, rfl⟩
    rintro body ⟨hopened, -, -, -⟩
    exact hunknown _ _ hopened
  | again hopened hclosed =>
    refine Or.inr ⟨?_, rfl⟩
    rintro body ⟨hopened', hopen, -, -⟩
    obtain ⟨-, rfl⟩ := hopened.unique hopened'
    exact hopen hclosed
  | failed hopened hopen hrefused hsent hstore =>
    refine Or.inr ⟨?_, by rw [hstore]⟩
    rintro body ⟨hopened', -, rfl, haccepted⟩
    obtain ⟨rfl, rfl⟩ := hopened.unique hopened'
    exact hrefused haccepted
  | @stored name key' since _ hopened hopen haccepted hsent hstore =>
    by_cases hkey : key = key'
    · subst hkey
      refine Or.inl ⟨writtenTo name since, .close hopened hopen rfl haccepted, ?_⟩
      rw [hstore, Objects.body?_put_self]
    · refine Or.inr ⟨?_, by rw [hstore, Objects.getElem?_put_of_ne _ _ hkey]⟩
      rintro body ⟨hopened', -, -, -⟩
      exact hkey (hopened.unique hopened').1.symm

/-- What is stored under a key in the end is the body of the last stream that was stored there. -/
theorem settled_performAll {calls : List Call} (hcalls : ∀ call ∈ calls, OnStream call)
    (key : Key) : session.Settled calls key := by
  induction calls using List.reverseRecOn with
  | nil => exact .untouched (fun past call body hpast => by simp at hpast) rfl
  | append_singleton past last ih =>
    rcases stores_or_same hr hhandles hcalls key with ⟨body, hstores, hbody⟩ | ⟨hnot, hsame⟩
    · exact .stored rfl hstores (fun between again body' hlater => by simp at hlater) hbody
    rcases ih fun earlier hmem => hcalls earlier (List.mem_append_left _ hmem) with
      ⟨rfl, hstores, hlast, hbody⟩ | ⟨hnever, huntouched⟩
    · refine .stored (List.append_assoc ..) hstores (fun between again body' hlater => ?_)
        ((Objects.body?_congr hsame).trans hbody)
      rcases List.prefix_concat_iff.mp hlater with heq | hlater
      · obtain ⟨rfl, hagain⟩ := List.append_inj' heq rfl
        rw [List.singleton_inj.mp hagain]
        exact hnot body'
      · exact hlast between again body' hlater
    · refine .untouched (fun past' call body hpast => ?_) (hsame.trans huntouched)
      rcases List.prefix_concat_iff.mp hpast with heq | hpast
      · obtain ⟨rfl, hcall⟩ := List.append_inj' heq rfl
        rw [List.singleton_inj.mp hcall]
        exact hnot body
      · exact hnever past' call body hpast

/-- A stream becomes one object, once. Whichever uploads are refused, in a session whose calls open,
fill and close streams every call proceeds as it has to, and what is stored under a key in the end is
the body of the last stream that was stored there. -/
theorem performAll_streams {calls : List Call} (hcalls : ∀ call ∈ calls, OnStream call) :
    (∀ past call, past ++ [call] <+: calls →
      (session.performAll past).2.Proceeds past call ((session.performAll past).2.perform call).1
        ((session.performAll past).2.perform call).2.world) ∧
      ∀ key, session.Settled calls key :=
  ⟨fun _ _ hpast => proceeds_performAll hr hhandles fun other hmem =>
      hcalls other (hpast.subset hmem),
    settled_performAll hr hhandles hcalls⟩

end

/-- The second upload is refused. -/
def secondUploadFails : Plan :=
  Script.plan [{ method := some .upload, skip := 1, times := some 1,
                 effect := .fail (.store (.refused (some "503") none)) false }]

/-- A session over a bucket with one file. -/
def streamSession : Session :=
  { fs := FileSystem.plainBucket, plan := secondUploadFails,
    world := { store := .holding ['b'] [(['k'], [0])] } }

/-- Two streams at one key, written in turn. The one that was opened last is closed first, and the
upload of the other one is refused. -/
def sharedKeyCalls : List Call :=
  [.stream "a" (.create ['k'] false), .stream "z" (.new ['k'] 1), .stream "a" (.write [1]),
    .stream "z" (.write [2, 3]), .stream "a" (.write [4]), .stream "z" (.write [5]),
    .stream "z" .close, .stream "a" .close, .stream "a" (.write [9]), .stream "a" .close]

theorem performAll_streams_sharedKeyCalls :
    streamSession.plan.Refuses ∧ (∀ call ∈ sharedKeyCalls, OnStream call) ∧
      (streamSession.performAll sharedKeyCalls).1.drop 6 =
        [.ok .nothing, .error (.service ⟨.upload ['k'] [1, 4], .refused (some "503") none⟩),
          .error .closedStream, .ok .nothing] ∧
      (streamSession.performAll sharedKeyCalls).2.world.requests =
        [.upload ['k'] [1, 4], .upload ['k'] [2, 3, 5]] ∧
      (streamSession.performAll sharedKeyCalls).2.world.store.objects.body? ['k'] =
        some [2, 3, 5] ∧
      streamSession.Settled sharedKeyCalls ['k'] := by
  have hr : streamSession.plan.Refuses := Script.refuses_plan_singleton rfl
  have hcalls : ∀ call ∈ sharedKeyCalls, OnStream call := by
    intro call hmem
    simp only [sharedKeyCalls, List.mem_cons, List.not_mem_nil, or_false] at hmem
    rcases hmem with rfl | rfl | rfl | rfl | rfl | rfl | rfl | rfl | rfl | rfl <;> constructor
  exact ⟨hr, hcalls, by decide +kernel, by decide +kernel, by decide +kernel,
    (performAll_streams hr rfl hcalls).2 ['k']⟩

end Session

end KeyTree
