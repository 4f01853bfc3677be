import KeyTree.Proofs.FileSystem.Failing
import KeyTree.Proofs.FileSystem.Footprint
import KeyTree.Proofs.FileSystem.RenameTree
import KeyTree.Proofs.Location

/-!
# Paths outside the bucket

Some operations let the error of a path outside the bucket through, others take it for a "no", and
a rename looks at its source before it comes to its target. In every order of these checks no
request that writes is sent, so the store stays as it is, also if the bucket of the path has a name
that begins with the name of this one. The command that renames asks for the key of its target
before it sends anything.

## Main definitions

* `StoreM.OnlyLooks` — computations that send no request that writes.
* `FileSystem.Rebuffed` — how an operation on a path outside the bucket ends.

## Main results

* `FileSystem.rebuffs_performPath` — the operations on paths.
* `FileSystem.create_outside` — files that are to be written.
* `CommandLine.exec_mv_outside` — the command that renames.
* `FileSystem.onlyLooks_outside` — all of them together.
-/

namespace KeyTree

open Key StoreM

variable {α β : Type} {plan : Plan} {world : World}

/-! ### Looking only -/

/-- A computation *only looks* when it leaves the store alone and none of the requests that it sends
writes. -/
structure StoreM.OnlyLooks (x : StoreM α) (plan : Plan) (world : World) : Prop where
  store_eq : (x.exec plan world).2.store = world.store
  asks : ∃ sent, (x.exec plan world).2.requests = sent ++ world.requests ∧
    ∀ request ∈ sent, request.writes = false

/-- The requests of a run in which none may write. -/
theorem World.Run.exists_sent {bucket : List Char} {before after : World}
    (h : World.Run plan bucket (fun _ _ => False) before after) :
    ∃ sent, after.requests = sent ++ before.requests ∧
      ∀ request ∈ sent, request.writes = false := by
  induction h with
  | refl => exact ⟨[], rfl, nofun⟩
  | @tail between _ _ step ih =>
    obtain ⟨sent, hsent, hasks⟩ := ih
    cases step with
    | @note entry hentry =>
      refine ⟨sent, ?_, hasks⟩
      rw [← hsent]
      cases entry with
      | request request => exact absurd rfl (hentry request)
      | event | connection => rfl
    | @send request hallowed =>
      refine ⟨request :: sent, congrArg (request :: ·) hsent, fun other hother => ?_⟩
      rcases List.mem_cons.mp hother with rfl | hother
      · exact Bool.eq_false_iff.mpr hallowed
      · exact hasks other hother

theorem StoreM.Confined.onlyLooks {x : StoreM α} {bucket : List Char}
    (h : x.Confined plan bucket (fun _ _ => False) world) : x.OnlyLooks plan world :=
  ⟨World.Run.store_eq h, World.Run.exists_sent h⟩

theorem StoreM.throw_bind (error : Error) (f : α → StoreM β) :
    (throw error : StoreM α) >>= f = throw error := rfl

namespace FileSystem

variable {fs : FileSystem} {paths : List Path} {path source target : Path} {no : α}

/-! ### Being rebuffed -/

/-- An operation is *rebuffed* when it ends with the error of a path outside the bucket or says
"no". -/
inductive Rebuffed (fs : FileSystem) (paths : List Path) (no : α) : Except Error α → Prop
  | outside {path : Path} (hmem : path ∈ paths) (h : Outside fs.root path) :
      Rebuffed fs paths no (.error (.outside path fs.root))
  | no : Rebuffed fs paths no (.ok no)

/-- An operation *rebuffs* its paths when it sends no request that writes, and is rebuffed whichever
of its requests fail. -/
structure Rebuffs (fs : FileSystem) (paths : List Path) (no : α) (x : StoreM α) (plan : Plan)
    (world : World) : Prop where
  looks : x.Confined plan fs.bucket.name (fun _ _ => False) world
  ends : plan.OnlyFails → fs.Rebuffed paths no (x.exec plan world).1

theorem Rebuffs.throw (hmem : path ∈ paths) (h : Outside fs.root path) :
    fs.Rebuffs paths no (throw (.outside path fs.root)) plan world :=
  ⟨confined_throw _, fun _ => .outside hmem h⟩

theorem Rebuffs.pure : fs.Rebuffs paths no (Pure.pure no) plan world :=
  ⟨confined_pure no, fun _ => .no⟩

/-- What comes after a look is rebuffed if it is so from every world. -/
theorem Rebuffs.bind {x : StoreM β} {f : β → StoreM α}
    (hx : x.Confined plan fs.bucket.name (fun _ _ => False) world)
    (hreturns : plan.OnlyFails → x.Returns plan world fun _ _ => True)
    (hf : ∀ b after, fs.Rebuffs paths no (f b) plan after) :
    fs.Rebuffs paths no (x >>= f) plan world where
  looks := hx.bind fun b after _ _ => (hf b after).looks
  ends hplan := (hreturns hplan).bind_outcome (fun outcome => fs.Rebuffed paths no outcome.1)
    fun b after _ => (hf b after).ends hplan

theorem Rebuffs.log_bind {level : Level} {text : List Char} {context : List (String × Datum)}
    {x : StoreM α} (hx : ∀ after, fs.Rebuffs paths no x plan after) :
    fs.Rebuffs paths no (log level text context >>= fun _ => x) plan world :=
  .bind (confined_log ..) (fun _ => (returns_log ..).mono fun _ _ _ => trivial) fun _ => hx

theorem Rebuffs.bind_pure {x : StoreM β} {no : β} (hx : fs.Rebuffs paths no x plan world)
    (f : β → α) : fs.Rebuffs paths (f no) (x >>= fun b => Pure.pure (f b)) plan world where
  looks := hx.looks.bind_pure f
  ends hplan := by
    have hends := hx.ends hplan
    rw [exec_bind]
    generalize x.exec plan world = outcome at hends
    rcases outcome with ⟨result, after⟩
    cases hends with
    | outside hmem h => exact .outside hmem h
    | no => exact .no

theorem rebuffs_refuse (refusal : Refusal) : fs.Rebuffs paths false (refuse refusal) plan world :=
  .log_bind fun _ => .pure

/-! ### Questions about a path outside -/

theorem normalize?_outside (h : Outside fs.root path) : normalize? fs.root path = none :=
  (normalize?_eq_none_iff (rootOf_ne_nil _)).mpr h

theorem normalize?_ne_some (h : Outside fs.root path) (key : Key) :
    normalize? fs.root path ≠ some key := by
  rw [normalize?_outside h]
  exact (Option.some_ne_none key).symm

theorem key?_or_outside (fs : FileSystem) (path : Path) :
    (∃ key, normalize? fs.root path = some key) ∨ Outside fs.root path := by
  rcases hkey : normalize? fs.root path with _ | key
  · exact Or.inr ((normalize?_eq_none_iff (rootOf_ne_nil _)).mp hkey)
  · exact Or.inl ⟨key, rfl⟩

theorem key_outside (h : Outside fs.root path) : fs.key path = throw (.outside path fs.root) := by
  rw [FileSystem.key, normalize?_outside h]

theorem isFile_outside (h : Outside fs.root path) :
    fs.isFile path = fs.warnOutside path >>= fun _ => pure false := by
  rw [isFile, normalize?_outside h]

theorem isDirectory_outside (h : Outside fs.root path) :
    fs.isDirectory path = fs.warnOutside path >>= fun _ => pure false := by
  rw [isDirectory, normalize?_outside h]

/-- What a question says "no" to for a path outside goes on without it. -/
theorem Rebuffs.warn_bind {f : Bool → StoreM α}
    (hf : ∀ after, fs.Rebuffs paths no (f false) plan after) :
    fs.Rebuffs paths no ((fs.warnOutside path >>= fun _ => Pure.pure false) >>= f) plan world := by
  rw [bind_assoc]
  exact .log_bind hf

theorem rebuffs_isFile (h : Outside fs.root path) :
    fs.Rebuffs paths false (fs.isFile path) plan world := by
  rw [isFile_outside h]
  exact .log_bind fun _ => .pure

theorem rebuffs_isDirectory (h : Outside fs.root path) :
    fs.Rebuffs paths false (fs.isDirectory path) plan world := by
  rw [isDirectory_outside h]
  exact .log_bind fun _ => .pure

/-- A path outside exists neither as a file nor as a directory. -/
theorem Rebuffs.exists?_bind {f : Bool → StoreM α} (h : Outside fs.root path)
    (hf : ∀ after, fs.Rebuffs paths no (f false) plan after) :
    fs.Rebuffs paths no (fs.exists? path >>= f) plan world := by
  rw [exists?, isFile_outside h, isDirectory_outside h, bind_assoc, bind_assoc]
  exact .log_bind fun _ => .warn_bind hf

/-- The metadata of a key are looked up in any bucket without an error. -/
theorem returns_metadata_anywhere (hplan : plan.OnlyFails) (key : Key) :
    (fs.bucket.metadata key).Returns plan world fun _ _ => True := by
  refine (returns_send_of_onlyFails hplan (.head key)).bind fun reply after ⟨hreply, _⟩ => ?_
  rcases hreply with ⟨fault, rfl⟩ | rfl
  · exact returns_pure_iff.mpr trivial
  · simp only [Store.perform]
    rcases world.store.objects[key]? with _ | o
    · exact returns_pure_iff.mpr trivial
    · exact returns_pure_iff.mpr trivial

/-- Whether a file is stored at a path is answered, whichever requests fail. -/
theorem returns_isFile_anywhere (hplan : plan.OnlyFails) (path : Path) :
    (fs.isFile path).Returns plan world fun _ _ => True := by
  rw [isFile]
  split
  · exact returns_log_bind fun _ _ _ => returns_pure_iff.mpr trivial
  split
  · exact returns_pure_iff.mpr trivial
  refine (returns_metadata_anywhere hplan _).bind fun reply after _ => ?_
  cases reply with
  | ok metadata => exact returns_pure_iff.mpr trivial
  | error fault => exact returns_log_bind fun _ _ _ => returns_pure_iff.mpr trivial

/-! ### Operations on paths outside -/

/-- A directory outside is not created: it is looked for, and its parent has no key. -/
theorem rebuffs_mkdirsBelow (hmem : path ∈ paths) (h : Outside fs.root path) (above : List Key)
    (createParent : Bool) :
    fs.Rebuffs paths false (fs.mkdirsBelow above path createParent) plan world := by
  rw [mkdirsBelow_eq, isDirectory_outside h, isFile_outside h, parentExists, key_outside h, throw_bind,
    throw_bind]
  exact .warn_bind fun _ => .warn_bind fun _ => .throw hmem h

/-- A file is not renamed: a source outside is no file, and a target outside has no key. -/
theorem rebuffs_renameFile (hmem : path ∈ [source, target]) (h : Outside fs.root path) :
    fs.Rebuffs [source, target] false (fs.renameFile source target) plan world := by
  rw [renameFile]
  rcases List.mem_pair.mp hmem with rfl | rfl
  · rw [isFile_outside h]
    exact .warn_bind fun _ => (rebuffs_refuse _).bind_pure id
  · refine .bind (confined_isFile source) (fun hplan => returns_isFile_anywhere hplan source)
      fun found after => ?_
    cases found with
    | false => exact (rebuffs_refuse _).bind_pure id
    | true =>
      refine .exists?_bind h fun after => ?_
      simp only [key_outside h, throw_bind]
      rcases fs.key?_or_outside source with ⟨key, hkey⟩ | hsource
      · rw [key_eq hkey]
        exact .throw hmem h
      · rw [key_outside hsource]
        exact .throw List.mem_cons_self hsource

/-- A directory is not renamed: the keys of both paths are asked for first. -/
theorem rebuffs_renameDirectory (hmem : path ∈ [source, target]) (h : Outside fs.root path) :
    fs.Rebuffs [source, target] false (fs.renameDirectory source target) plan world := by
  have hwithin : ∀ depth, fs.Rebuffs [source, target] false
      (fs.renameWithin (depth + 1) source target) plan world := by
    intro depth
    rw [renameWithin]
    rcases fs.key?_or_outside source with ⟨key, hkey⟩ | hsource
    · have htarget : Outside fs.root target := by
        rcases List.mem_pair.mp hmem with rfl | rfl
        · exact absurd hkey (normalize?_ne_some h key)
        · exact h
      rw [key_eq hkey, key_outside htarget]
      exact .throw (List.mem_pair.mpr (Or.inr rfl)) htarget
    · rw [key_outside hsource]
      exact .throw List.mem_cons_self hsource
  obtain ⟨depth, -, hexec⟩ := exec_renameDirectory fs plan world source target
  obtain ⟨hlooks, hends⟩ := hwithin depth
  rw [Confined, ← hexec] at hlooks
  rw [← hexec] at hends
  exact ⟨hlooks, hends⟩

/-- A path outside is not deleted: nothing is found there. -/
theorem rebuffs_delete (h : Outside fs.root path) (recursive : Bool) :
    fs.Rebuffs paths false (fs.delete path recursive) plan world := by
  rw [delete, isFile_outside h, isDirectory_outside h]
  exact .warn_bind fun _ => .warn_bind fun _ => rebuffs_refuse _

/-- Every operation on paths rebuffs a path outside the bucket. -/
theorem rebuffs_performPath (call : PathCall) (hmem : path ∈ call.paths)
    (h : Outside fs.root path) :
    fs.Rebuffs call.paths (.flag false) (Session.performPath fs call) plan world := by
  cases call with
  | isDirectory p =>
    obtain rfl := List.mem_singleton.mp hmem
    exact (rebuffs_isDirectory h).bind_pure _
  | isFile p =>
    obtain rfl := List.mem_singleton.mp hmem
    exact (rebuffs_isFile h).bind_pure _
  | exists? p =>
    obtain rfl := List.mem_singleton.mp hmem
    rw [Session.performPath]
    exact .exists?_bind h fun _ => .pure
  | delete p recursive =>
    obtain rfl := List.mem_singleton.mp hmem
    exact (rebuffs_delete h recursive).bind_pure _
  | mkdirs p createParent =>
    obtain rfl := Option.mem_toList.mp hmem
    exact (rebuffs_mkdirsBelow hmem h _ createParent).bind_pure _
  | renameFile source target => exact (rebuffs_renameFile hmem h).bind_pure _
  | renameDirectory source target => exact (rebuffs_renameDirectory hmem h).bind_pure _
  -- the others ask for the key first
  | _ =>
    obtain rfl := List.mem_singleton.mp hmem
    simp only [Session.performPath, markerKey, classify, ensureMarker, parentExists, fileSize,
      modificationMilliseconds, metadata, listNames, listStatus, deleteFile, deleteDirectory, open?,
      key_outside h, throw_bind]
    exact .throw hmem h

/-- A file outside is not opened for writing, and nothing is sent. -/
theorem create_outside (h : Outside fs.root path) (createParent : Bool) :
    fs.create path createParent = throw (.outside path fs.root) := by
  rw [create, key_outside h, throw_bind]

end FileSystem

/-! ### The command that renames -/

/-- What handles an error starts from the world that the error has left. -/
theorem StoreM.exec_tryCatch (x : StoreM α) (handle : Error → StoreM α) :
    (tryCatch x handle).exec plan world =
      match x.exec plan world with
      | (.ok a, after) => (.ok a, after)
      | (.error error, after) => (handle error).exec plan after := by
  have hrun : (tryCatch x handle : StoreM α).run plan =
      tryCatch (x.run plan) fun error => (handle error).run plan := rfl
  rw [exec, hrun, ExceptT.run_tryCatch, StateT.run_bind, exec]
  rcases ((x.run plan).run).run world with ⟨error | a, after⟩
  · rfl
  · rfl

namespace CommandLine

variable {arguments : List (List Char)} {source target : Path} {connection : ConnectionConfig}

/-- An operation that ends with an error is reported as a failure. -/
theorem exec_reporting_of_error {operation : StoreM α} {report : α → Outcome} {error : Error}
    {after : World} (h : operation.exec plan world = (.error error, after)) :
    (reporting operation report).exec plan world = (.ok (.failure error.message), after) := by
  rw [reporting, outcomeOf, exec_bind, exec_tryCatch, exec_bind, h]
  rfl

theorem requestsOf_append (journal more : List Entry) :
    requestsOf (journal ++ more) = requestsOf journal ++ requestsOf more :=
  List.filterMap_append

theorem requestsOf_reverse (journal : List Entry) :
    requestsOf journal.reverse = (requestsOf journal).reverse :=
  List.filterMap_reverse

theorem requestsOf_withConnection (connection : Connection) (journal : List Entry) :
    requestsOf (withConnection connection journal) = requestsOf journal := by
  induction journal with
  | nil => rfl
  | cons entry more ih =>
    cases entry with
    | request request => rfl
    | event | connection => exact ih

/-- A connection that is shown in a journal is no request. -/
theorem requestsOf_connectionShown (connection : Connection) (count : Nat) (journal : List Entry) :
    requestsOf (connectionShown connection count journal) = requestsOf journal := by
  rw [connectionShown, requestsOf_append, requestsOf_reverse, requestsOf_withConnection,
    requestsOf_reverse, List.reverse_reverse, ← requestsOf_append, List.take_append_drop]

/-- The outcome of a command line is that of its command; the journal shows the connection. -/
theorem exec_run {invocation : Invocation} {outcome : Outcome} {after : World}
    (h : parse? arguments = some (.run invocation))
    (hexec : (execute invocation).exec plan world = (.ok outcome, after)) :
    (run arguments).exec plan world =
      (.ok outcome, { after with
        journal := connectionShown (Connection.ofConfig invocation.connection)
          world.journal.length after.journal }) := by
  have hrun : run arguments = get >>= fun world : World => execute invocation >>= fun outcome => do
      modify fun after : World => { after with
        journal := connectionShown (Connection.ofConfig invocation.connection)
          world.journal.length after.journal }
      return outcome := by
    rw [run, h]
  have hget : (get : StoreM World).exec plan world = (.ok world, world) := rfl
  rw [hrun, exec_bind, hget]
  dsimp only
  rw [exec_bind, hexec]
  rfl

/-- The command that renames fails if its target is outside the bucket of its source, and sends
nothing. -/
theorem exec_mv_outside (h : parse? arguments = some (.run ⟨.mv source target, connection⟩))
    (houtside : ∀ location, Location.parse source = .ok location →
      Outside (rootOf location.bucket) target) :
    (run arguments).Returns plan world fun outcome after =>
      outcome.exitCode = 1 ∧ after.store = world.store ∧ after.requests = world.requests := by
  -- the target is looked at before anything is sent
  have hmoving : ∀ rest : FileSystem → StoreM Bool, ∃ error after,
      (fileSystemAt source connection .standard >>= fun fs =>
        fs.key target >>= fun _ => rest fs).exec plan world = (.error error, after) ∧
      after.store = world.store ∧ after.requests = world.requests := by
    intro rest
    rcases hparse : Location.parse source with fault | location
    · rw [fileSystemAt, hparse]
      exact ⟨.location fault, world, rfl, rfl, rfl⟩
    · refine (returns_fileSystemAt hparse connection .standard plan world).bind_outcome
        (fun outcome => ∃ error after, outcome = (.error error, after) ∧
          after.store = world.store ∧ after.requests = world.requests) ?_
      rintro fs after ⟨rfl, hstore, hrequests⟩
      have hkey : ({ bucket := ⟨location.bucket⟩ } : FileSystem).key target =
          throw (.outside target (rootOf location.bucket)) :=
        FileSystem.key_outside (houtside location hparse)
      rw [hkey, throw_bind]
      exact ⟨_, after, rfl, hstore, hrequests⟩
  obtain ⟨error, after, hexec, hstore, hrequests⟩ := hmoving fun fs => do
    if ← fs.isFile source then fs.renameFile source target else fs.renameDirectory source target
  refine ⟨_, _, exec_run h (exec_reporting_of_error hexec), rfl, hstore, ?_⟩
  exact (requestsOf_connectionShown ..).trans hrequests

end CommandLine

/-! ### Nothing changes -/

/-- Nothing changes through a path outside the bucket. An operation on paths of which one is outside
sends no request that writes and leaves the store alone; whichever of its requests fail, it ends with
the error of such a path or says "no". A file outside is not opened for writing. The command that
renames to a target outside fails. -/
theorem FileSystem.onlyLooks_outside (fs : FileSystem) (plan : Plan) (world : World) :
    (∀ call : PathCall, (∃ path ∈ call.paths, Outside fs.root path) →
      (Session.performPath fs call).OnlyLooks plan world ∧
      (plan.OnlyFails →
        fs.Rebuffed call.paths (.flag false) ((Session.performPath fs call).exec plan world).1)) ∧
    (∀ path createParent, Outside fs.root path →
      (fs.create path createParent).exec plan world = (.error (.outside path fs.root), world)) ∧
    (∀ arguments source target connection,
      CommandLine.parse? arguments = some (.run ⟨.mv source target, connection⟩) →
      (∀ location, Location.parse source = .ok location →
        Outside (rootOf location.bucket) target) →
      (CommandLine.run arguments).Returns plan world fun outcome after =>
        outcome.exitCode = 1 ∧ after.store = world.store ∧ after.requests = world.requests) := by
  refine ⟨?_, ?_, ?_⟩
  · rintro call ⟨path, hmem, h⟩
    have hrebuffs : fs.Rebuffs call.paths (.flag false) (Session.performPath fs call) plan world :=
      rebuffs_performPath call hmem h
    exact ⟨hrebuffs.looks.onlyLooks, hrebuffs.ends⟩
  · intro path createParent h
    rw [create_outside h, exec_throw]
  · exact fun arguments source target connection h houtside =>
      CommandLine.exec_mv_outside h houtside

/-- A file is renamed to a bucket whose name begins with the name of its own. -/
theorem FileSystem.onlyLooks_outside_namesake :
    Outside plainBucket.root "s3://bb/x".toList ∧
      ((Session.performPath plainBucket (.renameFile ['a'] "s3://bb/x".toList)).exec .quiet
        twoFiles).1 = .error (.outside "s3://bb/x".toList "s3://b".toList) ∧
      ((Session.performPath plainBucket (.renameFile ['a'] "s3://bb/x".toList)).exec .quiet
        twoFiles).2.store = twoFiles.store ∧
      plainBucket.Rebuffed [['a'], "s3://bb/x".toList] (.flag false)
        ((Session.performPath plainBucket (.renameFile ['a'] "s3://bb/x".toList)).exec .quiet
          twoFiles).1 ∧
      (plainBucket.create "s3://bb/x".toList true).exec .quiet twoFiles =
        (.error (.outside "s3://bb/x".toList "s3://b".toList), twoFiles) ∧
      (CommandLine.run ["mv".toList, "s3://b/a".toList, "s3://bb/x".toList]).Returns .quiet twoFiles
        fun outcome after => outcome.exitCode = 1 ∧ after.store = twoFiles.store ∧
          after.requests = twoFiles.requests := by
  have houtside : Outside plainBucket.root "s3://bb/x".toList := ⟨by decide, by decide, by decide⟩
  obtain ⟨hcalls, hcreate, hmv⟩ := onlyLooks_outside plainBucket .quiet twoFiles
  obtain ⟨hlooks, hends⟩ := hcalls (.renameFile ['a'] "s3://bb/x".toList) ⟨_, by decide, houtside⟩
  refine ⟨houtside, by decide +kernel, hlooks.store_eq, hends Plan.refuses_quiet.onlyFails,
    hcreate _ true houtside, ?_⟩
  refine hmv _ "s3://b/a".toList "s3://bb/x".toList .standard (by decide +kernel) ?_
  intro location hparse
  obtain rfl : location = ⟨['b'], ['a']⟩ := by
    have hfound : Location.parse "s3://b/a".toList = .ok ⟨['b'], ['a']⟩ := by decide +kernel
    exact Except.ok.inj (hparse.symm.trans hfound)
  exact houtside

end KeyTree
