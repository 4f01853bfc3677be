import KeyTree.CommandLine.Run
import KeyTree.Store.Script

/-!
# Sessions

A session is one file system over one store, with the cursors and streams that are open in it. Calls
are made one after another; an error ends its call and not the session. Between the calls the
contents of the store and the script of disruptions may change without the session's doing.

## Main definitions

* `Session` — the state.
* `Call`, `Answer` — what can be asked, and what comes back.
* `Session.perform`, `Session.performAll` — making calls.
-/

namespace KeyTree

/-- Something that a session keeps open under a name. -/
inductive Handle where
  | cursor (cursor : Cursor)
  | stream (stream : OutputStream)
deriving DecidableEq

/-- A file system over a store, with what is open in it. -/
structure Session where
  fs : FileSystem
  plan : Plan := .quiet
  world : World
  handles : Std.ExtTreeMap String Handle := ∅

/-- The calls that only the path and the configuration decide. -/
inductive OwnershipCall where
  | owner (path : Path)
  | group (path : Path)
  | mode (path : Path)
  | setOwner (path : Path) (owner group : String)
  | setMode (path : Path) (mode : Int)
deriving DecidableEq, Repr

/-- The calls on paths. -/
inductive PathCall where
  | key (path : Path)
  | markerKey (path : Path)
  | classify (path : Path)
  | ensureMarker (path : Path)
  | parentExists (path : Path)
  | metadata (path : Path)
  | isDirectory (path : Path)
  | isFile (path : Path)
  | exists? (path : Path)
  | fileSize (path : Path)
  | modificationMilliseconds (path : Path)
  | listStatus (path : Path) (recursive : Bool)
  | listNames (path : Path) (recursive : Bool)
  | mkdirs (path : Option Path) (createParent : Bool)
  | renameFile (source target : Path)
  | renameDirectory (source target : Path)
  | delete (path : Path) (recursive : Bool)
  | deleteFile (path : Path)
  | deleteDirectory (path : Path) (recursive : Bool)
  | open? (path : Path)
deriving DecidableEq, Repr

/-- The calls on keys of the bucket. -/
inductive BucketCall where
  | root
  | metadata (key : Key)
  | read (key : Key)
  | write (key : Key) (body : Bytes) (declaredLength : Option Int)
  | upload (key : Key) (body : Bytes)
  | delete (key : Key)
  | copy (source target : Key)
  | list (under delimiter : List Char) (maxKeys : Int) (token : Option (List Char))
deriving DecidableEq

/-- The calls on cursors. -/
inductive CursorCall where
  | new (under : Key) (recursive : Bool) (pageSize : Int)
  | next
  | state
  | summaries
  | pages
deriving DecidableEq, Repr

/-- The calls on streams. -/
inductive StreamCall where
  | create (path : Path) (createParent : Bool)
  | new (key : Key) (spoolLimit : Int)
  | write (data : Bytes)
  | writeLines (data : List Bytes)
  /-- Write all the data, then fail if a text is given; the stream is closed in any case. -/
  | scope (data : List Bytes) (failure : Option String)
  | close
  | state
deriving DecidableEq

/-- What happens to the store from outside. -/
inductive OutsideCall where
  | put (key : Key) (body : Bytes)
  | remove (key : Key)
  | contents
  | install (rules : List Rule)
deriving DecidableEq

/-- What can be asked of a session. -/
inductive Call where
  | path (call : PathCall)
  | ownership (call : OwnershipCall)
  | bucket (call : BucketCall)
  | cursor (name : String) (call : CursorCall)
  | stream (name : String) (call : StreamCall)
  | outside (call : OutsideCall)
  | command (arguments : List (List Char))
deriving DecidableEq

/-- What comes back from a call. -/
inductive Answer where
  | nothing
  | flag (b : Bool)
  | number (n : Int)
  | text (s : List Char)
  | bytes (data : Bytes)
  /-- Metadata, with the time in milliseconds. -/
  | metadata (metadata : Metadata) (milliseconds : Int)
  | page (page : Page)
  | summaries (objects : List Summary)
  | cursor (cursor : Cursor)
  | cursors (cursors : List Cursor)
  | statuses (entries : List Status)
  | names (names : List Key)
  | stream (stream : OutputStream)
  | contents (objects : Objects)
  | outcome (outcome : CommandLine.Outcome)
deriving DecidableEq

namespace Session

/-- Computations in a session; the session survives an error. -/
abbrev SessionM := ExceptT Error (StateM Session)

/-- A computation over the store as one in a session. -/
def liftStore {α : Type} (x : StoreM α) : SessionM α := do
  let session ← get
  let (result, world) := x.exec session.plan session.world
  set { session with world }
  match result with
  | .ok a => return a
  | .error error => throw error

/-- The result of a request whose failure the caller wants to know. -/
def reported {α : Type} (x : StoreM (Except ServiceFault α)) : SessionM α := do
  match ← liftStore x with
  | .ok a => return a
  | .error fault => throw (.service fault)

/-- Keeps something open under a name. -/
def keep (name : String) (handle : Handle) : SessionM Unit :=
  modify fun session => { session with handles := session.handles.insert name handle }

/-- The open cursor of a name. -/
def cursorOf (name : String) : SessionM Cursor := do
  match (← get).handles[name]? with
  | some (.cursor cursor) => return cursor
  | _ => throw (.noHandle name)

/-- The stream of a name, open or closed. -/
def streamOf (name : String) : SessionM OutputStream := do
  match (← get).handles[name]? with
  | some (.stream stream) => return stream
  | _ => throw (.noHandle name)

/-- An answer that may be missing. -/
def orNothing {α : Type} (answer : α → Answer) : Option α → Answer
  | some a => answer a
  | none => .nothing

/-- The answer that tells metadata. It needs the time. -/
def metadataAnswer (metadata : Metadata) : Except Error Answer :=
  metadata.milliseconds.map (.metadata metadata)

/-- Makes a call on a path. -/
def performPath (fs : FileSystem) : PathCall → StoreM Answer
  | .key path => return .text (← fs.key path)
  | .markerKey path => return .text (← fs.markerKey path)
  | .classify path => return .text (← fs.classify path).name
  | .ensureMarker path => return .flag (← fs.ensureMarker path)
  | .parentExists path => return .flag (← fs.parentExists path)
  | .metadata path => do MonadExcept.ofExcept (metadataAnswer (← fs.metadata path))
  | .isDirectory path => return .flag (← fs.isDirectory path)
  | .isFile path => return .flag (← fs.isFile path)
  | .exists? path => return .flag (← fs.exists? path)
  | .fileSize path => return .number (← fs.fileSize path)
  | .modificationMilliseconds path => return .number (← fs.modificationMilliseconds path)
  | .listStatus path recursive =>
    return orNothing .statuses (← fs.listStatus path recursive)
  | .listNames path recursive => return orNothing .names (← fs.listNames path recursive)
  | .mkdirs path createParent => return .flag (← fs.mkdirs path createParent)
  | .renameFile source target => return .flag (← fs.renameFile source target)
  | .renameDirectory source target => return .flag (← fs.renameDirectory source target)
  | .delete path recursive => return .flag (← fs.delete path recursive)
  | .deleteFile path => return .flag (← fs.deleteFile path)
  | .deleteDirectory path recursive => return .flag (← fs.deleteDirectory path recursive)
  | .open? path => return orNothing .bytes (← fs.open? path)

/-- Makes a call on ownership. -/
def performOwnership (fs : FileSystem) : OwnershipCall → Answer
  | .owner path => .text (fs.owner path).toList
  | .group path => .text (fs.group path).toList
  | .mode path => .number (fs.mode path)
  | .setOwner .. | .setMode .. => .nothing

/-- Makes a call on a key. -/
def performBucket (bucket : Bucket) : BucketCall → SessionM Answer
  | .root => return .text bucket.root
  | .metadata key => do
    match ← reported (bucket.metadata key) with
    | none => return .nothing
    | some metadata => MonadExcept.ofExcept (metadataAnswer metadata)
  | .read key => return .bytes (← reported (bucket.read key))
  | .write key body declaredLength => do
    reported (bucket.write key body declaredLength)
    return .nothing
  | .upload key body => do
    reported (bucket.upload key body)
    return .nothing
  | .delete key => do
    reported (bucket.delete key)
    return .nothing
  | .copy source target => do
    reported (bucket.copy source target)
    return .nothing
  | .list under delimiter maxKeys token =>
    return .page (← reported (bucket.list under delimiter maxKeys token))

/-- Moves a cursor to its next page: the cursor on it, if there is one. -/
def advance (name : String) : SessionM (Option Cursor) := do
  let (page, cursor) ← liftStore (← cursorOf name).next
  keep name (.cursor cursor)
  return page.map fun _ => cursor

/-- Moves a cursor through all its pages, within a number of moves. It stays where an error stops
it. -/
def advanceAll (name : String) : Nat → SessionM (List Cursor)
  | 0 => throw .endlessListing
  | moves + 1 => do
    match ← advance name with
    | none => return []
    | some cursor => return cursor :: (← advanceAll name moves)

/-- Makes a call on a cursor. -/
def performCursor (name : String) : CursorCall → SessionM Answer
  | .new under recursive pageSize => do
    keep name (.cursor (.new (← get).fs.bucket under recursive pageSize))
    return .nothing
  | .next => return orNothing .cursor (← advance name)
  | .state => return .cursor (← cursorOf name)
  | .summaries => return orNothing (.summaries ·.objects) (← cursorOf name).page
  | .pages => do
    let _ ← cursorOf name
    return .cursors (← advanceAll name (← liftStore StoreM.pageBound))

/-- Writes to a stream. -/
def writeTo (name : String) (data : Bytes) : SessionM Unit := do
  match (← streamOf name).write data with
  | .ok stream => keep name (.stream stream)
  | .error error => throw error

/-- Closes a stream. It is closed even if its object cannot be stored. -/
def closeStream (name : String) : SessionM Unit := do
  let stream ← streamOf name
  keep name (.stream stream.close)
  liftStore stream.store

/-- Makes sure that a stream is open. -/
def requireOpen (name : String) : SessionM Unit := do
  if (← streamOf name).closed then throw .closedFile

/-- Makes a call on a stream. -/
def performStream (name : String) : StreamCall → SessionM Answer
  | .create path createParent => do
    let stream ← liftStore ((← get).fs.create path createParent)
    keep name (.stream stream)
    return .text stream.key
  | .new key spoolLimit => do
    keep name (.stream { bucket := (← get).fs.bucket, key, spoolLimit })
    return .nothing
  | .write data => do
    writeTo name data
    return .number data.length
  | .writeLines data => do
    requireOpen name
    data.forM (writeTo name)
    return .nothing
  | .scope data failure => do
    requireOpen name
    data.forM (writeTo name)
    closeStream name
    match failure.filter (· ≠ "") with
    | some message => throw (.breakdown (.runtime message))
    | none => return .nothing
  | .close => do
    closeStream name
    return .nothing
  | .state => return .stream (← streamOf name)

/-- Changes the store from outside. -/
def performOutside : OutsideCall → SessionM Answer
  | .put key body => do
    modify fun session =>
      { session with world := { session.world with store := session.world.store.put key body } }
    return .nothing
  | .remove key => do
    modify fun session =>
      { session with world := { session.world with store := session.world.store.remove key } }
    return .nothing
  | .contents => return .contents (← get).world.store.objects
  | .install rules => do
    modify fun session =>
      { session with plan := (Script.plan rules).startingAfter session.world.requests.length }
    return .nothing

/-- Makes a call. -/
def performM : Call → SessionM Answer
  | .path call => do liftStore (performPath (← get).fs call)
  | .ownership call => return performOwnership (← get).fs call
  | .bucket call => do performBucket (← get).fs.bucket call
  | .cursor name call => performCursor name call
  | .stream name call => performStream name call
  | .outside call => performOutside call
  | .command arguments => do return .outcome (← liftStore (CommandLine.run arguments))

/-- Makes a call: what comes back, and the session after it. -/
def perform (session : Session) (call : Call) : Except Error Answer × Session :=
  (performM call).run.run session

/-- Makes calls one after another. -/
def performAll (session : Session) : List Call → List (Except Error Answer) × Session
  | [] => ([], session)
  | call :: calls =>
    let (answer, session) := session.perform call
    let (answers, session) := performAll session calls
    (answer :: answers, session)

end Session

end KeyTree
