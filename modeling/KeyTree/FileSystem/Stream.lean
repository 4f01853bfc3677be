import KeyTree.FileSystem.Create

/-!
# Files as streams

A file is read as a whole. A file is written through a stream that collects the bytes and stores the
object when it is closed; nothing is stored before, and a closed stream stays closed.

## Main definitions

* `OutputStream` — the bytes written so far.
* `FileSystem.open?`, `FileSystem.create` — opening a file for reading and for writing.
-/

namespace KeyTree

/-- A file that is being written. -/
structure OutputStream where
  bucket : Bucket
  key : Key
  /-- How many bytes are held in memory before the stream uses a temporary file. -/
  spoolLimit : Int := 8388608
  written : Bytes := []
  closed : Bool := false
deriving DecidableEq

namespace OutputStream

/-- Whether the bytes have outgrown the memory that they may use; a limit of zero is none. Only this
depends on the limit. -/
def isSpooled (stream : OutputStream) : Bool :=
  stream.spoolLimit ≠ 0 && stream.spoolLimit < stream.written.length

/-- The stream with more bytes at its end, unless it is closed. -/
def write (stream : OutputStream) (data : Bytes) : Except Error OutputStream :=
  if stream.closed then .error .closedStream
  else .ok { stream with written := stream.written ++ data }

/-- The stream after it has been closed. -/
def close (stream : OutputStream) : OutputStream :=
  { stream with closed := true }

/-- Stores the object of a stream that is being closed. A closed stream stores nothing. -/
def store (stream : OutputStream) : StoreM Unit := do
  if stream.closed then return
  match ← stream.bucket.upload stream.key stream.written with
  | .ok () =>
    log .info "Object written".toList
      [("key", .text stream.key), ("size", .number stream.written.length)]
  | .error fault => throw (.service fault)

end OutputStream

namespace FileSystem

variable (fs : FileSystem)

/-- The bytes of the file at a path, or nothing if they cannot be fetched. -/
def open? (path : Path) : StoreM (Option Bytes) := do
  let key ← fs.key path
  match ← fs.bucket.read key with
  | .ok body => return some body
  | .error fault =>
    log .error "Failed to open file".toList [("key", .text key), ("error", .text fault.message)]
    return none

/-- A stream that writes the file at a path, after its directory has been created if that is asked
for. -/
def create (path : Path) (createParent : Bool) : StoreM OutputStream := do
  let key ← fs.key path
  if createParent then
    if let some parent := Key.parent? key then
      if !(← fs.mkdirs (some parent) true) then throw (.noParent path)
  return { bucket := fs.bucket, key }

end FileSystem

end KeyTree
