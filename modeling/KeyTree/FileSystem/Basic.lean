import KeyTree.Config.Tree
import KeyTree.Cursor

/-!
# The file system of a bucket

A file system reads a directory tree into the keys of a bucket. A path is a directory when it is the
root, when its marker is stored, or when some key lies below it; in the last case it is *implicit*.
Looking at a path never changes it, but asking whether a path is a directory writes the marker of an
implicit one unless the configuration says otherwise.

## Main definitions

* `FileSystem` — a bucket with a configuration.
* `PathKind`, `FileSystem.classify` — what a path stands for.
* `FileSystem.isDirectory`, `FileSystem.isFile`, `FileSystem.exists?`, `FileSystem.parentExists` —
  the questions.
* `FileSystem.ensureMarker` — writing a marker.
* `FileSystem.metadata` — length and time of the object behind a path.
-/

namespace KeyTree

/-- What a path stands for. A file that is no directory counts as missing here. -/
inductive PathKind where
  | root
  | directory
  | implicitDirectory
  | missing
deriving DecidableEq, Repr

namespace PathKind

/-- The name of a kind. -/
def name : PathKind → List Char
  | root => "root".toList
  | directory => "directory".toList
  | implicitDirectory => "implicit_directory".toList
  | missing => "missing".toList

/-- All kinds. -/
def all : List PathKind := [root, directory, implicitDirectory, missing]

/-- The kind of a name. -/
def ofName (text : List Char) : Except Error PathKind :=
  match all.find? fun kind => kind.name = text with
  | some kind => .ok kind
  | none => .error (.unknownKind text)

/-- Whether a path of this kind is a directory. -/
def isDirectory : PathKind → Bool
  | missing => false
  | _ => true

end PathKind

/-- A directory tree in a bucket. -/
structure FileSystem where
  bucket : Bucket
  config : TreeConfig := .standard

namespace FileSystem

variable (fs : FileSystem)

/-- The kind of store behind the file system. -/
def storeKind : String := "s3"

/-- The URI of the root. -/
def root : Path :=
  fs.bucket.root

/-- The key of a path; a URI that is not below the root is an error. -/
def key (path : Path) : StoreM Key :=
  match Key.normalize? fs.root path with
  | some key => pure key
  | none => throw (.outside path fs.root)

/-- The key of the marker of a path. -/
def markerKey (path : Path) : StoreM Key := do
  return Key.marker fs.config.suffix (← fs.key path)

/-- Records that a path is not below the root. -/
def warnOutside (path : Path) : StoreM Unit :=
  log .warning "Path outside bucket".toList
    [("path", .text path), ("error", .text (outsideMessage path fs.root))]

/-- What a path stands for. Failed requests turn into "missing". -/
def classify (path : Path) : StoreM PathKind := do
  let key ← fs.key path
  if Key.isRoot key then return .root
  match ← fs.bucket.metadata (← fs.markerKey key) with
  | .ok (some _) => return .directory
  | .ok none => pure ()
  | .error fault =>
    log .warning "Folder marker lookup failed".toList
      [("key", .text key), ("error", .text fault.message)]
  match ← fs.bucket.list (Key.childPrefix key) [separator] 1 none with
  | .ok page => return if page.isEmpty then .missing else .implicitDirectory
  | .error fault =>
    log .warning "Child lookup failed".toList
      [("key", .text key), ("error", .text fault.message)]
    return .missing

/-- Writes the marker of a path, unless that is the root. The answer is whether the path has a
marker or is the root. -/
def ensureMarker (path : Path) : StoreM Bool := do
  let key ← fs.key path
  if Key.isRoot key then return true
  let marker ← fs.markerKey key
  match ← fs.bucket.write marker [] (some 0) with
  | .ok () =>
    log .debug "Folder marker written".toList [("key", .text key), ("marker", .text marker)]
    return true
  | .error fault =>
    log .error "Failed to create directory".toList
      [("key", .text key), ("error", .text fault.message)]
    return false

/-- Whether a path is a directory. An implicit directory gets its marker on the way if the
configuration says so. A URI that is not below the root is no directory here. -/
def isDirectory (path : Path) : StoreM Bool := do
  match Key.normalize? fs.root path with
  | none =>
    fs.warnOutside path
    return false
  | some key =>
    let kind ← fs.classify path
    if kind = .implicitDirectory ∧ fs.config.materialize then
      log .info "Materializing implicit directory".toList [("key", .text key)]
      let _ ← fs.ensureMarker path
    return kind.isDirectory

/-- Whether an object is stored at a path below the root. A URI that is not below the root is no
file here. -/
def isFile (path : Path) : StoreM Bool := do
  match Key.normalize? fs.root path with
  | none =>
    fs.warnOutside path
    return false
  | some key =>
    if Key.isRoot key then return false
    match ← fs.bucket.metadata key with
    | .ok metadata => return metadata.isSome
    | .error fault =>
      log .warning "File lookup failed".toList
        [("key", .text key), ("error", .text fault.message)]
      return false

/-- Whether a path is a file or a directory. -/
def exists? (path : Path) : StoreM Bool := do
  if ← fs.isFile path then return true
  fs.isDirectory path

/-- Whether the parent of a path is a directory. The root needs no parent. -/
def parentExists (path : Path) : StoreM Bool := do
  match Key.parent? (← fs.key path) with
  | none => return true
  | some parent => fs.isDirectory parent

/-- The metadata of the file at a path, or of the marker of the directory there. -/
def metadata (path : Path) : StoreM Metadata := do
  let key ← fs.key path
  let object ← if ← fs.isDirectory key then fs.markerKey key else pure key
  match ← fs.bucket.metadata object with
  | .ok (some metadata) => return metadata
  | .ok none => throw (.notFound path)
  | .error fault =>
    log .warning "Failed to get object, treating as absent".toList
      [("key", .text key), ("error", .text fault.message)]
    throw (.notFound path)

/-- The size of the object behind a path. -/
def fileSize (path : Path) : StoreM Int := do
  return (← fs.metadata path).length

/-- The modification time of the object behind a path, in milliseconds. -/
def modificationMilliseconds (path : Path) : StoreM Int := do
  MonadExcept.ofExcept (← fs.metadata path).milliseconds

/-! ### Ownership

Ownership is not stored: every path reports what the configuration says, and changing it does
nothing. -/

/-- The owner of a path. -/
def owner (_ : Path) : String := fs.config.owner

/-- The group of a path. -/
def group (_ : Path) : String := fs.config.group

/-- The mode of a path. -/
def mode (_ : Path) : Int := fs.config.mode

end FileSystem

end KeyTree
