import KeyTree.FileSystem.Refusal
import KeyTree.FileSystem.Status

/-!
# Deleting

A file is deleted by one request. A directory is deleted with everything below it, key by key in the
order of the keys and its marker last, or without its contents if there are none; the first failed
request ends it.

## Main definitions

* `FileSystem.deleteKey` — deleting one object.
* `FileSystem.deleteFile`, `FileSystem.deleteDirectory`, `FileSystem.delete` — deleting paths.
-/

namespace KeyTree.FileSystem

variable (fs : FileSystem)

/-- Removes an object. The answer is whether the request succeeded. -/
def deleteKey (key : Key) : StoreM Bool := do
  match ← fs.bucket.delete key with
  | .ok () => return true
  | .error fault =>
    log .error "Failed to delete object".toList
      [("key", .text key), ("error", .text fault.message)]
    return false

/-- Deletes the file at a path. -/
def deleteFile (path : Path) : StoreM Bool := do
  fs.deleteKey (← fs.key path)

/-- The keys below a key, or nothing if the listing could not be completed. -/
def subtreeKeys (key : Key) : StoreM (Option (List Key)) := do
  return (← fs.allPages key true).map fun pages =>
    pages.flatMap fun page => page.objects.map Summary.key

/-- Removes objects below a directory one by one, as long as requests succeed. -/
def deleteKeys (directory : Key) (keys : List Key) : StoreM Bool :=
  keys.allM fun key => do
    if ← fs.deleteKey key then return true
    log .error "Failed to delete path, aborting delete".toList
      [("key", .text key), ("directory", .text directory)]
    return false

/-- Whether the contents of a directory are out of the way: removed if the deletion is recursive,
absent otherwise. -/
def clearDirectory (path : Path) (key : Key) (recursive : Bool) : StoreM Bool := do
  if recursive then
    match ← fs.subtreeKeys key with
    | none => return false
    | some keys => fs.deleteKeys key keys
  else
    match ← fs.listStatus key false with
    | none =>
      log .error "Failed to list directory, aborting delete".toList [("key", .text key)]
      return false
    | some [] => return true
    | some _ => throw (.notEmpty path)

/-- Deletes a directory and its marker. That it has contents is an error unless they are to be
deleted too. The root has no marker. -/
def deleteDirectory (path : Path) (recursive : Bool) : StoreM Bool := do
  let key ← fs.key path
  if !(← fs.clearDirectory path key recursive) then return false
  if Key.isRoot key then return true
  fs.deleteKey (← fs.markerKey key)

/-- Deletes the file or else the directory at a path. -/
def delete (path : Path) (recursive : Bool) : StoreM Bool := do
  if ← fs.isFile path then return ← fs.deleteFile path
  if ← fs.isDirectory path then return ← fs.deleteDirectory path recursive
  refuse (.pathMissing path)

end KeyTree.FileSystem
