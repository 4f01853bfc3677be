import KeyTree.FileSystem.Delete

/-!
# Renaming

A file is renamed by a copy and the removal of its source. A directory is renamed by establishing
the marker of its target, renaming its entries one after another, directories in the same way, and
then deleting what is left of the source. The first failure ends a rename, and the tree stays as
far as it was moved.

## Main definitions

* `FileSystem.renameFile` — renaming a file.
* `FileSystem.renameDirectory` — renaming a directory tree.
-/

namespace KeyTree.FileSystem

variable (fs : FileSystem)

/-- Copies an object. The answer is whether the request succeeded. -/
def copyKey (source target : Key) : StoreM Bool := do
  log .info "Copying object".toList [("src", .text source), ("dst", .text target)]
  match ← fs.bucket.copy source target with
  | .ok () => return true
  | .error fault =>
    log .error "Failed to copy object".toList
      [("src", .text source), ("dst", .text target), ("error", .text fault.message)]
    return false

/-- Renames a file. The target must not exist. If the source cannot be removed after the copy, both
exist. -/
def renameFile (source target : Path) : StoreM Bool := do
  if !(← fs.isFile source) then return ← refuse (.sourceMissing source target)
  if ← fs.exists? target then return ← refuse (.targetTaken source target)
  let sourceKey ← fs.key source
  if ← fs.copyKey sourceKey (← fs.key target) then fs.deleteKey sourceKey else return false

/-- Establishes the target of a renamed directory: its marker is copied, or written if the source
has none. -/
def establishTarget (sourceKey targetKey : Key) : StoreM Bool := do
  if (← fs.classify sourceKey) = .directory then
    let sourceMarker ← fs.markerKey sourceKey
    fs.copyKey sourceMarker (← fs.markerKey targetKey)
  else fs.ensureMarker targetKey

/-- Renames a directory tree of at most `depth` levels. -/
def renameWithin : Nat → Path → Path → StoreM Bool
  | 0, _, _ => throw .endlessTree
  | depth + 1, source, target => do
    let sourceKey ← fs.key source
    let targetKey ← fs.key target
    if Key.isRoot sourceKey || Key.isRoot targetKey then
      return ← refuse (.rootMoved source target)
    if targetKey = sourceKey ∨ Key.childPrefix sourceKey <+: targetKey then
      return ← refuse (.targetInside source target)
    match ← fs.listStatus source false with
    | none =>
      log .error "Failed to list directory, aborting rename".toList [("src", .text source)]
      return false
    | some children =>
      if ← fs.exists? target then return ← refuse (.targetTaken source target)
      if !(← fs.establishTarget sourceKey targetKey) then return false
      let moved ← children.allM fun child => do
        let childSource := Key.concat sourceKey child.name
        let childTarget := Key.concat targetKey child.name
        let moved ←
          if child.isDirectory then renameWithin depth childSource childTarget
          else fs.renameFile childSource childTarget
        if moved then return true
        log .error "Failed to rename path, aborting rename".toList
          [("child", .text childSource), ("src", .text source), ("dst", .text target)]
        return false
      if moved then fs.deleteDirectory sourceKey true else return false

/-- Renames a directory tree. Neither path may be the root, the target must not exist and must not
lie in the source. -/
def renameDirectory (source target : Path) : StoreM Bool := do
  fs.renameWithin (← StoreM.depthBound) source target

end KeyTree.FileSystem
