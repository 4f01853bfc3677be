import KeyTree.FileSystem.Basic
import KeyTree.FileSystem.Refusal

/-!
# Creating directories

A directory is created by writing its marker, after the markers of the missing directories above it,
topmost first. A path that is a file already, or whose parent is missing and not to be created, is
refused.

## Main definitions

* `FileSystem.ancestry` — the directories above a path.
* `FileSystem.mkdirs` — creating a directory.
-/

namespace KeyTree

namespace FileSystem

variable (fs : FileSystem)

/-- The parent of a path, if it has a key and is not the root. -/
def parentOf? (path : Path) : Option Key :=
  (Key.normalize? fs.root path).bind Key.parent?

/-- Up to `count` directories above a path, the nearest first. -/
def ancestryWithin : Nat → Path → List Key
  | 0, _ => []
  | count + 1, path =>
    match fs.parentOf? path with
    | none => []
    | some parent => parent :: ancestryWithin count parent

/-- The directories above a path, the nearest first. There is at most one for each character. -/
def ancestry (path : Path) : List Key :=
  fs.ancestryWithin (path.length + 1) path

/-- Creates the directory at a path below the directories `above`, the nearest first. -/
def mkdirsBelow : List Key → Path → Bool → StoreM Bool
  | above, path, createParent => do
    if ← fs.isDirectory path then return true
    if ← fs.isFile path then return ← refuse (.fileInTheWay path)
    if ← fs.parentExists path then return ← fs.ensureMarker path
    if !createParent then return ← refuse (.parentMissing path)
    match above with
    | [] => return false
    | parent :: above =>
      if ← mkdirsBelow above parent true then fs.ensureMarker path else return false

/-- Creates a directory, and the missing directories above it if that is asked for. The answer is
whether the directory exists afterwards. Without a path nothing is done. -/
def mkdirs (path : Option Path) (createParent : Bool) : StoreM Bool :=
  match path with
  | none => return false
  | some path => fs.mkdirsBelow (fs.ancestry path) path createParent

end FileSystem

end KeyTree
