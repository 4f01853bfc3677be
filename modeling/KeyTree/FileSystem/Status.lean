import KeyTree.FileSystem.Basic

/-!
# Listing a directory

The entries of a directory are read off the pages of a listing. A marker stands for the directory
that it flags, a group of keys for the directory that they lie in; every other object is a file. The
whole subtree can be listed too, and then every ancestor of a listed key is a directory. The first
entry of a name counts.

## Main definitions

* `Status` — an entry.
* `Status.ofPages` — the entries that pages show, in the order of their names.
* `FileSystem.listStatus`, `FileSystem.listNames` — the entries of a directory.
-/

namespace KeyTree

/-- An entry of a directory. -/
structure Status where
  /-- The path relative to the listed directory. -/
  name : Key
  isDirectory : Bool
  length : Int := 0
  modified : Option Instant := none
deriving DecidableEq, Repr

namespace Status

/-- A directory. -/
def directory (name : Key) : Status :=
  { name, isDirectory := true }

/-- A file as a listing shows it. -/
def file (name : Key) (summary : Summary) : Status :=
  { name, isDirectory := false, length := summary.size, modified := summary.modified }

/-- The directories that a directory's name shows: itself, and in a listing of the subtree its
ancestors. -/
def directoriesOf (recursive : Bool) (name : Key) : List Status :=
  directory name :: (if recursive then (Key.ancestors name).map directory else [])

/-- The entries that a listed object shows, below the listed text `under`. Names that come out empty
are left out. -/
def ofSummary (suffix : List Char) (under : Key) (recursive : Bool) (summary : Summary) :
    List Status :=
  let name := Key.childName summary.key under
  if suffix <:+ summary.key then
    let name := Key.trimEnd (name.take (name.length - suffix.length))
    if name = [] then [] else directoriesOf recursive name
  else if name = [] then []
  else if [separator] <:+ summary.key then directoriesOf recursive name
  else
    (if recursive ∧ separator ∈ name then directoriesOf recursive (Key.beforeLast name) else []) ++
      [file name summary]

/-- The entries that a group of keys shows. -/
def ofGroup (under : Key) (recursive : Bool) (group : Key) : List Status :=
  let name := Key.childName group under
  if name = [] then [] else directoriesOf recursive name

/-- The entries that a page shows, objects before groups. -/
def ofPage (suffix : List Char) (under : Key) (recursive : Bool) (page : Page) : List Status :=
  page.objects.flatMap (ofSummary suffix under recursive) ++
    page.groups.flatMap (ofGroup under recursive)

/-- The first entry of every name. -/
def firstOfName (entries : List Status) : Std.ExtTreeMap Key Status :=
  entries.foldl (fun known entry => known.insertIfNew entry.name entry) ∅

/-- The entries that pages show, in the order of their names. -/
def ofPages (suffix : List Char) (under : Key) (recursive : Bool) (pages : List Page) :
    List Status :=
  (firstOfName (pages.flatMap (ofPage suffix under recursive))).toList.map Prod.snd

end Status

namespace FileSystem

variable (fs : FileSystem)

/-- All pages of the listing below a key, or nothing if the listing could not be completed. -/
def allPages (key : Key) (recursive : Bool) : StoreM (Option (List Page)) := do
  let cursor := Cursor.new fs.bucket (Key.childPrefix key) recursive fs.config.pageSize
  let (pages, cursor) ← cursor.drain
  if pages.isEmpty then
    log .error "Failed to list directory".toList [("key", .text key)]
    return none
  if cursor.truncated then
    log .error "Listing ended before the last page".toList [("key", .text key)]
    return none
  return some pages

/-- The entries of a directory, or of its whole subtree, in the order of their names; nothing if the
path is no directory or the listing could not be completed. -/
def listStatus (path : Path) (recursive : Bool) : StoreM (Option (List Status)) := do
  let key ← fs.key path
  if !(← fs.isDirectory key) then return none
  let pages ← fs.allPages key recursive
  return pages.map (Status.ofPages fs.config.suffix (Key.childPrefix key) recursive)

/-- The names of the entries of a directory. -/
def listNames (path : Path) (recursive : Bool) : StoreM (Option (List Key)) := do
  return (← fs.listStatus path recursive).map fun entries => entries.map Status.name

end FileSystem

end KeyTree
