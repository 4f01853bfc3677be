/-!
# Keys and paths

A bucket maps flat keys to objects. A directory tree is read into the keys by treating `/` as a
separator. A *path* is what a caller writes: a URI below the root of the bucket, an absolute or a
relative path, with separators doubled or left over at the ends. Its *key* is the join of its
non-empty segments; the root of the tree has the empty key.

## Main definitions

* `Key.pieces`, `Key.segments`, `Key.join` — a text cut at its separators, and put together again.
* `Key.normalize?` — the key of a path, or nothing for a URI outside the root.
* `Key.parent?`, `Key.lastSegment`, `Key.concat`, `Key.childPrefix`, `Key.childName` — the tree.
* `Key.marker` — the key of the empty object that flags a directory.
* `Key.IsNormal` — keys that are joins of non-empty segments.
-/

namespace KeyTree

/-- The name of an object, as a list of code points. -/
abbrev Key := List Char

/-- A text that names a place in the tree; see `Key.normalize?`. -/
abbrev Path := List Char

/-- The separator of the segments of a key. -/
abbrev separator : Char := '/'

/-- The scheme that a URI of the store starts with. -/
def scheme : Path := ['s', '3', ':', '/', '/']

namespace Key

/-! ### Cutting and joining -/

/-- The pieces between separators, empty ones included. -/
def pieces : List Char → List (List Char)
  | [] => [[]]
  | c :: rest =>
    if c = separator then [] :: pieces rest
    else match pieces rest with
      | [] => [[c]]
      | piece :: more => (c :: piece) :: more

/-- The non-empty pieces between separators. -/
def segments (path : Path) : List Key :=
  (pieces path).filter (· ≠ [])

/-- Segments with one separator between neighbours. -/
def join : List Key → Key
  | [] => []
  | [segment] => segment
  | segment :: more => segment ++ separator :: join more

/-- The text without the separators that it starts with. -/
def trimStart (text : List Char) : List Char :=
  text.dropWhile (· = separator)

/-- The text without the separators that it ends with. -/
def trimEnd : List Char → List Char
  | [] => []
  | c :: rest =>
    match trimEnd rest with
    | [] => if c = separator then [] else [c]
    | kept => c :: kept

/-- The text without the separators at both ends. -/
def trim (text : List Char) : List Char :=
  trimEnd (trimStart text)

/-! ### From paths to keys -/

/-- The URI of the root of a bucket. -/
def rootOf (bucket : List Char) : Path :=
  scheme ++ bucket

/-- The part of a path below the root. A path that spells the root, or continues it after a
separator, loses the root; any other URI has no place under the root; all other paths are relative
to the root already. Separators at the end of the root count for the comparison of the whole
path only. -/
def below? (root path : Path) : Option Path :=
  if root ≠ [] ∧ (path = root ∨ trimEnd root ++ [separator] <+: path) then
    some (path.drop (trimEnd root).length)
  else if scheme <+: path then none
  else some path

/-- The key of a path under a root: the join of the non-empty segments below the root, or nothing
for a URI outside the root. -/
def normalize? (root path : Path) : Option Key :=
  (below? root path).map fun rest => join (segments rest)

/-- A key is *normal* when it is the join of at least one segment, all of them non-empty and
free of separators. -/
def IsNormal (key : Key) : Prop :=
  key ≠ [] ∧ ∀ piece ∈ pieces key, piece ≠ []

instance (key : Key) : Decidable (IsNormal key) :=
  inferInstanceAs (Decidable (_ ∧ _))

/-! ### The tree -/

/-- The root of the tree has the empty key. -/
def isRoot (key : Key) : Bool :=
  key.isEmpty

/-- The text before the last separator, empty if there is none. -/
def beforeLast : List Char → List Char
  | [] => []
  | c :: rest => if separator ∈ rest then c :: beforeLast rest else []

/-- The text after the last separator, all of it if there is none. -/
def lastSegment : List Char → List Char
  | [] => []
  | c :: rest =>
    if separator ∈ rest then lastSegment rest
    else if c = separator then rest else c :: rest

/-- The key of the parent directory; the root has none. -/
def parent? (key : Key) : Option Key :=
  if isRoot key then none else some (beforeLast key)

/-- The texts before each separator, shortest first: the proper ancestors of a key below the
root. -/
def ancestors : List Char → List Key
  | [] => []
  | c :: rest =>
    let further := (ancestors rest).map (c :: ·)
    if c = separator then [] :: further else further

/-- A child's key from its directory's key and its name. -/
def concat (base child : Path) : Path :=
  match trimEnd base with
  | [] => trim child
  | kept => kept ++ separator :: trim child

/-- What the keys below a directory start with: its key and a separator, nothing for the root. -/
def childPrefix (key : Key) : Key :=
  if isRoot key then [] else key ++ [separator]

/-- The name of a listed entry relative to the listed directory: as many code points as the
listed text has are dropped, then the separators at both ends. -/
def childName (entry under : Key) : Key :=
  trim (entry.drop under.length)

/-- The key of the marker that flags a key as a directory. -/
def marker (suffix key : Key) : Key :=
  key ++ suffix

end Key

end KeyTree
