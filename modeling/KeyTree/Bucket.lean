import KeyTree.StoreM

/-!
# Buckets

The operations on single objects and on pages of names, each of which sends exactly one request. A
failed request comes back as a value; that an object is missing counts as a failure except for a
look-up of its metadata.

## Main definitions

* `Bucket` — a bucket that requests are addressed to.
* `Metadata`, `Summary`, `Page` — what is read from replies.
* `Bucket.metadata`, `Bucket.read`, `Bucket.write`, `Bucket.upload`, `Bucket.delete`, `Bucket.copy`,
  `Bucket.list` — the operations.
-/

namespace KeyTree

/-- Length and modification time of an object, the time if it is known. -/
structure Metadata where
  length : Int
  modified : Option Instant
deriving DecidableEq, Repr

/-- The modification time in milliseconds; an unknown time is an error. -/
def Metadata.milliseconds (metadata : Metadata) : Except Error Int :=
  match metadata.modified with
  | some modified => .ok modified.milliseconds
  | none => .error .unknownTime

/-- An object in a listing. -/
structure Summary where
  key : Key
  size : Int := 0
  modified : Option Instant := none
deriving DecidableEq, Repr

/-- A page of a listing. -/
structure Page where
  objects : List Summary := []
  /-- The names of groups of keys, each ending with the delimiter. -/
  groups : List Key := []
  /-- Whether there is more after this page. -/
  truncated : Bool := false
  /-- Where to go on. -/
  token : Option (List Char) := none
deriving DecidableEq, Repr

/-- Whether a page names nothing. -/
def Page.isEmpty (page : Page) : Bool :=
  page.objects.isEmpty && page.groups.isEmpty

/-- The page of a reply, if no listed object lacks its key and no group its name. -/
def Page.ofReply (reply : ListReply) : Except Error Page := do
  let objects ← reply.objects.mapM fun object =>
    match object.key with
    | some key => .ok { key, size := object.size, modified := object.modified : Summary }
    | none => .error (.missingPart "Key")
  let groups ← reply.groups.mapM fun
    | some name => .ok name
    | none => .error (.missingPart "Prefix")
  return { objects, groups, truncated := reply.truncated, token := reply.nextToken }

/-- A bucket that requests are addressed to. -/
structure Bucket where
  name : List Char
deriving DecidableEq, Repr

namespace Bucket

/-- The URI of the bucket. -/
def root (bucket : Bucket) : Path :=
  Key.rootOf bucket.name

/-- The metadata of an object, nothing if there is no such object. -/
def metadata (bucket : Bucket) (key : Key) :
    StoreM (Except ServiceFault (Option Metadata)) := do
  match ← send bucket.name (.head key) with
  | .ok reply =>
    match reply.modified with
    | .known modified => return .ok (some ⟨reply.length, some modified⟩)
    | .unknown => return .ok (some ⟨reply.length, none⟩)
    | .absent => throw (.missingPart "LastModified")
  | .error fault => return if fault.error.isNotFound then .ok none else .error fault

/-- The body of an object. -/
def read (bucket : Bucket) (key : Key) : StoreM (Except ServiceFault Bytes) :=
  send bucket.name (.get key)

/-- Stores an object, replacing what was there. The declared length is that of the body unless
another is given. -/
def write (bucket : Bucket) (key : Key) (body : Bytes) (declaredLength : Option Int) :
    StoreM (Except ServiceFault Unit) :=
  send bucket.name (.put key body (declaredLength.getD body.length))

/-- Stores an object from a stream. -/
def upload (bucket : Bucket) (key : Key) (body : Bytes) : StoreM (Except ServiceFault Unit) :=
  send bucket.name (.upload key body)

/-- Removes an object. -/
def delete (bucket : Bucket) (key : Key) : StoreM (Except ServiceFault Unit) :=
  send bucket.name (.delete key)

/-- Stores the body of one object as another. -/
def copy (bucket : Bucket) (source target : Key) : StoreM (Except ServiceFault Unit) :=
  send bucket.name (.copy source target)

/-- A text as part of a query: an empty one is not sent. -/
def sent? (text : List Char) : Option (List Char) :=
  if text = [] then none else some text

/-- A page of the names under a text, grouped at the delimiter unless that is empty. -/
def list (bucket : Bucket) (under delimiter : List Char) (maxKeys : Int)
    (token : Option (List Char)) : StoreM (Except ServiceFault Page) := do
  let query : Query :=
    { under := sent? under, delimiter := sent? delimiter, maxKeys, token := token.bind sent? }
  match ← send bucket.name (.list query) with
  | .error fault => return .error fault
  | .ok reply =>
    match Page.ofReply reply with
    | .error error => throw error
    | .ok page =>
      log .debug "Listing page fetched".toList
        [("prefix", .text under), ("object_count", .number page.objects.length),
          ("prefix_count", .number page.groups.length), ("truncated", .flag page.truncated)]
      return .ok page

end Bucket

end KeyTree
