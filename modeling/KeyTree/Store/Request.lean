import KeyTree.Store.Object

/-!
# Requests to the store

The store serves requests about single objects and requests for pages of names. Each request has
the type of its reply; instead of a reply the store may refuse it, not be reached, or break down.

## Main definitions

* `Request`, `Request.Reply` — the requests and what they are answered with.
* `StoreError` — a refusal, or an error on the way to the store.
* `Failure` — a store error, or a breakdown that is none.
-/

namespace KeyTree

/-- What a request for a page of names asks for; parts that are absent are not sent. -/
structure Query where
  /-- The text that the listed keys start with. -/
  under : Option Key
  /-- The text that ends a group of keys. -/
  delimiter : Option (List Char)
  /-- The largest number of names. -/
  maxKeys : Int
  /-- Where to go on. -/
  token : Option (List Char)
deriving DecidableEq, Repr

/-- The requests. -/
inductive Request where
  /-- Length and modification time of an object. -/
  | head (key : Key)
  /-- The body of an object. -/
  | get (key : Key)
  /-- Store an object, with the length that the caller declares. -/
  | put (key : Key) (body : Bytes) (declaredLength : Int)
  /-- Store an object from a stream. -/
  | upload (key : Key) (body : Bytes)
  /-- Remove an object, if there is one. -/
  | delete (key : Key)
  /-- Store the body of one object as another. -/
  | copy (source target : Key)
  /-- A page of names. -/
  | list (query : Query)
deriving DecidableEq

/-- The kinds of requests. -/
inductive Method where
  | head | get | put | upload | delete | copy | list
deriving DecidableEq, Repr

/-- The time in a reply to a request for the length and time of an object. -/
inductive ReportedTime where
  /-- The reply has no such part. -/
  | absent
  /-- The part is there, and it says that the time is unknown. -/
  | unknown
  | known (modified : Instant)
deriving DecidableEq, Repr

/-- The reply to a request for the length and time of an object. -/
structure HeadReply where
  length : Int
  modified : ReportedTime
deriving DecidableEq, Repr

/-- An object in a page of names. A reply may lack any of the parts but the size. -/
structure ListedObject where
  key : Option Key
  size : Int
  modified : Option Instant
deriving DecidableEq, Repr

/-- The reply to a request for a page of names. -/
structure ListReply where
  objects : List ListedObject := []
  groups : List (Option Key) := []
  truncated : Bool := false
  nextToken : Option (List Char) := none
deriving DecidableEq, Repr

namespace Request

/-- The type of the reply to a request. -/
@[reducible]
def Reply : Request → Type
  | head _ => HeadReply
  | get _ => Bytes
  | list _ => ListReply
  | _ => Unit

/-- The kind of a request. -/
def method : Request → Method
  | head _ => .head
  | get _ => .get
  | put .. => .put
  | upload .. => .upload
  | delete _ => .delete
  | copy .. => .copy
  | list _ => .list

/-- The key that a request is about: the written key of a copy, the text that the names of a
listing start with. -/
def target : Request → Key
  | head key | get key | put key _ _ | upload key _ | delete key => key
  | copy _ target => target
  | list query => query.under.getD []

/-- Whether the request goes on from an earlier page. -/
def isContinuation : Request → Bool
  | list query => (query.token.getD []) ≠ []
  | _ => false

/-- The name of the operation in the store's own texts. -/
def operation : Request → String
  | head _ => "HeadObject"
  | get _ => "GetObject"
  | put .. | upload .. => "PutObject"
  | delete _ => "DeleteObject"
  | copy .. => "CopyObject"
  | list _ => "ListObjectsV2"

/-- What is reported when a request has failed. -/
def failureText : Request → List Char
  | head key => "Failed to get metadata of '".toList ++ key ++ ['\'']
  | get key => "Failed to get object '".toList ++ key ++ ['\'']
  | put key _ _ => "Failed to put object '".toList ++ key ++ ['\'']
  | upload key _ => "Failed to upload object '".toList ++ key ++ ['\'']
  | delete key => "Failed to delete object '".toList ++ key ++ ['\'']
  | copy source target =>
    "Failed to copy object '".toList ++ source ++ "' to '".toList ++ target ++ ['\'']
  | list query => "Failed to list prefix '".toList ++ query.under.getD [] ++ ['\'']

/-- A request *writes* when it may change the contents of the bucket. -/
def writes : Request → Bool
  | put .. | upload .. | delete _ | copy .. => true
  | _ => false

end Request

/-- An error on the way to the store. -/
inductive TransportError where
  | unreachable (url : String)
  | noCredentials
  | connectTimeout (url : String)
  | readTimeout (url : String)
  | partialCredentials (provider missing : String)
  | invalidParameters (report : String)
deriving DecidableEq, Repr

/-- The text of an error on the way to the store. -/
def TransportError.message : TransportError → String
  | unreachable url => "Could not connect to the endpoint URL: \"" ++ url ++ "\""
  | noCredentials => "Unable to locate credentials"
  | connectTimeout url => "Connect timeout on endpoint URL: \"" ++ url ++ "\""
  | readTimeout url => "Read timeout on endpoint URL: \"" ++ url ++ "\""
  | partialCredentials provider missing =>
    "Partial credentials found in " ++ provider ++ ", missing: " ++ missing
  | invalidParameters report => "Parameter validation failed:\n" ++ report

/-- Why a request failed as requests to a store do. -/
inductive StoreError where
  /-- The store refused the request, possibly without a code or a text. -/
  | refused (code message : Option String)
  /-- The request did not get an answer. -/
  | transport (error : TransportError)
deriving DecidableEq, Repr

namespace StoreError

/-- The text of a store error for a request. -/
def message (request : Request) : StoreError → String
  | refused code text =>
    "An error occurred (" ++ code.getD "Unknown" ++ ") when calling the " ++ request.operation ++
      " operation: " ++ text.getD "Unknown"
  | transport error => error.message

/-- The codes that say that there is no such object. -/
def notFoundCodes : List String := ["404", "NoSuchKey", "NotFound"]

/-- Whether the error says that there is no such object. A missing code does not. -/
def isNotFound : StoreError → Bool
  | refused (some code) _ => code ∈ notFoundCodes
  | _ => false

/-- There is no object of that key, as told to a request for its length and time. -/
def missingHead : StoreError := refused (some "404") (some "Not Found")

/-- There is no object of that key. -/
def missingKey : StoreError := refused (some "NoSuchKey") (some "The specified key does not exist.")

/-- There is no such bucket. -/
def missingBucket : Request → StoreError
  | .head _ => missingHead
  | _ => refused (some "NoSuchBucket") (some "The specified bucket does not exist")

/-- The token of a listing is none that the store gave out. -/
def unknownToken : StoreError :=
  refused (some "InvalidArgument") (some "The continuation token provided is incorrect")

/-- Keys have at least one character. -/
def emptyKey : StoreError :=
  transport (.invalidParameters "Invalid length for parameter Key, value: 0, valid min length: 1")

end StoreError

/-- A breakdown that is not reported as a failed request. -/
inductive Breakdown where
  | runtime (message : String)
  | system (message : String)
deriving DecidableEq, Repr

/-- The text of a breakdown. -/
def Breakdown.message : Breakdown → String
  | runtime message | system message => message

/-- Why a request got no reply. -/
inductive Failure where
  | store (error : StoreError)
  | breakdown (cause : Breakdown)
deriving DecidableEq, Repr

/-- A request that failed as requests to a store do. -/
structure ServiceFault where
  request : Request
  error : StoreError
deriving DecidableEq

/-- The text of a failed request. -/
def ServiceFault.message (fault : ServiceFault) : List Char :=
  fault.request.failureText ++ [':', ' '] ++ (fault.error.message fault.request).toList

end KeyTree
