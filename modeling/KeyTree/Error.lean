import KeyTree.Location
import KeyTree.Store.Request
import KeyTree.Text.Quoted

/-!
# Errors

Why an operation ends without a result. Most failures of the store are no errors of an operation: it
records them as events and answers accordingly.
-/

namespace KeyTree

/-- Why an operation ends without a result. -/
inductive Error where
  /-- The path is a URI that is not below the root. -/
  | outside (path root : Path)
  /-- The URI names no bucket. -/
  | location (fault : Location.Fault)
  /-- No object stands behind the path. -/
  | notFound (path : Path)
  /-- The directory has entries and was to be removed without them. -/
  | notEmpty (path : Path)
  /-- The directory that a file was to be created in could not be created. -/
  | noParent (path : Path)
  /-- A request failed where its failure is reported to the caller. -/
  | service (fault : ServiceFault)
  /-- A reply of the store lacks a part. -/
  | missingPart (part : String)
  /-- A breakdown. -/
  | breakdown (cause : Breakdown)
  /-- Data was written to a closed stream. -/
  | closedStream
  /-- A closed stream was used as an open one. -/
  | closedFile
  /-- The text names no kind of path. -/
  | unknownKind (text : List Char)
  /-- The time of an object is asked for and not known. -/
  | unknownTime
  /-- The time lies outside the years that can be printed. -/
  | unprintableTime (t : Instant)
  /-- There is no open stream or cursor of that name. -/
  | noHandle (name : String)
  /-- The pages of a listing did not end within their bound. -/
  | endlessListing
  /-- A tree did not end within its bound. -/
  | endlessTree
deriving DecidableEq

/-- The text of the error for a URI that is not below the root. -/
def outsideMessage (path root : Path) : List Char :=
  "Path '".toList ++ path ++ "' is not under '".toList ++ root ++ ['\'']

/-- The text of an error. -/
def Error.message : Error → List Char
  | outside path root => outsideMessage path root
  | location fault => fault.message
  | notFound path => path
  | notEmpty path =>
    "Cannot delete non-empty directory ".toList ++ path ++ " without the recursive flag".toList
  | noParent path => "Cannot create parent directory for ".toList ++ path
  | service fault => fault.message
  | missingPart part => Text.Quoted.encode part.toList
  | breakdown cause => cause.message.toList
  | closedStream => "I/O operation on closed stream".toList
  | closedFile => "I/O operation on closed file.".toList
  | unknownKind text => Text.Quoted.encode text ++ " is not a valid PathKind".toList
  | unknownTime => "'NoneType' object has no attribute 'timestamp'".toList
  | unprintableTime _ => "year is out of range".toList
  | noHandle name => name.toList
  | endlessListing => "the pages of a listing do not end".toList
  | endlessTree => "the directories of a tree do not end".toList

end KeyTree
