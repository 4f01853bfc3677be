import KeyTree.StoreM

/-!
# Refusals

An operation that does not apply to its paths as they stand is refused: the reason is recorded and
the answer is "no".
-/

namespace KeyTree

/-- Why an operation on paths is refused. -/
inductive Refusal where
  | fileInTheWay (path : Path)
  | parentMissing (path : Path)
  | sourceMissing (source target : Path)
  | targetTaken (source target : Path)
  | targetInside (source target : Path)
  | rootMoved (source target : Path)
  | pathMissing (path : Path)
deriving DecidableEq, Repr

namespace Refusal

/-- The text of a refused rename. -/
def renameText (source target : Path) (reason : String) : List Char :=
  "Unable to rename ".toList ++ source ++ " to ".toList ++ target ++ " because ".toList ++
    reason.toList

/-- The text of a refusal. -/
def message : Refusal → List Char
  | fileInTheWay path =>
    "Cannot create directory ".toList ++ path ++ " because it is already a file".toList
  | parentMissing path =>
    "Cannot create directory ".toList ++ path ++ " because parent does not exist".toList
  | sourceMissing source target =>
    renameText source target "source does not exist or is a directory"
  | targetTaken source target => renameText source target "destination already exists"
  | targetInside source target =>
    renameText source target "destination is inside the source directory"
  | rootMoved _ _ => "The bucket root cannot be renamed".toList
  | pathMissing path => "Cannot delete ".toList ++ path ++ ": no such path".toList

/-- The kind of a refusal. -/
def kind : Refusal → String
  | sourceMissing _ _ | pathMissing _ => "NotFoundError"
  | targetTaken _ _ => "AlreadyExistsError"
  | _ => "InvalidOperationError"

/-- The paths that a refusal is about. -/
def paths : Refusal → List (String × Datum)
  | fileInTheWay path | parentMissing path | pathMissing path => [("path", .text path)]
  | sourceMissing source target | targetTaken source target | targetInside source target
  | rootMoved source target => [("src", .text source), ("dst", .text target)]

end Refusal

/-- Records a refusal and answers "no". -/
def refuse (refusal : Refusal) : StoreM Bool := do
  log .error refusal.message (("error_type", .text refusal.kind.toList) :: refusal.paths)
  return false

end KeyTree
