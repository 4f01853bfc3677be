import KeyTree.CommandLine.Run

/-!
# The command line program

Carries out one command line on a store that holds the empty bucket of the first URI among the
arguments.
-/

namespace KeyTree.CommandLine

/-- The bucket of the first URI among the arguments. -/
def firstBucket (arguments : List (List Char)) : List Char :=
  (arguments.findSome? fun argument => (Location.parse argument).toOption).elim [] Location.bucket

/-- An empty store whose bucket is the one that the arguments speak of. -/
def emptyStore (arguments : List (List Char)) : Store :=
  { bucket := firstBucket arguments, objects := ∅, clock := 0, tick := 1000000 }

end KeyTree.CommandLine

open KeyTree

def main (arguments : List String) : IO UInt32 := do
  let arguments := arguments.map String.toList
  let world : World := { store := CommandLine.emptyStore arguments }
  match ((CommandLine.run arguments).exec .quiet world).1 with
  | .ok outcome =>
    IO.print (String.ofList outcome.output)
    IO.eprint (String.ofList outcome.errors)
    return UInt32.ofNat outcome.exitCode
  | .error error =>
    IO.eprintln (String.ofList error.message)
    return 1
