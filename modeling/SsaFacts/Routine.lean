import SsaFacts.Literal

/-! Routines that the engine knows by name. -/
namespace SsaFacts.Routine

/-- Starts a thread: its fourth argument is passed to the function named by its third. -/
def threadSpawn : String := "pthread_create"

/-- Calls to routines whose name starts so state that their two arguments are equal. -/
def equalityMarker : String := "slicer_assert_eq"

structure Summary where
  /-- A lower bound. -/
  least : Int
  /-- The argument that bounds it from above when not negative. -/
  lengthArg : Option Nat

def summary? (name : String) : Option Summary :=
  match name with
  | "pwrite" | "recv" => some { least := -1, lengthArg := some 2 }
  | "rand" => some { least := 0, lengthArg := none }
  | _ => none

end SsaFacts.Routine
