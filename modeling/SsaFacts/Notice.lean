import SsaFacts.Clause
import SsaFacts.Routine

/-! Remarks made while working, kept in order beside the result. -/
namespace SsaFacts

inductive Notice
  | conflictingLiterals (a b : Literal)
  | edgeKept (edge : Nat) (block : BlockId)
  | malformedMarker (call : ValueId)
  | signatureMismatch (call : ValueId) (callee : String)
  | diagnosing
  | scopeLeftOpen (reason : String)
  | counterexample (leaf : Leaf) (value : Literal)

namespace Notice

def text : Notice → String
  | conflictingLiterals a b => "conflicting literals " ++ a.text ++ " and " ++ b.text ++ " in one class"
  | edgeKept edge block =>
    "cannot exclude edge " ++ toString edge ++ " of indirect branch in bb" ++ toString block
  | malformedMarker call => "malformed " ++ Routine.equalityMarker ++ " call v" ++ toString call
  | signatureMismatch call callee =>
    "call v" ++ toString call ++ " does not match the signature of " ++ callee
  | diagnosing => "captured facts are inconsistent, diagnosing"
  | scopeLeftOpen reason => "failed to pop solver scope: " ++ reason
  | counterexample leaf value => "counterexample: " ++ leaf.text ++ " = " ++ value.text

def literals : Notice → List Literal
  | conflictingLiterals a b => [a, b]
  | counterexample _ value => [value]
  | _ => []

end Notice

/-- A computation that may run into a fault and makes remarks, which outlive the fault. -/
abbrev Noted (α : Type) := ExceptT Fault (StateM (List Notice)) α

/-- Makes a remark; one that cannot be written is a fault. -/
def note (n : Notice) : Noted Unit := do
  n.literals.forM fun l => discard (monadLift l.print : Noted String)
  modify (· ++ [n])

end SsaFacts
