import SsaFacts.Clause
import SsaFacts.Survey

/-! A program together with its survey, the subject about which facts are stated. -/
namespace SsaFacts

structure Subject where
  program : Program
  survey : Survey

namespace Subject
variable (s : Subject)

/-- Whether a value is an integer or pointer that some execution observes. -/
def observed (v : ValueId) : Checked Bool := do
  let x ← s.program.value v
  if !x.ty.isIntegerOrPointer then return false
  match x.kind with
  | .inst .. => return !s.survey.instDead v
  | .param f _ => return !s.survey.funcDead f
  | .function _ => return false
  | .const _ | .null | .global .. => return true

def allObserved (vs : List ValueId) : Checked Bool := vs.allM s.observed

def equal (a b : ValueId) : Checked Clause := do
  Clause.equal (← s.program.leaf a) (← s.program.leaf b)

def wordArg? (v : ValueId) : Checked (Option Expr) := do
  let e ← s.program.leaf v
  return if (← s.observed v) && e.width = wordWidth then some e else none

def pointers : List ValueId :=
  s.program.valueIds.filter fun v => s.program.values[v]?.any (·.ty = .ptr)

def aliasPairs : Checked (List (ValueId × ValueId)) :=
  let pairs := s.pointers.flatMap fun x => (s.pointers.filter (x < ·)).map (x, ·)
  pairs.filterM fun (x, y) => s.survey.mustAlias x y

/-- The instructions that may write through some pointer, each with the pointers concerned. -/
def writtenPointers : Checked (List (ValueId × List ValueId)) := do
  let all ← s.program.instructions.mapM fun i => return (i, ← s.pointers.filterM (s.survey.mayWrite i))
  return all.filter fun (_, hit) => !hit.isEmpty

end Subject
end SsaFacts
