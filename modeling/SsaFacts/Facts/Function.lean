import SsaFacts.Facts.Branch
import SsaFacts.Facts.Instruction
import SsaFacts.Facts.Library

/-! The facts of a function outside its loops. -/
namespace SsaFacts
namespace Subject
variable (s : Subject)

def inInstruction (i : ValueId) : Checked (List Clause) := do
  if !(← s.observed i) then return []
  return (← s.inUser i).toList ++ (← s.inLibraryCall i)

/-- Facts of a function outside its loops; none of one that never runs. -/
def inFunction (f : FuncId) : Noted (List Clause) := do
  if s.survey.funcDead f then return []
  let blocks := (← s.program.function f).blocks.filter fun b => (s.survey.innermost? b).isNone
  let facts ← (blocks.flatMap s.program.instsOf).mapM fun i => (s.inInstruction i : Checked _)
  return facts.flatten ++ (← s.unreachableFacts f)

end Subject
end SsaFacts
