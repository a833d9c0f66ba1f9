import SsaFacts.Engine.Basic

/-! Questions to the engine: whether a clause holds in every execution, or in some. -/
namespace SsaFacts

inductive Operand
  | value (v : ValueId)
  /-- An operand as its user sees it. -/
  | use (site : Use)
  | literal (l : Literal)

def Operand.expr (p : Program) : Operand → Checked Expr
  | value v => p.leaf v
  | use site => p.operand site
  | literal l => return .literal l

namespace Dialogue

def remarkCounterexample (c : Clause) : Dialogue Unit := do
  let values ← modelValues (c.leaves.map .leaf)
  (c.leaves.zip values).forM fun (leaf, value) => Talk.ofNoted (note (.counterexample leaf value))

/-- Whether a clause holds given some facts; `question` is the clause as it was asked. -/
def decideClause (facts : List Clause) (c question : Clause) : Dialogue Bool := inScope do
  assertAll facts
  assert (.not c)
  match ← check with
  | .unsat => return true
  | .sat =>
    if (← Talk.world).debug then remarkCounterexample c
    return false
  | .unknown => Talk.fail (.undecided (← Talk.ofChecked question.print))

end Dialogue

namespace Inquiry

/-- Whether a clause holds in every execution. With debugging on it is written down first. -/
def provable (c : Clause) : Inquiry Bool := do
  let e ← engine
  let canonical := e.classes.canonical c
  if (← Talk.world).debug then
    discard (Talk.ofChecked c.print)
    discard (Talk.ofChecked canonical.print)
  if canonical.isTautology then return true
  if (← Talk.ofChecked canonical.simplify) = some true then return true
  let facts ← Talk.ofNoted (e.realized c)
  withSolver (Dialogue.decideClause facts canonical c)

def satisfiable (c : Clause) : Inquiry Bool := do
  if ((← engine).classes.canonical c).isTautology then return true
  return !(← provable (.not c))

def side (context : Context) (stack : List ValueId) (v : Operand) : Inquiry Expr := do
  let e ← engine
  let x ← Talk.ofChecked (do e.capture.attachExpr e.program context (← v.expr e.program))
  return x.mapLeaves (Leaf.withStack stack)

/-- The question how two values compare, each along a call stack. They belong to different activations:
the left one to context 1, the right one to context 2. -/
def question (pred : Predicate) (stack₁ : List ValueId) (v₁ : Operand) (stack₂ : List ValueId)
    (v₂ : Operand) : Inquiry Clause := do
  let l ← side 1 stack₁ v₁
  let r ← side 2 stack₂ v₂
  if l.width ≠ r.width then Talk.fail (.widthMismatch l.width r.width)
  return .atom pred l r

def provableOf (pred : Predicate) (stack₁ : List ValueId) (v₁ : Operand) (stack₂ : List ValueId)
    (v₂ : Operand) : Inquiry Bool := do
  provable (← question pred stack₁ v₁ stack₂ v₂)

def satisfiableOf (pred : Predicate) (stack₁ : List ValueId) (v₁ : Operand) (stack₂ : List ValueId)
    (v₂ : Operand) : Inquiry Bool := do
  satisfiable (← question pred stack₁ v₁ stack₂ v₂)

end Inquiry
end SsaFacts
