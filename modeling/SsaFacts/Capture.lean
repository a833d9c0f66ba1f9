import SsaFacts.Facts.Function
import SsaFacts.Facts.Loops
import SsaFacts.Facts.Memory

/-! The facts that hold in every execution of a program. They speak of values that take one value per
run; all other values are described by facts that are stated on demand in a context. -/
namespace SsaFacts

structure Capture where
  /-- Integers and pointers that take one value per run, ascending; constants are not listed. -/
  fixed : List ValueId := []
  /-- Sorted, without repetitions. -/
  facts : List Clause := []

namespace Capture

/-- Constants, and values that take one value per run. -/
def isFixed (c : Capture) (p : Program) (v : ValueId) : Bool := p.isConstant v || c.fixed.contains v

def tag (c : Capture) (p : Program) (context : Context) (l : Leaf) : Leaf :=
  if c.isFixed p l.value then l else l.withContext context

/-- Sets the context of every leaf that is not fixed. The values have to exist. -/
def attachExpr (c : Capture) (p : Program) (context : Context) (e : Expr) : Checked Expr := do
  e.leaves.forM fun l => discard (p.value l.value)
  return e.mapLeaves (c.tag p context)

def attach (c : Capture) (p : Program) (context : Context) (f : Clause) : Checked Clause := do
  f.leaves.forM fun l => discard (p.value l.value)
  return f.mapLeaves (c.tag p context)

end Capture

namespace Subject
variable (s : Subject)

def runsOnce (x : Value) (v : ValueId) : Bool :=
  x.ty.isIntegerOrPointer && match x.kind with
    | .global .. => true
    | .param f _ => !s.survey.funcDead f && s.survey.funcOnce f
    | .inst .. => !s.survey.instDead v && s.survey.instOnce v
    | .const _ | .null | .function _ => false

def globals : List ValueId :=
  s.program.valueIds.filter fun v => s.program.values[v]?.any (·.kind.isGlobal)

/-- The values that take one value per run. A load of a global that nothing writes is one of them,
however often it runs. -/
def fixedValues : Checked (List ValueId) := do
  let loads ← s.globals.mapM fun g => return (← s.unwrittenLoads? g).getD []
  return s.program.valueIds.filter fun v =>
    s.program.values[v]?.any (s.runsOnce · v) || loads.flatten.contains v

def topLevelFacts (fixed : List ValueId) : Checked (List Clause) := do
  let defined ← fixed.filterMapM s.inUser
  let running := s.program.functionIds.filter (!s.survey.funcDead ·)
  let formals := running.flatMap fun f => (s.program.functions[f]?.map (·.params)).getD []
  let bound ← formals.filterMapM fun v => do
    if ← s.observed v then s.inArgument v else return none
  return defined ++ bound

def loadFacts (isFixed : ValueId → Bool) : Checked (List Clause) := do
  let loads ← s.program.instructions.filterM s.isObservedLoad
  let assigned ← loads.filterMapM (s.mustAssign isFixed)
  let shared ← s.globals.mapM s.inGlobal
  return assigned ++ shared.flatten

def onceEdgeFacts : Noted (List Clause) := do
  let funcs := s.program.functionIds.filter fun f =>
    !s.survey.funcDead f && s.survey.funcOnce f
  return (← funcs.mapM s.unreachableFacts).flatten

def libraryFacts (isFixed : ValueId → Bool) : Checked (List Clause) := do
  let insts := s.program.instructions
  let results ← insts.mapM s.inLibraryCall
  let extents ← insts.filterMapM (s.extent? isFixed)
  return results.flatten ++ (← extentFacts extents)

/-- Drops an element that equals the one before it. -/
def dropRepeats {α : Type} [DecidableEq α] : List α → List α
  | [] => []
  | [a] => [a]
  | a :: b :: rest => if a = b then dropRepeats (b :: rest) else a :: dropRepeats (b :: rest)

/-- The facts of a program. Disabled, it keeps none but still tells which values are fixed. -/
def capture (disable : Bool) : Noted Capture := do
  let fixed ← s.fixedValues
  let isFixed := ({ fixed : Capture } : Capture).isFixed s.program
  let top ← s.topLevelFacts fixed
  let loads ← s.loadFacts isFixed
  let edges ← s.onceEdgeFacts
  let library ← s.libraryFacts isFixed
  let sorted ← Clause.sort (top ++ loads ++ edges ++ library)
  return { fixed, facts := if disable then [] else dropRepeats sorted }

end Subject
end SsaFacts
