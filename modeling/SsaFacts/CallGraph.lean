import SsaFacts.Flow.Reach
import SsaFacts.Program.Basic

/-! Calls of defined functions, thread starts included. -/
namespace SsaFacts

structure CallGraph where
  /-- The function that each call starts, by value. -/
  targets : Array (Option FuncId)

namespace CallGraph

/-- The defined function that a call or a thread start runs. -/
def target? (p : Program) (inst : ValueId) : Checked (Option FuncId) := do
  let named ← match ← p.spawned? inst with
    | some f => pure (some f)
    | none => p.callTarget? inst
  match named with
  | none => return none
  | some f => return if (← p.function f).isDeclaration then none else some f

def ofProgram (p : Program) : Checked CallGraph := do
  let found ← p.instructions.mapM fun i => return (i, ← target? p i)
  let targets := found.foldl (fun table (i, t) => table.setIfInBounds i t)
    (Array.replicate p.values.size none)
  return { targets }

def target (g : CallGraph) (inst : ValueId) : Option FuncId := g.targets.getD inst none

def callees (g : CallGraph) (call : ValueId) : List FuncId := (g.target call).toList

def sites (g : CallGraph) (p : Program) (f : FuncId) : List ValueId :=
  p.instructions.filter fun i => g.target i = some f

def calledBy (g : CallGraph) (p : Program) (f : FuncId) : List FuncId :=
  (p.bodyOf f).filterMap g.target

/-- Functions reached from `roots` by calls, the roots included. -/
def reachable (g : CallGraph) (p : Program) (roots : List FuncId) : List FuncId :=
  closure (g.calledBy p) p.functionIds roots

def isRecursive (g : CallGraph) (p : Program) (f : FuncId) : Bool :=
  (g.reachable p (g.calledBy p f)).contains f

end CallGraph
end SsaFacts
