import SsaFacts.Execution
import SsaFacts.Memory

/-! What is known of a program's flow, calls and memory. Facts are drawn from a survey and never from
the analyses behind it, so that a caller may hand in sharper answers. -/
namespace SsaFacts

structure Survey where
  graph : FlowGraph
  loops : Array Loop
  /-- Outermost loops of a function. -/
  topLoops : FuncId → List LoopId
  /-- Innermost loop around a block. -/
  innermost? : BlockId → Option LoopId
  idom? : BlockId → Option BlockId
  /-- Calls and thread starts that may run a function. -/
  callSites : FuncId → List ValueId
  callees : ValueId → List FuncId
  funcOnce : FuncId → Bool
  /-- The function never runs. -/
  funcDead : FuncId → Bool
  instOnce : ValueId → Bool
  /-- The instruction never runs. -/
  instDead : ValueId → Bool
  mustAlias : ValueId → ValueId → Checked Bool
  mayWrite : ValueId → ValueId → Checked Bool
  /-- Blocks known never to be entered. -/
  marked : BlockId → Bool

namespace Survey

/-- The survey of a program in which the blocks of `marked` are known never to be entered. -/
def ofProgram (p : Program) (marked : List BlockId) : Checked Survey := do
  let graph ← FlowGraph.ofProgram p
  let doms := Dominators.ofProgram p graph
  let reached := graph.reached p
  let forest ← LoopForest.ofProgram p graph doms reached
  let innermost := (p.blockIds.map forest.innermost?).toArray
  let calls ← CallGraph.ofProgram p
  let roots := p.entryFunction?.toList
  for f in roots do discard (p.function f)
  let execution ← Execution.ofSetting {
    program := p
    calls
    runs := fun b => reached.contains b && !marked.contains b
    inLoop := fun b => (innermost.getD b none).isSome
    reached := calls.reachable p roots }
  let memory ← Memory.ofProgram p calls
  let sites := (p.functionIds.map (calls.sites p)).toArray
  let top := (p.functionIds.map forest.top).toArray
  return {
    graph
    loops := forest.loops
    topLoops := fun f => top.getD f []
    innermost? := fun b => innermost.getD b none
    idom? := doms.idom?
    callSites := fun f => sites.getD f []
    callees := calls.callees
    funcOnce := execution.funcOnce.contains
    funcDead := fun f => !execution.funcReached.contains f
    instOnce := execution.instOnce.contains
    instDead := execution.instDead.contains
    mustAlias := memory.mustAlias
    mayWrite := memory.mayWrite calls
    marked := marked.contains }

variable (s : Survey)

def loop (l : LoopId) : Checked Loop :=
  match s.loops[l]? with
  | some x => .ok x
  | none => .error (.unknownLoop l)

def loopDepth (b : BlockId) : Nat :=
  match (s.innermost? b).bind (s.loops[·]?) with
  | some l => l.depth
  | none => 0

def headed? (b : BlockId) : Option Loop :=
  ((s.innermost? b).bind (s.loops[·]?)).filter (·.header = b)

def preorder : Nat → List LoopId → List LoopId
  | 0, _ | _, [] => []
  | steps + 1, l :: rest =>
    l :: preorder steps (((s.loops[l]?.map (·.children)).getD []) ++ rest)

/-- The loops of a function, outer loops before the loops they contain. -/
def loopsTopDown (f : FuncId) : List LoopId := s.preorder s.loops.size (s.topLoops f)

def dominates (a b : BlockId) : Bool := Dominators.above s.idom? a s.graph.size b

/-- Whether an edge neither leaves a deeper loop nor is a back edge of the loop it leads into. -/
def entersShallow (source dest : BlockId) : Bool :=
  if s.loopDepth source ≠ s.loopDepth dest then s.loopDepth source < s.loopDepth dest
  else match s.headed? dest with
    | some l => !l.contains source
    | none => true

end Survey
end SsaFacts
