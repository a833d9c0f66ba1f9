import SsaFacts.CallGraph
import SsaFacts.Flow.Loops

/-! How often functions and instructions run. -/
namespace SsaFacts

def FlowGraph.reached (g : FlowGraph) (p : Program) : List BlockId :=
  let entries := p.functions.toList.filterMap Function.entryBlock?
  closure g.next (List.range g.size) entries

structure Execution.Setting where
  program : Program
  calls : CallGraph
  /-- Whether control can come to a block. -/
  runs : BlockId → Bool
  inLoop : BlockId → Bool
  /-- Functions reached from the program's entry by calls. -/
  reached : List FuncId

structure Execution where
  funcOnce : List FuncId
  funcReached : List FuncId
  instOnce : List ValueId
  instDead : List ValueId

namespace Execution

/-- A function runs at most once if its only call does: the call is not in a loop, its caller runs at
most once, and the function does not call itself. -/
def runsOnce (s : Setting) (once : List FuncId) (f : FuncId) : Checked Bool := do
  if !s.reached.contains f then return false
  let [site] := s.calls.sites s.program f | return false
  let some b ← s.program.blockOf? site | return false
  let caller := (← s.program.block b).func
  return once.contains caller && s.runs b && !s.inLoop b && !s.calls.isRecursive s.program f

def extend (s : Setting) (once : List FuncId) : Checked (List FuncId) :=
  s.program.functionIds.foldlM (fun once f => do
    if once.contains f then return once
    return if ← runsOnce s once f then f :: once else once) once

def saturate (s : Setting) : Nat → List FuncId → Checked (List FuncId)
  | 0, once => return once
  | rounds + 1, once => do saturate s rounds (← extend s once)

/-- The functions that run at most once; every round but the last adds one. -/
def onceFunctions (s : Setting) : Checked (List FuncId) :=
  saturate s s.program.functions.size s.program.entryFunction?.toList

def ofSetting (s : Setting) : Checked Execution := do
  let once ← onceFunctions s
  let placed := s.program.functionIds.flatMap fun f =>
    (s.program.blocksOf f).flatMap fun b => (s.program.instsOf b).map fun i => (f, b, i)
  let dead (f : FuncId) (b : BlockId) : Bool := !s.reached.contains f || !s.runs b
  return {
    funcOnce := once
    funcReached := s.reached
    instOnce := placed.filterMap fun (f, b, i) =>
      if !dead f b && once.contains f && !s.inLoop b then some i else none
    instDead := placed.filterMap fun (f, b, i) => if dead f b then some i else none }

end Execution
end SsaFacts
