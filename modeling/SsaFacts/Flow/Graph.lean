import SsaFacts.Flow.Reach
import SsaFacts.Program.Basic

/-! The control-flow graph of a program. -/
namespace SsaFacts

structure FlowGraph where
  succs : Array (List BlockId)
  preds : Array (List BlockId)

namespace FlowGraph
variable (g : FlowGraph)

def size : Nat := g.succs.size

def next (b : BlockId) : List BlockId := g.succs.getD b []

def prev (b : BlockId) : List BlockId := g.preds.getD b []

/-- The graph of all terminators. An edge to a block that does not exist is a fault. -/
def ofProgram (p : Program) : Checked FlowGraph := do
  let succs := p.blocks.map fun b => b.term.successors.eraseDups
  for s in succs.toList.flatten do discard (p.block s)
  let preds := p.blockIds.map fun b => p.blockIds.filter fun a => (succs.getD a []).contains b
  return { succs, preds := preds.toArray }

def outside (sink : List BlockId) : List BlockId := (List.range g.size).filter (!sink.contains ·)

/-- Blocks reached from `start` along edges, never entering `sink`. -/
def reach (start : BlockId) (sink : List BlockId) : List BlockId :=
  if (g.outside sink).contains start then flood g.next (g.outside sink) [start] [start] else []

def reachBack (dest : BlockId) (sink : List BlockId) : List BlockId :=
  if (g.outside sink).contains dest then flood g.prev (g.outside sink) [dest] [dest] else []

/-- Blocks reached from `start` in reverse postorder: `start` comes first. -/
def reversePostorder (start : BlockId) : List BlockId :=
  depthFirst g.next ((List.range g.size).erase start) [(start, g.next start)] []

/-- The blocks reached from a block that may not exist, which is a fault unless it is in `sink`. -/
def reachFrom (start : BlockId) (sink : List BlockId) : Checked (List BlockId) :=
  if start < g.size || sink.contains start then .ok (g.reach start sink)
  else .error (.unknownBlock start)

def reachTo (dest : BlockId) (sink : List BlockId) : Checked (List BlockId) :=
  if dest < g.size || sink.contains dest then .ok (g.reachBack dest sink)
  else .error (.unknownBlock dest)

end FlowGraph
end SsaFacts
