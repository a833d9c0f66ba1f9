import SsaFacts.Flow.Graph

/-! Dominance. A block dominates another if every way from the function's entry to the other passes it.
Immediate dominators form a tree. It is found by rounds over the blocks in reverse postorder: each block is
hung where the ways up from its predecessors meet, until a round changes nothing. -/
namespace SsaFacts

structure Dominators where
  table : Array (Option BlockId)

namespace Dominators

def meet (rpo : List BlockId) (up : BlockId → Option BlockId) : Nat → BlockId → BlockId → BlockId
  | 0, a, _ => a
  | steps + 1, a, b =>
    if a = b then a
    else if rpo.idxOf b < rpo.idxOf a then meet rpo up steps ((up a).getD a) b
    else meet rpo up steps a ((up b).getD b)

def join? (g : FlowGraph) (rpo : List BlockId) (up : BlockId → Option BlockId) (b : BlockId) :
    Option BlockId :=
  match (g.prev b).filter fun a => (up a).isSome with
  | [] => none
  | a :: rest => some (rest.foldl (fun d c => meet rpo up (2 * rpo.length) c d) a)

def improve (g : FlowGraph) (rpo : List BlockId) (tree : Array (Option BlockId)) (b : BlockId) :
    Array (Option BlockId) :=
  match join? g rpo (tree.getD · none) b with
  | none => tree
  | some d => tree.setIfInBounds b (some d)

def round (g : FlowGraph) (rpo : List BlockId) (tree : Array (Option BlockId)) :
    Array (Option BlockId) :=
  rpo.tail.foldl (improve g rpo) tree

def settle (g : FlowGraph) (rpo : List BlockId) : Nat → Array (Option BlockId) → Array (Option BlockId)
  | 0, tree => tree
  | steps + 1, tree =>
    let improved := round g rpo tree
    if improved = tree then tree else settle g rpo steps improved

/-- The tree before the first round. The entry is above itself. -/
def seed (g : FlowGraph) (entry : BlockId) : Array (Option BlockId) :=
  (Array.replicate g.size none).setIfInBounds entry (some entry)

/-- The tree of what is reached from an entry. A block is only ever hung higher, which bounds the rounds. -/
def treeOf (g : FlowGraph) (entry : BlockId) : Array (Option BlockId) :=
  let rpo := g.reversePostorder entry
  settle g rpo (rpo.length * rpo.length) (seed g entry)

/-- Immediate dominators of all blocks. Entries and blocks that are not reached have none. A block
reached from several entries takes that of the last function. -/
def ofProgram (p : Program) (g : FlowGraph) : Dominators :=
  let entries := p.functions.toList.filterMap Function.entryBlock?
  { table := entries.foldl record (Array.replicate g.size none) }
where
  record (table : Array (Option BlockId)) (entry : BlockId) : Array (Option BlockId) :=
    let tree := treeOf g entry
    (g.reversePostorder entry).tail.foldl
      (fun table b => table.setIfInBounds b (tree.getD b none)) table

def idom? (d : Dominators) (b : BlockId) : Option BlockId := d.table.getD b none

def above (idom : BlockId → Option BlockId) (a : BlockId) : Nat → BlockId → Bool
  | 0, b => b = a
  | steps + 1, b =>
    if b = a then true
    else match idom b with
      | none => false
      | some up => above idom a steps up

/-- Whether `a` dominates `b`. No chain is longer than the table. -/
def dominates (d : Dominators) (a b : BlockId) : Bool := above d.idom? a d.table.size b

end Dominators
end SsaFacts
