import SsaFacts.Facts.Subject
import SsaFacts.Notice

/-! Facts about edges that are not taken, and equalities asserted by marker calls. -/
namespace SsaFacts
namespace Subject
variable (s : Subject)

/-- The condition under which a block does not take its edge `i`. -/
def avoidBranch (b : BlockId) (i : Nat) : Checked (Option Clause) := do
  match (← s.program.block b).term with
  | .condBr cond _ _ =>
    if !(← s.observed cond) then return none
    if (← s.program.width cond) ≠ boolWidth then return none
    match i with
    | 0 => return some (← Clause.equal (← s.program.leaf cond) (.literal (.bool false)))
    | 1 => return some (← Clause.equal (← s.program.leaf cond) (.literal (.bool true)))
    | _ => return none
  | .switch cond _ cases =>
    if !(← s.observed cond) then return none
    match i with
    | 0 => return Clause.any (← cases.mapM fun c => s.equal cond c.1)
    | k + 1 =>
      match cases[k]? with
      | none => return none
      | some (value, _) =>
        return some (← Clause.compare .ne (← s.program.leaf cond) (← s.program.leaf value))
  | _ => return none

/-- The same, with a remark on edges of indirect branches, which cannot be excluded. -/
def excludeEdge (b : BlockId) (i : Nat) : Noted (Option Clause) := do
  if let .indirectBr .. := (← s.program.block b).term then note (.edgeKept i b)
  s.avoidBranch b i

def excludeEdges (b : BlockId) : Noted (List (Option Clause)) := do
  (List.range (← s.program.block b).term.successors.length).mapM (s.excludeEdge b)

/-- Whether every way from the entry to a return passes a block, ways into marked blocks aside. -/
def postDominatesEntry (entry b : BlockId) (blocks : List BlockId) : Bool :=
  let sink := b :: blocks.filter s.survey.marked
  !(s.survey.graph.reach entry sink).any fun x =>
    match s.program.blocks[x]? with
    | some block => block.term.isReturn
    | none => false

/-- For each block that every run of the function passes, the exclusion of its edges into marked
blocks. -/
def edgeExclusions (f : FuncId) : Noted (List Clause) := do
  let some entry := (← s.program.function f).entryBlock? | return []
  let blocks := s.program.blocksOf f
  let facts ← blocks.mapM fun b => do
    let succs := (← s.program.block b).term.successors
    if 1 < succs.length && s.postDominatesEntry entry b blocks then
      let edges := succs.zipIdx.filter fun e => s.survey.marked e.1
      edges.filterMapM fun e => s.excludeEdge b e.2
    else return []
  return facts.flatten

/-- The two operands of a marker call. One that does not have two of equal width is remarked on. -/
def marker? (inst : ValueId) : Noted (Option (ValueId × ValueId)) := do
  let some name ← s.program.calleeName? inst | return none
  if !name.startsWith Routine.equalityMarker then return none
  match ← s.program.callArgs inst with
  | [a, b] =>
    if (← s.program.width a) = (← s.program.width b) then return some (a, b)
    note (.malformedMarker inst)
    return none
  | _ =>
    note (.malformedMarker inst)
    return none

def markerFacts (f : FuncId) : Noted (List Clause) :=
  (s.program.bodyOf f).filterMapM fun i => do
    match ← s.marker? i with
    | none => return none
    | some (a, b) => return some (← s.equal a b)

def unreachableFacts (f : FuncId) : Noted (List Clause) :=
  return (← s.edgeExclusions f) ++ (← s.markerFacts f)

end Subject
end SsaFacts
