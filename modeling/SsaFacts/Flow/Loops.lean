import SsaFacts.Flow.Dominators

/-! Natural loops, their nesting, and the counting loops among them. -/
namespace SsaFacts

structure Loop where
  func : FuncId
  header : BlockId
  /-- In ascending order. -/
  blocks : List BlockId
  /-- 1 for an outermost loop. -/
  depth : Nat := 1
  parent : Option LoopId := none
  children : List LoopId := []
  /-- The header φ that starts at 0 and grows by 1 along the back edge. -/
  induction : Option ValueId := none
  /-- The invariant value that the induction variable counts up to. -/
  tripCount : Option ValueId := none

namespace Loop

def contains (l : Loop) (b : BlockId) : Bool := l.blocks.contains b

/-- The two edges into a header φ, the one from outside first. -/
def splitIncoming? (l : Loop) :
    List (BlockId × ValueId) → Option ((BlockId × ValueId) × (BlockId × ValueId))
  | [a, b] =>
    match l.contains a.1, l.contains b.1 with
    | false, true => some (a, b)
    | true, false => some (b, a)
    | _, _ => none
  | _ => none

end Loop

namespace LoopForest

/-- Edges of a function that lead back to a dominator, as pairs of header and latch. -/
def backEdges (p : Program) (g : FlowGraph) (d : Dominators) (reached : List BlockId) (f : FuncId) :
    List (BlockId × BlockId) :=
  (p.blocksOf f).flatMap fun b =>
    if reached.contains b then
      ((g.next b).filter fun s => d.dominates s b).map fun s => (s, b)
    else []

/-- The header and all that reaches one of its latches without passing it. -/
def body (g : FlowGraph) (edges : List (BlockId × BlockId)) (header : BlockId) : List BlockId :=
  let inside := (edges.filter (·.1 = header)).flatMap fun e => g.reachBack e.2 [header]
  (List.range g.size).filter fun b => b = header || inside.contains b

def discover (g : FlowGraph) (f : FuncId) (edges : List (BlockId × BlockId)) : List Loop :=
  let headers := (edges.map (·.1)).eraseDups
  let found := headers.map fun header => { func := f, header, blocks := body g edges header : Loop }
  found.mergeSort fun a b => b.blocks.length ≤ a.blocks.length

def smallest? (loops : Array Loop) (candidates : List Nat) : Option Nat :=
  let size (i : Nat) : Nat := (loops[i]?.map (·.blocks.length)).getD 0
  candidates.foldl (fun best i =>
    match best with
    | none => some i
    | some j => if size i < size j then some i else some j) none

def parentOf? (loops : Array Loop) (i : Nat) : Option Nat :=
  let blocks := (loops[i]?.map (·.blocks)).getD []
  smallest? loops ((List.range i).filter fun j =>
    loops[j]?.any fun outer => blocks.all outer.contains)

def nest (base : Nat) (found : List Loop) : List Loop :=
  let loops := found.toArray
  let parents := (List.range loops.size).map (parentOf? loops)
  let depths := parents.foldl (fun depths parent =>
    depths.push (match parent with
      | some j => depths.getD j 0 + 1
      | none => 1)) (#[] : Array Nat)
  found.zipIdx.map fun (l, i) =>
    { l with
      depth := depths.getD i 1
      parent := (parents[i]?.getD none).map (base + ·)
      children := ((List.range loops.size).filter fun k => parents[k]? = some (some i)).map (base + ·) }

def isIncrement (p : Program) (next v : ValueId) : Checked Bool := do
  match ← p.op? next with
  | some (.binary .add l r) =>
    if l = v then
      if (← p.const? r) = some 1 then return true
    if r = v then return (← p.const? l) = some 1
    return false
  | _ => return false

/-- The header φ that counts iterations from 0. -/
def induction? (p : Program) (l : Loop) : Checked (Option ValueId) := do
  (← p.phis l.header).findSomeM? fun (phi, incoming) => do
    match l.splitIncoming? incoming with
    | none => return none
    | some ((_, init), (_, next)) =>
      if (← p.const? init) = some 0 then
        if ← isIncrement p next phi then return some phi
      return none

/-- Whether taking the edge shows that `n` is positive: the edge is one side of a test. -/
def edgeShowsPositive (p : Program) (source dest : BlockId) (n : ValueId) : Checked Bool := do
  match (← p.block source).term with
  | .condBr cond ifTrue ifFalse =>
    if ifTrue = ifFalse then return false
    match ← p.op? cond with
    | some (.icmp pred a b) =>
      let atLeast (v : ValueId) (k : Int) : Checked Bool := do
        return (← p.const? v).any (k ≤ ·)
      match if ifTrue = dest then pred else pred.negated with
      | .sgt => if a = n then atLeast b 0 else return false
      | .sge => if a = n then atLeast b 1 else return false
      | .slt => if b = n then atLeast a 0 else return false
      | .sle => if b = n then atLeast a 1 else return false
      | _ => return false
    | _ => return false
  | _ => return false

/-- Whether an edge into the only predecessor's successor shows it, going up the dominators. -/
def dominatorShowsPositive (p : Program) (g : FlowGraph) (d : Dominators) (n : ValueId) :
    Nat → BlockId → Checked Bool
  | 0, _ => return false
  | steps + 1, b => do
    match d.idom? b with
    | none => return false
    | some up =>
      if g.prev b = [up] then
        if ← edgeShowsPositive p up b n then return true
      dominatorShowsPositive p g d n steps up

def positiveOnEntry (p : Program) (g : FlowGraph) (d : Dominators) (outside header : BlockId)
    (n : ValueId) : Checked Bool := do
  if (← p.const? n).any (0 < ·) then return true
  if ← edgeShowsPositive p outside header n then return true
  dominatorShowsPositive p g d n g.size outside

/-- The value `n` such that the latch leaves the loop exactly when the next value of the induction
variable reaches `n`, which has to be invariant and positive on entry: the body of a loop that is
tested at the bottom runs once even for `n ≤ 0`. -/
def tripCount? (p : Program) (g : FlowGraph) (d : Dominators) (l : Loop) (v : ValueId) :
    Checked (Option ValueId) := do
  let some (.phi incoming) ← p.op? v | return none
  let some ((preheader, _), (latch, next)) := l.splitIncoming? incoming | return none
  let .condBr cond ifTrue ifFalse := (← p.block latch).term | return none
  let some (.icmp pred a b) ← p.op? cond | return none
  let some n := (if a = next then some b else if b = next then some a else none) | return none
  let invariant := !(← p.blockOf? n).any l.contains
  let exitsAtN := match pred with
    | .ne => ifTrue = l.header
    | .eq => ifFalse = l.header
    | _ => false
  if invariant && exitsAtN then
    if ← positiveOnEntry p g d preheader l.header n then return some n
  return none

def ofFunction (p : Program) (g : FlowGraph) (d : Dominators) (reached : List BlockId) (base : Nat)
    (f : FuncId) : Checked (List Loop) :=
  (nest base (discover g f (backEdges p g d reached f))).mapM fun l => do
    match ← induction? p l with
    | none => return l
    | some v => return { l with induction := some v, tripCount := ← tripCount? p g d l v }

end LoopForest

/-- All loops of a program. A parent is numbered before its children. -/
structure LoopForest where
  loops : Array Loop

namespace LoopForest

def ofProgram (p : Program) (g : FlowGraph) (d : Dominators) (reached : List BlockId) :
    Checked LoopForest := do
  let loops ← p.functionIds.foldlM (fun loops f => do
    return loops ++ (← ofFunction p g d reached loops.size f).toArray) #[]
  return { loops }

def top (forest : LoopForest) (f : FuncId) : List LoopId :=
  (List.range forest.loops.size).filter fun i =>
    forest.loops[i]?.any fun l => l.func = f && l.parent.isNone

/-- The first of the deepest loops around a block. -/
def innermost? (forest : LoopForest) (b : BlockId) : Option LoopId :=
  let depth (i : LoopId) : Nat := (forest.loops[i]?.map (·.depth)).getD 0
  (List.range forest.loops.size).foldl (fun best i =>
    if forest.loops[i]?.any (·.contains b) then
      match best with
      | none => some i
      | some j => if depth j < depth i then some i else some j
    else best) none

end LoopForest
end SsaFacts
