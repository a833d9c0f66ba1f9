import SsaFacts.Capture

/-! Facts stated on demand. A question about a value that may run more than once needs the facts of its
function, of the loops and branches above it and of the calls that lead to it, all in the context of
the question. Four tables tell what was dealt with in which context, so that nothing is stated twice and
calls that lead in a circle are followed once. -/
namespace SsaFacts

/-- The facts stated so far, in order, and what they were stated for. -/
structure Coverage where
  funcs : List (FuncId × Context) := []
  loops : List (LoopId × Context) := []
  blocks : List (BlockId × Context) := []
  facts : List Clause := []

structure Realizer extends Coverage where
  insts : List (ValueId × Context) := []

namespace Subject
variable (s : Subject)

def place? (v : ValueId) : Option (BlockId × FuncId) := do
  let b ← (s.program.kind? v).bind Kind.block?
  let x ← s.program.blocks[b]?
  return (b, x.func)

def owner? (v : ValueId) : Option FuncId :=
  match s.program.kind? v with
  | some (.param f _) => some f
  | _ => (s.place? v).map (·.2)

/-! ### The facts of one kind -/

/-- The dominators of a block with the block below each, going up to the entry of its function. -/
def dominatorSteps (entry : Option BlockId) : Nat → BlockId → List (BlockId × BlockId)
  | 0, _ => []
  | steps + 1, b =>
    if some b = entry then []
    else match s.survey.idom? b with
      | none => []
      | some up => (up, b) :: dominatorSteps entry steps up

def entryOf (b : BlockId) : Option BlockId :=
  (s.program.blocks[b]?.bind (s.program.functions[·.func]?)).bind Function.entryBlock?

/-- Edges of a dominator that cannot lead to `below` without passing the dominator again. -/
def edgesAside (up below : BlockId) : Noted (List Clause) := do
  let back := s.survey.graph.reachBack below [up]
  let edges := (← s.program.block up).term.successors.zipIdx.filter fun e => !back.contains e.1
  edges.filterMapM fun e => s.excludeEdge up e.2

def branchFacts (b : BlockId) : Noted (List Clause) := do
  let steps := s.dominatorSteps (s.entryOf b) s.survey.graph.size b
  return (← steps.mapM fun (up, below) => s.edgesAside up below).flatten

/-- A φ with one incoming edge, which comes from a deeper loop, has the value that comes in. -/
def exitFact? (b : BlockId) (phi : ValueId) (incoming : List (BlockId × ValueId)) :
    Checked (Option Clause) := do
  let [(source, value)] := incoming | return none
  if s.survey.entersShallow source b then return none
  if ← s.allObserved [phi, value] then return some (← s.equal phi value)
  return none

def exitFacts (b : BlockId) : Checked (List Clause) := do
  let entry := s.entryOf b
  let steps := s.dominatorSteps entry s.survey.graph.size b
  let blocks := (b :: steps.map (·.1)).filter fun x => some x ≠ entry
  let facts ← blocks.mapM fun x => do
    (← s.program.phis x).filterMapM fun (phi, incoming) => s.exitFact? x phi incoming
  return facts.flatten

/-- The arguments that a call binds to the parameters of a function. One that does not match the
function's parameters in number is remarked on. -/
def bindingFacts (site : ValueId) (callee : FuncId) : Noted (List Clause) := do
  let f ← s.program.function callee
  let spawns := (← s.program.spawned? site).isSome
  if !spawns && (← s.program.callArgs site).length ≠ f.params.length then
    note (.signatureMismatch site f.name)
    return []
  f.params.zipIdx.filterMapM fun (formal, index) => (do
    match ← s.program.actual? site index with
    | none => return none
    | some actual =>
      if (← s.program.width actual) ≠ (← s.program.width formal) then return none
      if !(← s.observed formal) then return none
      return some (← s.equal actual formal) : Checked (Option Clause))

/-! ### Stating them once -/

def cover (c : Capture) (context : Context) (facts : List Clause) (r : Coverage) : Coverage :=
  { r with facts := r.facts ++ facts.map (Clause.mapLeaves (c.tag s.program context)) }

/-- The facts of a function outside its loops. Those of a function that runs once are known already. -/
def realizeFunction (c : Capture) (f : FuncId) (context : Context) (r : Coverage) : Noted Coverage := do
  if s.survey.funcOnce f || r.funcs.contains (f, context) then return r
  let facts ← s.inFunction f
  return s.cover c context facts { r with funcs := (f, context) :: r.funcs }

def loopsAbove (f : FuncId) (b : BlockId) : List LoopId :=
  (s.survey.loopsTopDown f).filter fun l => s.survey.loops[l]?.any fun x => s.survey.dominates x.header b

def realizeLoop (c : Capture) (context : Context) (r : Coverage) (l : LoopId) : Noted Coverage := do
  if r.loops.contains (l, context) then return r
  let facts ← s.inLoop (← s.survey.loop l)
  return s.cover c context facts { r with loops := (l, context) :: r.loops }

def realizeBlock (c : Capture) (f : FuncId) (b : BlockId) (context : Context) (r : Coverage) : Noted Coverage := do
  if r.blocks.contains (b, context) then return r
  let r ← (s.loopsAbove f b).foldlM (s.realizeLoop c context) { r with blocks := (b, context) :: r.blocks }
  let r := s.cover c context (← s.branchFacts b) r
  return s.cover c context (← s.exitFacts b) r

def unasked (context : Context) (insts : List (ValueId × Context)) : List ValueId :=
  s.program.valueIds.filter fun v => !insts.contains (v, context)

theorem length_unasked_lt {inst : ValueId} {context : Context} {insts : List (ValueId × Context)}
    (new : (inst, context) ∉ insts) (placed : s.place? inst ≠ none) :
    (s.unasked context ((inst, context) :: insts)).length < (s.unasked context insts).length := by
  have exists_value : inst ∈ s.program.valueIds := by
    refine List.mem_range.2 (Nat.lt_of_not_le fun outside => placed ?_)
    simp [place?, Program.kind?, outside]
  have fewer : s.unasked context ((inst, context) :: insts) = (s.unasked context insts).filter (decide <| · ≠ inst) := by
    rw [unasked, unasked, List.filter_filter]
    refine List.filter_congr fun v _ => ?_
    simp
  rw [fewer]
  refine List.length_filter_lt_length_iff_exists.2 ⟨inst, ?_, by simp⟩
  exact List.mem_filter.2 ⟨exists_value, by simp [new]⟩

/-- What a question about an instruction needs: the facts of its function, all that the only call needs that
starts the function, and what lies above its block. -/
def realizeInstruction (c : Capture) (inst : ValueId) (context : Context) (r : Realizer) : Noted Realizer :=
  if _new : r.insts.contains (inst, context) then return r
  else
    let insts := (inst, context) :: r.insts
    match _placed : s.place? inst with
    | none => return { r with insts }
    | some (b, f) => do
      let covered ← s.realizeFunction c f context r.toCoverage
      let caller : Noted Realizer := match s.survey.callSites f with
        | [site] => realizeInstruction c site context { covered with insts }
        | _ => pure { covered with insts }
      let r ← caller
      return { r with toCoverage := ← s.realizeBlock c f b context r.toCoverage }
termination_by (s.unasked context r.insts).length
decreasing_by exact s.length_unasked_lt (by simpa using _new) (by simp [_placed])

def realizeSite (c : Capture) (context : Context) (r : Realizer) (inst : ValueId) : Noted Realizer := do
  let _ ← s.program.kind inst
  s.realizeInstruction c inst context r

/-- Without a call stack, a parameter that is not fixed takes one of its arguments. -/
def realizeParameter (c : Capture) (v : ValueId) (context : Context) (r : Realizer) : Noted Realizer := do
  let .param .. ← s.program.kind v | return r
  if c.isFixed s.program v || r.insts.contains (v, context) then return r
  let binding ← s.inArgument v
  return { s.cover c context binding.toList r.toCoverage with insts := (v, context) :: r.insts }

/-- A call of the stack binds the parameters of the function that holds the next one. -/
def realizeCall (c : Capture) (context : Context) (r : Realizer) : ValueId × ValueId → Noted Realizer
  | (site, next) =>
    match s.owner? next with
    | none => return r
    | some f => return { r with toCoverage := s.cover c context (← s.bindingFacts site f) r.toCoverage }

def realizeCallstack (c : Capture) (stack : List ValueId) (v : ValueId) (context : Context) (r : Realizer) :
    Noted Realizer := do
  let own : Noted Realizer := match ← s.program.kind v with
    | .inst .. => s.realizeInstruction c v context r
    | _ => if stack.isEmpty then s.realizeParameter c v context r else pure r
  let r ← stack.foldlM (s.realizeSite c context) (← own)
  (stack.zip (stack.tail ++ [v])).foldlM (s.realizeCall c context) r

/-- What a leaf needs. A previous iteration is only spoken of by facts of loops. -/
def realizeLeaf (c : Capture) (r : Realizer) (l : Leaf) : Noted Realizer :=
  match l.ref with
  | .result v stack => s.realizeCallstack c stack v l.context r
  | .operand site _ => s.realizeSite c l.context r site.user
  | .previous _ => return r

def realizeLeaves (c : Capture) (ls : List Leaf) : Noted (List Clause) := do
  return (← ls.foldlM (s.realizeLeaf c) {}).facts

def realize (c : Capture) (q : Clause) : Noted (List Clause) := s.realizeLeaves c q.leaves

end Subject
end SsaFacts
