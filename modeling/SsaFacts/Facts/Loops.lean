import SsaFacts.Facts.Instruction

/-! Facts about the iterations of a loop. -/
namespace SsaFacts
namespace Subject
variable (s : Subject)

def ownBlock (l : Loop) (b : BlockId) : Bool :=
  l.contains b && s.survey.loopDepth b = l.depth

def inLoopBody (l : Loop) : Checked (List Clause) := do
  let insts := (l.blocks.filter fun b => s.survey.loopDepth b = l.depth).flatMap s.program.instsOf
  insts.filterMapM fun i => do
    if ← s.observed i then s.inUser i else return none

/-- A leaf read one iteration earlier, if it is the result of an instruction of the loop's own. -/
def earlierLeaf (l : Loop) (x : Leaf) : Leaf :=
  match x.ref with
  | .result v _ =>
    match (s.program.kind? v).bind Kind.block? with
    | some b => if s.ownBlock l b then { x with ref := .previous v } else x
    | none => x
  | _ => x

def earlier (l : Loop) (c : Clause) : Clause := c.mapLeaves (s.earlierLeaf l)

def previous (v : ValueId) : Checked Expr := return .previous v (← s.program.width v) 0

/-- The induction variable lies between 0 and the trip count. -/
def closedBound (iv trip : ValueId) : Checked (List Clause) := do
  let i ← s.program.leaf iv
  let low ← Clause.compare .sge i (.ofInt wordWidth 0)
  let high ← Clause.compare .slt i (← s.program.leaf trip)
  return [low, high]

/-- Where there is no trip count, this iteration is tied to the one before: the body facts held then,
the induction variable was one less, and if this is not the first iteration the back edge was taken. -/
def recurrentBound (l : Loop) (iv cond : ValueId) (ifTrue : BlockId) : Checked (List Clause) := do
  let i ← s.program.leaf iv
  let zero := Expr.ofInt wordWidth 0
  let body := (← s.inLoopBody l).map (s.earlier l)
  let less ← Expr.combine .sub i (.ofInt wordWidth 1)
  let step ← Clause.equal (← s.previous iv) less
  let taken ← Clause.equal (← s.previous cond) (.literal (.bool (ifTrue = l.header)))
  let first ← Clause.equal i zero
  let later ← Clause.compare .sgt i zero
  return body ++ [step, .or first (.and later taken)]

def loopBound (l : Loop) : Checked (Option (List Clause)) := do
  let some iv := l.induction | return none
  let some (.phi incoming) ← s.program.op? iv | return none
  if incoming.length ≠ 2 then return none
  match l.tripCount with
  | some trip => return some (← s.closedBound iv trip)
  | none =>
    let some (_, (latch, _)) := l.splitIncoming? incoming | return none
    let .condBr cond ifTrue _ := (← s.program.block latch).term | return none
    return some (← s.recurrentBound l iv cond ifTrue)

/-- Bound and body facts of a loop; none without a bound, since the body facts alone do not say which
iteration is meant. -/
def inLoop (l : Loop) : Checked (List Clause) := do
  match ← s.loopBound l with
  | none => return []
  | some bound => return bound ++ (← s.inLoopBody l)

end Subject
end SsaFacts
