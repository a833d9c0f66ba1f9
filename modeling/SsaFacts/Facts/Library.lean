import SsaFacts.Facts.Subject

/-! Facts about calls of library routines, and the blocks that allocations return. -/
namespace SsaFacts
namespace Subject
variable (s : Subject)

/-- Where a call to a known routine has a length argument, the result is at most a length that is not
negative. -/
def lengthFact? (call len : ValueId) : Checked (Option Clause) := do
  match ← s.wordArg? len with
  | none => return none
  | some n =>
    let negative ← Clause.compare .slt n (.ofInt wordWidth 0)
    let bounded ← Clause.compare .sle (← s.program.leaf call) n
    return some (.or negative bounded)

def inLibraryCall (call : ValueId) : Checked (List Clause) := do
  match (← s.program.calleeName? call).bind Routine.summary? with
  | none => return []
  | some summary =>
    if !(← s.observed call) then return []
    if (← s.program.width call) ≠ wordWidth then return []
    let least ← Clause.compare .sge (← s.program.leaf call) (.ofInt wordWidth summary.least)
    let args ← s.program.callArgs call
    match summary.lengthArg.bind (args[·]?) with
    | none => return [least]
    | some len => return least :: (← s.lengthFact? call len).toList

structure Extent where
  start : Expr
  size : Expr

def allocated? (inst : ValueId) : Checked (Option Expr) := do
  if let some (.alloca bytes) ← s.program.op? inst then return some (.ofInt wordWidth bytes)
  match ← s.program.calleeName? inst, ← s.program.callArgs inst with
  | some "malloc", [size] | some "valloc", [size] => s.wordArg? size
  | some "calloc", [count, size] =>
    match ← s.wordArg? count with
    | none => return none
    | some n =>
      match ← s.wordArg? size with
      | none => return none
      | some m => return some (← Expr.combine .mul n m)
  | _, _ => return none

def extent? (isFixed : ValueId → Bool) (inst : ValueId) : Checked (Option Extent) := do
  if !isFixed inst then return none
  if !(← s.observed inst) then return none
  match ← s.allocated? inst with
  | none => return none
  | some size => return some { start := ← s.program.leaf inst, size }

/-- A block ends within the range of words. -/
def Extent.inRange (x : Extent) : Checked Clause := do
  Clause.compare .sle x.start (← Expr.combine .sub (.ofInt wordWidth wordMax) x.size)

def Extent.below (x y : Extent) : Checked Clause := do
  Clause.compare .sle (← Expr.combine .add x.start x.size) y.start

/-- Blocks end in range, and each lies below the next one. -/
def extentFacts (xs : List Extent) : Checked (List Clause) := do
  let ranges ← xs.mapM Extent.inRange
  let orders ← (xs.zip xs.tail).mapM fun (x, y) => x.below y
  return ranges ++ orders

end Subject
end SsaFacts
