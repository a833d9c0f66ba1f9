import SsaFacts.Facts.Subject

/-! Facts about loads: the last access before a load, and globals that nothing writes. -/
namespace SsaFacts
namespace Subject
variable (s : Subject)

/-- The value that an access leaves at the location of `q`: what a store stores, or the result of a
load. -/
def accessValue? (q inst : ValueId) : Checked (Option ValueId) := do
  match ← s.program.op? inst with
  | some (.store value ptr) => return if ← s.survey.mustAlias ptr q then some value else none
  | some (.load ptr) => return if ← s.survey.mustAlias ptr q then some inst else none
  | _ => return none

def lastAccess? (q : ValueId) (insts : List ValueId) : Checked (Option (ValueId × ValueId)) :=
  insts.reverse.findSomeM? fun i => return (← s.accessValue? q i).map fun v => (i, v)

def accessAbove? (q : ValueId) : Nat → BlockId → Checked (Option (ValueId × ValueId))
  | 0, _ => return none
  | steps + 1, b => do
    match s.survey.idom? b with
    | none => return none
    | some up =>
      match ← s.lastAccess? q (s.program.instsOf up) with
      | some found => return some found
      | none => accessAbove? q steps up

def before (b : BlockId) (inst : ValueId) : List ValueId :=
  (s.program.instsOf b).takeWhile (· ≠ inst)

def after (b : BlockId) (inst : ValueId) : List ValueId :=
  ((s.program.instsOf b).dropWhile (· ≠ inst)).drop 1

/-- The nearest access to the location of `q` before `load`, in its block or a dominator of it. -/
def source? (load q : ValueId) : Checked (Option (ValueId × ValueId)) := do
  let some b ← s.program.blockOf? load | return none
  match ← s.lastAccess? q (s.before b load) with
  | some found => return some found
  | none => s.accessAbove? q s.survey.graph.size b

/-- The instructions that may run after `first` and before `last`, where `first` dominates `last`. -/
def between (first last : ValueId) : Checked (List ValueId) := do
  let some b ← s.program.blockOf? first | return []
  let some c ← s.program.blockOf? last | return []
  if b = c then return (s.before c last).filter (s.after b first).contains
  let middle := (s.survey.graph.reachBack c [b]).filter (· ≠ c)
  return s.after b first ++ s.before c last ++ middle.flatMap s.program.instsOf

/-- A load that runs once reads what the nearest access before it left, if that access runs once too,
left a fixed value of the same width, and nothing between the two may write the location. -/
def mustAssign (isFixed : ValueId → Bool) (load : ValueId) : Checked (Option Clause) := do
  let some (.load q) ← s.program.op? load | return none
  if !s.survey.instOnce load then return none
  let some (source, value) ← s.source? load q | return none
  if !s.survey.instOnce source then return none
  if !(← s.observed value) then return none
  if !isFixed value then return none
  if (← s.program.width value) ≠ (← s.program.width load) then return none
  if ← (← s.between source load).anyM fun i => s.survey.mayWrite i q then return none
  return some (← s.equal load value)

def isObservedLoad (v : ValueId) : Checked Bool := do
  match ← s.program.op? v with
  | some (.load _) => s.observed v
  | _ => return false

def unwrittenLoads? (g : ValueId) : Checked (Option (List ValueId)) := do
  if !(← s.program.isGlobal g) then return none
  let running := s.program.instructions.filter (!s.survey.instDead ·)
  if ← running.anyM fun i => s.survey.mayWrite i g then return none
  return some (← s.program.instructions.filterM fun i => do
    match ← s.program.op? i with
    | some (.load ptr) => if ← s.survey.mustAlias ptr g then s.observed i else return false
    | _ => return false)

def neighbours {α : Type} (xs : List α) : List (α × α) := xs.zip xs.tail

/-- All loads of a global that nothing writes give its initial value, or without one agree with each
other. -/
def inGlobal (g : ValueId) : Checked (List Clause) := do
  match ← s.unwrittenLoads? g, (← s.program.kind g) with
  | some loads, .global _ (some init) =>
    loads.mapM fun l => do
      Clause.equal (← s.program.leaf l) (.ofInt (← s.program.width l) init)
  | some loads, _ =>
    (neighbours loads).filterMapM fun (a, b) => do
      if (← s.program.width a) = (← s.program.width b) then return some (← s.equal a b)
      return none
  | none, _ => return []

end Subject
end SsaFacts
