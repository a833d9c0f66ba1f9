import SsaFacts.Facts.Subject

/-! The fact that defines the result of an instruction in terms of its operands, and the fact that binds
a parameter to the arguments it may get. -/
namespace SsaFacts
namespace Subject
variable (s : Subject)

/-- A constant that is a multiple of `2 ^ 32` enters a product divided by `2 ^ 32`. -/
def factor (v : ValueId) : Checked Expr := do
  match ← s.program.const? v with
  | some c =>
    if c % twoPow 32 = 0 then return .ofInt (← s.program.width v) (c / twoPow 32)
    else s.program.leaf v
  | none => s.program.leaf v

/-- A constant shift amount counts modulo the width of a word. -/
def shiftAmount (v : ValueId) : Checked Expr := do
  match ← s.program.const? v with
  | some c => return .ofInt (← s.program.width v) (c % wordWidth)
  | none => s.program.leaf v

def inBinary (user : ValueId) (op : BinOp) (l r : ValueId) : Checked (Option Clause) := do
  if !(← s.allObserved [l, r]) then return none
  let rhs ← match op with
    | .shl | .lshr | .ashr => do Expr.combine op (← s.program.leaf l) (← s.shiftAmount r)
    | .mul => do Expr.combine op (← s.factor l) (← s.factor r)
    | _ => do Expr.combine op (← s.program.leaf l) (← s.program.leaf r)
  return some (← Clause.equal (← s.program.leaf user) rhs)

/-- The result is 0 exactly when the comparison fails. -/
def inIcmp (user : ValueId) (pred : Predicate) (l r : ValueId) : Checked (Option Clause) := do
  if !(← s.allObserved [l, r]) then return none
  let holds ← Clause.compare pred (← s.program.leaf l) (← s.program.leaf r)
  let isFalse ← Clause.equal (← s.program.leaf user) (.literal (.bool false))
  return some (.xor isFalse holds)

/-- A cast that widens has to be an extension; one that narrows keeps the low bit. -/
def inCast (user : ValueId) (op : CastOp) (x : ValueId) : Checked (Option Clause) := do
  if !(← s.allObserved [x]) then return none
  let result ← s.program.leaf user
  let given ← s.program.width x
  let wanted ← s.program.width user
  let e ← s.program.leaf x
  if given < wanted then
    match op with
    | .zext => return some (← Clause.equal result (.unary .zext e))
    | .sext => return some (← Clause.equal result (.unary .sext e))
    | _ => return none
  else if wanted < given then return some (← Clause.equal result (.unary .trunc e))
  else return some (← Clause.equal result e)

/-- The bytes that a step adds; none for an index that is not a word. A power of two scales by a
shift. -/
def stepExpr? : GepStep → Checked (Option Expr)
  | .field offset => return some (.ofInt wordWidth offset)
  | .index size index => do
    let i ← s.program.leaf index
    if i.width ≠ wordWidth then return none
    match exponent? size with
    | some k => return some (← Expr.combine .shl i (.ofInt wordWidth k))
    | none => return some (← Expr.combine .mul (.ofInt wordWidth size) i)

def address? (base : Expr) : List GepStep → Checked (Option Expr)
  | [] => return some base
  | step :: rest => do
    match ← s.stepExpr? step with
    | none => return none
    | some bytes => address? (← Expr.combine .add base bytes) rest

def inGep (user base : ValueId) (steps : List GepStep) : Checked (Option Clause) := do
  if !(← s.allObserved (steps.filterMap GepStep.index? ++ [base])) then return none
  match ← s.address? (← s.program.leaf base) steps with
  | none => return none
  | some e => return some (← Clause.equal (← s.program.leaf user) e)

def inSelect (user cond ifTrue ifFalse : ValueId) : Checked (Option Clause) := do
  if !(← s.allObserved [cond, ifTrue, ifFalse]) then return none
  if (← s.program.width cond) ≠ boolWidth then return none
  let c ← s.program.leaf cond
  let r ← s.program.leaf user
  let isFalse ← Clause.equal c (.literal (.bool false))
  let first ← Clause.equal r (← s.program.leaf ifTrue)
  let isTrue ← Clause.equal c (.literal (.bool true))
  let second ← Clause.equal r (← s.program.leaf ifFalse)
  return some (.and (.or isFalse first) (.or isTrue second))

/-- One of the incoming values, provided that no edge is a back edge or leaves a deeper loop. -/
def inPhi (user : ValueId) (incoming : List (BlockId × ValueId)) : Checked (Option Clause) := do
  let some b ← s.program.blockOf? user | return none
  if incoming.all fun e => s.survey.entersShallow e.1 b then
    return Clause.any (← incoming.mapM fun e => s.equal user e.2)
  return none

def inUser (user : ValueId) : Checked (Option Clause) := do
  match ← s.program.op? user with
  | some (.binary op l r) => s.inBinary user op l r
  | some (.icmp pred l r) => s.inIcmp user pred l r
  | some (.cast op x) => s.inCast user op x
  | some (.gep base steps) => s.inGep user base steps
  | some (.select c t f) => s.inSelect user c t f
  | some (.phi incoming) => s.inPhi user incoming
  | _ => return none

def ascending (xs : List Nat) : List Nat := (xs.mergeSort (· ≤ ·)).eraseDups

/-- A parameter equals one of the arguments passed where the function may be started. -/
def inArgument (formal : ValueId) : Checked (Option Clause) := do
  let .param f index ← s.program.kind formal | return none
  if (← s.program.function f).isDeclaration then return none
  let sites := (s.survey.callSites f).filter (!s.survey.instDead ·)
  let actuals ← sites.filterMapM fun site => s.program.actual? site index
  let actuals ← (ascending actuals).filterM s.observed
  return Clause.any (← actuals.mapM fun a => s.equal formal a)

end Subject
end SsaFacts
