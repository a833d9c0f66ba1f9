import SsaFacts.CallGraph

/-! Where pointers point, and what instructions may write. A pointer is followed through address
computations to the object or unknown pointer that it is based on. -/
namespace SsaFacts

inductive Base
  /-- An allocation or a global; different ones never overlap. -/
  | object (v : ValueId)
  /-- A pointer that came from a parameter, a load or a call. -/
  | unknown (v : ValueId)
  /-- Null, a function or an integer. -/
  | noData
  deriving DecidableEq, Repr

structure Location where
  base : Base
  /-- Bytes from the base, where every step is constant. -/
  offset : Option Int
  deriving DecidableEq, Repr

def requireInt64 (n : Int) : Checked Int :=
  if -(twoPow 63 : Int) ≤ n ∧ n < twoPow 63 then .ok n else .error .offsetOverflow

def signedSize (n : Nat) : Int := (n : Int).bmod (twoPow 64)

namespace Location

def stepBytes (p : Program) : GepStep → Checked (Option Int)
  | .field offset => return some (signedSize offset)
  | .index size index => do
    match ← p.const? index with
    | some i => return some (← requireInt64 (i * signedSize size))
    | none => return none

def advance (p : Program) (offset : Option Int) (steps : List GepStep) : Checked (Option Int) :=
  steps.foldlM (fun offset step => do
    match offset, ← stepBytes p step with
    | some o, some d => return some (← requireInt64 (o + d))
    | _, _ => return none) offset

def follow (p : Program) : Nat → ValueId → Option Int → Checked Location
  | 0, v, offset => return { base := .unknown v, offset }
  | steps + 1, v, offset => do
    match ← p.kind v with
    | .inst _ (.gep base path) => follow p steps base (← advance p offset path)
    | .inst _ (.cast .bitCast x) => follow p steps x offset
    | .inst _ (.alloca _) | .global .. => return { base := .object v, offset }
    | .inst .. | .param .. => return { base := .unknown v, offset }
    | .const _ | .null | .function _ => return { base := .noData, offset }

/-- The location of a pointer. No chain is longer than there are values. -/
def ofValue (p : Program) (v : ValueId) : Checked Location :=
  follow p (p.values.size + 1) v (some 0)

def mustAlias (a b : Location) : Bool :=
  a.base ≠ .noData && a.base = b.base && a.offset.isSome && a.offset = b.offset

def mayAlias (a b : Location) : Bool :=
  match a.base, b.base with
  | .noData, _ | _, .noData => false
  | .object x, .object y => x = y
  | _, _ => true

end Location

/-- What is written through: known pointers, or anything. -/
inductive Writes
  | through (ptrs : List ValueId)
  | anything
  deriving DecidableEq, Repr

namespace Writes

def none : Writes := through []

def union : Writes → Writes → Writes
  | through ps, through qs => through (ps ++ qs)
  | _, _ => anything

/-- The writes of an instruction, its callees aside. A routine that is only declared may write through
every pointer it is handed. -/
def ofInst (p : Program) (inst : ValueId) : Checked Writes := do
  match ← p.op? inst with
  | some (.store _ ptr) => return through [ptr]
  | some (.call (.indirect _) _) => return anything
  | some (.call (.direct f) args) =>
    if (← p.function f).isDeclaration then
      return through (← args.filterM fun a => return (← p.ty a) = .ptr)
    else return none
  | _ => return none

end Writes

structure Memory where
  locations : Array Location
  /-- Writes of each instruction, by value. -/
  direct : Array Writes
  /-- Writes of each function and of all that it may call. -/
  summaries : Array Writes

namespace Memory

def ofProgram (p : Program) (calls : CallGraph) : Checked Memory := do
  let locations ← p.valueIds.mapM (Location.ofValue p)
  let writes ← p.instructions.mapM fun i => return (i, ← Writes.ofInst p i)
  let direct := writes.foldl (fun table (i, w) => table.setIfInBounds i w)
    (Array.replicate p.values.size Writes.none)
  let summaries := p.functionIds.map fun f =>
    ((calls.reachable p [f]).flatMap p.bodyOf).foldl
      (fun all i => all.union (direct.getD i .none)) .none
  return { locations := locations.toArray, direct, summaries := summaries.toArray }

def location (m : Memory) (v : ValueId) : Checked Location :=
  match m.locations[v]? with
  | some l => .ok l
  | none => .error (.unknownValue v)

def mustAlias (m : Memory) (x y : ValueId) : Checked Bool := do
  if x = y then return true
  return (← m.location x).mustAlias (← m.location y)

/-- Whether two pointers may address one object. -/
def mayAlias (m : Memory) (x y : ValueId) : Checked Bool :=
  return (← m.location x).mayAlias (← m.location y)

/-- Whether some of the writes may change what `y` points to. -/
def mayHit (m : Memory) (y : ValueId) : Writes → Checked Bool
  | .through ptrs => ptrs.anyM fun x => m.mayAlias x y
  | .anything => return true

/-- Whether running an instruction may change what `y` points to, counting all that it may call. -/
def mayWrite (m : Memory) (calls : CallGraph) (inst y : ValueId) : Checked Bool := do
  if ← m.mayHit y (m.direct.getD inst .none) then return true
  (calls.callees inst).anyM fun f => m.mayHit y (m.summaries.getD f .none)

end Memory
end SsaFacts
