import SsaFacts.Expr
import SsaFacts.Routine

/-! Programs in static single assignment form: typed values, blocks that end in a terminator, and
functions. Ids are positions in order of creation; reading one that does not exist is a fault. -/
namespace SsaFacts

inductive Ty
  | int (bits : Nat)
  | ptr
  | void
  deriving DecidableEq, Repr

inductive CastOp
  | trunc | zext | sext | ptrToInt | intToPtr | bitCast
  deriving DecidableEq, Repr

inductive GepStep
  /-- Advance by `index` elements of `size` bytes. -/
  | index (size : Nat) (index : ValueId)
  /-- Advance by a fixed number of bytes. -/
  | field (offset : Nat)
  deriving DecidableEq, Repr

inductive Callee
  | direct (f : FuncId)
  | indirect (target : ValueId)
  deriving DecidableEq, Repr

inductive Op
  | binary (op : BinOp) (l r : ValueId)
  | icmp (pred : Predicate) (l r : ValueId)
  | cast (op : CastOp) (x : ValueId)
  | gep (base : ValueId) (steps : List GepStep)
  | select (cond ifTrue ifFalse : ValueId)
  | phi (incoming : List (BlockId × ValueId))
  | alloca (bytes : Nat)
  | call (callee : Callee) (args : List ValueId)
  | load (ptr : ValueId)
  | store (value ptr : ValueId)
  deriving DecidableEq, Repr

inductive Terminator
  | br (dest : BlockId)
  | condBr (cond : ValueId) (ifTrue ifFalse : BlockId)
  | switch (cond : ValueId) (default : BlockId) (cases : List (ValueId × BlockId))
  | indirectBr (address : ValueId) (dests : List BlockId)
  | ret (value : Option ValueId)
  | unreachable
  deriving DecidableEq, Repr

inductive Kind
  | const (value : Int)
  | null
  /-- A global variable and the integer that it holds before any store. -/
  | global (name : String) (init : Option Int)
  | function (f : FuncId)
  | param (f : FuncId) (index : Nat)
  | inst (block : BlockId) (op : Op)
  deriving DecidableEq, Repr

structure Value where
  ty : Ty
  kind : Kind
  name : Option String := none
  deriving DecidableEq, Repr

structure Block where
  func : FuncId
  name : String
  insts : List ValueId := []
  term : Terminator := .unreachable
  deriving DecidableEq, Repr

structure Function where
  name : String
  params : List ValueId
  ret : Ty
  blocks : List BlockId := []
  deriving DecidableEq, Repr

structure Program where
  values : Array Value := #[]
  blocks : Array Block := #[]
  functions : Array Function := #[]
  /-- The entry that was chosen, if any. -/
  chosenEntry : Option FuncId := none

namespace Ty

def isIntegerOrPointer : Ty → Bool
  | int _ | ptr => true
  | void => false

/-- Width in the model: a single bit stays one, all else is a word. -/
def modelWidth : Ty → Nat
  | int 1 => boolWidth
  | _ => wordWidth

end Ty

def GepStep.index? : GepStep → Option ValueId
  | .index _ i => some i
  | .field _ => none

/-- Operands in the order of their edges. -/
def Op.operands : Op → List ValueId
  | binary _ l r | icmp _ l r => [l, r]
  | cast _ x | load x => [x]
  | gep base steps => base :: steps.filterMap GepStep.index?
  | select c t f => [c, t, f]
  | phi incoming => incoming.map (·.2)
  | alloca _ => []
  | call (.direct _) args => args
  | call (.indirect target) args => args ++ [target]
  | store value ptr => [value, ptr]

namespace Terminator

/-- Successors in edge order: true before false, the default before the cases. -/
def successors : Terminator → List BlockId
  | br d => [d]
  | condBr _ t f => [t, f]
  | switch _ d cases => d :: cases.map (·.2)
  | indirectBr _ dests => dests
  | ret _ | unreachable => []

def isReturn : Terminator → Bool
  | ret _ => true
  | _ => false

end Terminator

namespace Function

/-- A function without blocks is only declared. -/
def isDeclaration (f : Function) : Bool := f.blocks.isEmpty

def entryBlock? (f : Function) : Option BlockId := f.blocks.head?

end Function

namespace Kind

def op? : Kind → Option Op
  | inst _ op => some op
  | _ => none

def block? : Kind → Option BlockId
  | inst b _ => some b
  | _ => none

/-- Integer constants and null, which reads as zero. -/
def const? : Kind → Option Int
  | const c => some c
  | null => some 0
  | _ => none

def isGlobal : Kind → Bool
  | global .. => true
  | _ => false

end Kind

namespace Program
variable (p : Program)

def value (v : ValueId) : Checked Value :=
  match p.values[v]? with
  | some x => .ok x
  | none => .error (.unknownValue v)

def block (b : BlockId) : Checked Block :=
  match p.blocks[b]? with
  | some x => .ok x
  | none => .error (.unknownBlock b)

def function (f : FuncId) : Checked Function :=
  match p.functions[f]? with
  | some x => .ok x
  | none => .error (.unknownFunction f)

def valueIds : List ValueId := List.range p.values.size
def blockIds : List BlockId := List.range p.blocks.size
def functionIds : List FuncId := List.range p.functions.size

def ty (v : ValueId) : Checked Ty := return (← p.value v).ty

def width (v : ValueId) : Checked Nat := return (← p.ty v).modelWidth

def kind (v : ValueId) : Checked Kind := return (← p.value v).kind

def kind? (v : ValueId) : Option Kind := p.values[v]?.map (·.kind)

def op? (v : ValueId) : Checked (Option Op) := return (← p.kind v).op?

def blockOf? (v : ValueId) : Checked (Option BlockId) := return (← p.kind v).block?

def const? (v : ValueId) : Checked (Option Int) := return (← p.kind v).const?

def isGlobal (v : ValueId) : Checked Bool := return (← p.kind v).isGlobal

def isConstant (v : ValueId) : Bool :=
  match p.kind? v with
  | some k => k.const?.isSome
  | none => false

def container? (v : ValueId) : Checked (Option FuncId) := do
  match ← p.kind v with
  | .inst b _ => return some (← p.block b).func
  | .param f _ => return some f
  | _ => return none

def instsOf (b : BlockId) : List ValueId :=
  match p.blocks[b]? with
  | some x => x.insts
  | none => []

def blocksOf (f : FuncId) : List BlockId :=
  match p.functions[f]? with
  | some x => x.blocks
  | none => []

def bodyOf (f : FuncId) : List ValueId := (p.blocksOf f).flatMap p.instsOf

def instructions : List ValueId := p.functionIds.flatMap p.bodyOf

def edges : List (BlockId × BlockId) :=
  p.blocks.toList.zipIdx.flatMap fun (x, b) => x.term.successors.map (b, ·)

/-- The entry that was chosen, else the first defined function called main. -/
def entryFunction? : Option FuncId :=
  match p.chosenEntry with
  | some f => some f
  | none => p.functions.findIdx? fun f => f.name = "main" && !f.isDeclaration

/-- The leading φ instructions of a block with what flows into them. -/
def phis (b : BlockId) : Checked (List (ValueId × List (BlockId × ValueId))) := do
  let insts := (← p.block b).insts
  let ops ← insts.mapM fun i => return (i, ← p.op? i)
  return leading ops
where
  leading : List (ValueId × Option Op) → List (ValueId × List (BlockId × ValueId))
    | (i, some (.phi incoming)) :: rest => (i, incoming) :: leading rest
    | _ => []

def callTarget? (call : ValueId) : Checked (Option FuncId) := do
  match ← p.op? call with
  | some (.call (.direct f) _) => return some f
  | _ => return none

def calleeName? (call : ValueId) : Checked (Option String) := do
  match ← p.callTarget? call with
  | some f => return some (← p.function f).name
  | none => return none

def callArgs (call : ValueId) : Checked (List ValueId) := do
  match ← p.op? call with
  | some (.call _ args) => return args
  | _ => return []

/-- For a call that starts a thread, the function that the thread runs. -/
def spawned? (call : ValueId) : Checked (Option FuncId) := do
  if (← p.calleeName? call) ≠ some Routine.threadSpawn then return none
  match (← p.callArgs call)[2]? with
  | none => return none
  | some start =>
    match ← p.kind start with
    | .function f => return some f
    | _ => return none

/-- The value that a call or spawn binds to parameter `index` of the function it starts. A thread gets
one argument. -/
def actual? (site : ValueId) (index : Nat) : Checked (Option ValueId) := do
  let args ← p.callArgs site
  if (← p.spawned? site).isSome then return if index = 0 then args[3]? else none
  return args[index]?

def useOf? (user : ValueId) (index : Nat) : Checked (Option Use) := do
  match ← p.op? user with
  | none => return none
  | some op => return op.operands[index]?.map fun value => { user, index, value }

/-- A reference to the result of a value. Constants and null become literals. -/
def leaf (v : ValueId) : Checked Expr := do
  let w ← p.width v
  match ← p.const? v with
  | some c => return .ofInt w c
  | none => return .result v w

def operand (site : Use) : Checked Expr := do
  let w ← p.width site.value
  match ← p.const? site.value with
  | some c => return .ofInt w c
  | none => return .leaf { ref := .operand site [], width := w, context := 0 }

end Program
end SsaFacts
