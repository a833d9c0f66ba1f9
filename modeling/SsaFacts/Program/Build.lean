import SsaFacts.Program.Basic

/-! Building programs step by step. -/
namespace SsaFacts

abbrev Build (α : Type) := StateT Program (Except Fault) α

namespace Build

def program : Build Program := get

def addValue (ty : Ty) (kind : Kind) (name : Option String := none) : Build ValueId := do
  let p ← program
  set { p with values := p.values.push { ty, kind, name } }
  return p.values.size

/-- Adds a function with its parameters. It is a declaration until it gets a block. -/
def function (name : String) (params : List Ty) (ret : Ty) : Build FuncId := do
  let f := (← program).functions.size
  let params ← params.zipIdx.mapM fun (ty, index) => addValue ty (.param f index)
  modify fun p => { p with functions := p.functions.push { name, params, ret } }
  return f

def block (func : FuncId) (name : String) : Build BlockId := do
  let p ← program
  let f ← p.function func
  let b := p.blocks.size
  set { p with
    blocks := p.blocks.push { func, name }
    functions := p.functions.setIfInBounds func { f with blocks := f.blocks ++ [b] } }
  return b

def setEntry (f : FuncId) : Build Unit := modify fun p => { p with chosenEntry := some f }

def const (ty : Ty) (value : Int) : Build ValueId := do
  match (← program).values.findIdx? fun x => x.ty = ty && x.kind = .const value with
  | some v => return v
  | none => addValue ty (.const value)

def null : Build ValueId := do
  match (← program).values.findIdx? fun x => x.kind = .null with
  | some v => return v
  | none => addValue .ptr .null

def global (name : String) (init : Option Int := none) : Build ValueId :=
  addValue .ptr (.global name init) (some name)

def functionAddress (f : FuncId) : Build ValueId := addValue .ptr (.function f)

def append (b : BlockId) (ty : Ty) (op : Op) : Build ValueId := do
  let x ← (← program).block b
  let v ← addValue ty (.inst b op)
  modify fun p => { p with blocks := p.blocks.setIfInBounds b { x with insts := x.insts ++ [v] } }
  return v

/-- A binary operation has the type of its left operand. -/
def binary (b : BlockId) (op : BinOp) (l r : ValueId) : Build ValueId := do
  append b (← (← program).ty l) (.binary op l r)

def icmp (b : BlockId) (pred : Predicate) (l r : ValueId) : Build ValueId :=
  append b (.int 1) (.icmp pred l r)

def phi (b : BlockId) (ty : Ty) (incoming : List (BlockId × ValueId)) : Build ValueId :=
  append b ty (.phi incoming)

/-- Adds an incoming edge; a value that is no φ stays as it is. -/
def phiIncoming (v : ValueId) (source : BlockId) (value : ValueId) : Build Unit := do
  let p ← program
  let x ← p.value v
  if let .inst b (.phi incoming) := x.kind then
    let kind := .inst b (.phi (incoming ++ [(source, value)]))
    set { p with values := p.values.setIfInBounds v { x with kind } }

def call (b : BlockId) (ret : Ty) (callee : FuncId) (args : List ValueId) : Build ValueId :=
  append b ret (.call (.direct callee) args)

def terminate (b : BlockId) (term : Terminator) : Build Unit := do
  let p ← program
  let x ← p.block b
  set { p with blocks := p.blocks.setIfInBounds b { x with term } }

def setName (v : ValueId) (name : String) : Build Unit := do
  let p ← program
  let x ← p.value v
  set { p with values := p.values.setIfInBounds v { x with name := some name } }

def run {α : Type} (b : Build α) : Checked (α × Program) := StateT.run b {}

end Build
end SsaFacts
