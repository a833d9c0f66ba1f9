import SsaFacts.Operator

/-! Symbolic terms over program values. A leaf refers to a value of the program in one of its
activations; everything else is a literal or an operator. -/
namespace SsaFacts

abbrev ValueId := Nat
abbrev BlockId := Nat
abbrev FuncId := Nat
abbrev LoopId := Nat

/-- Tells apart activations of one static value; 0 is the default. -/
abbrev Context := Nat

/-- Operand `index` of instruction `user`, which holds `value`. -/
structure Use where
  user : ValueId
  index : Nat
  value : ValueId
  deriving DecidableEq, Repr

/-- What a leaf reads: a result, an operand as its user sees it, or a result one loop iteration
earlier. The first two may be pinned to the activation reached through a call stack. -/
inductive Ref
  | result (value : ValueId) (stack : List ValueId)
  | operand (site : Use) (stack : List ValueId)
  | previous (value : ValueId)
  deriving DecidableEq, Repr

structure Leaf where
  ref : Ref
  width : Nat
  context : Context
  deriving DecidableEq, Repr

inductive Expr
  | literal (l : Literal)
  | leaf (l : Leaf)
  | unary (op : UnaryOp) (e : Expr)
  | binary (op : BinOp) (l r : Expr)
  deriving DecidableEq

namespace Ref

def value : Ref → ValueId
  | result v _ => v
  | operand site _ => site.value
  | previous v => v

def withStack (stack : List ValueId) : Ref → Ref
  | result v _ => result v stack
  | operand site _ => operand site stack
  | previous v => previous v

/-- First letters of the printed form. -/
def tag : Ref → String
  | result .. => "x"
  | operand .. => "u"
  | previous .. => "lb"

end Ref

/-- A tagged id, followed by the context unless it is the default. -/
def taggedName (tag : String) (id : ValueId) (context : Context) : String :=
  if context = 0 then tag ++ toString id else tag ++ toString id ++ "_" ++ toString context

namespace Leaf

def value (l : Leaf) : ValueId := l.ref.value

def withContext (context : Context) (l : Leaf) : Leaf := { l with context }

def withStack (stack : List ValueId) (l : Leaf) : Leaf := { l with ref := l.ref.withStack stack }

def text (l : Leaf) : String := taggedName l.ref.tag l.value l.context

end Leaf

namespace Expr

def result (value : ValueId) (width : Nat) : Expr :=
  .leaf { ref := .result value [], width, context := 0 }

def previous (value : ValueId) (width : Nat) (context : Context) : Expr :=
  .leaf { ref := .previous value, width, context }

def ofInt (width : Nat) (value : Int) : Expr := .literal (.ofInt width value)

def width : Expr → Nat
  | literal l => l.width
  | leaf l => l.width
  | unary op _ => op.resultWidth
  | binary _ l _ => l.width

/-- A binary term; its operands have to agree in width. -/
def combine (op : BinOp) (l r : Expr) : Checked Expr :=
  if l.width = r.width then .ok (.binary op l r) else .error (.widthMismatch l.width r.width)

def literal? : Expr → Option Literal
  | literal l => some l
  | _ => none

def value? : Expr → Option ValueId
  | leaf l => some l.value
  | _ => none

def subst (f : Leaf → Expr) : Expr → Expr
  | literal l => literal l
  | leaf l => f l
  | unary op e => unary op (e.subst f)
  | binary op l r => binary op (l.subst f) (r.subst f)

def mapLeaves (f : Leaf → Leaf) (e : Expr) : Expr := e.subst fun l => .leaf (f l)

def fringe : Expr → List Expr
  | unary _ e => e.fringe
  | binary _ l r => l.fringe ++ r.fringe
  | e => [e]

def leaves : Expr → List Leaf
  | literal _ => []
  | leaf l => [l]
  | unary _ e => e.leaves
  | binary _ l r => l.leaves ++ r.leaves

def text : Expr → String
  | literal l => l.text
  | leaf l => l.text
  | unary op e => "(" ++ op.symbol ++ " " ++ e.text ++ ")"
  | binary op l r => "(" ++ l.text ++ " " ++ op.symbol ++ " " ++ r.text ++ ")"

def literals : Expr → List Literal
  | literal l => [l]
  | leaf _ => []
  | unary _ e => e.literals
  | binary _ l r => l.literals ++ r.literals

/-- The text, provided that every literal in it can be written. -/
def print (e : Expr) : Checked String := do
  e.literals.forM fun l => discard l.print
  return e.text

end Expr
end SsaFacts
