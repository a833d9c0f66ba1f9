import SsaFacts.Clause
import SsaFacts.Smt.Term

/-! Clauses as SMT-LIB formulas, with the side conditions that rule out overflow and zero divisors. -/
namespace SsaFacts

/-- Which side conditions accompany word arithmetic. -/
structure Guards where
  overflow : Bool := false
  division : Bool := false
  deriving DecidableEq, Repr

/-- The solver's name of a leaf. An operand is named like the result that it holds. -/
def Leaf.solverName (l : Leaf) : String :=
  match l.ref with
  | .result v _ => taggedName "x" v l.context
  | .operand site _ => taggedName "x" site.value l.context
  | .previous v => taggedName "lb" v l.context

namespace Smt

def fnOf : BinOp → Fn
  | .add => .bvadd
  | .sub => .bvsub
  | .mul => .bvmul
  | .udiv => .bvudiv
  | .sdiv => .bvsdiv
  | .urem => .bvurem
  | .srem => .bvsrem
  | .shl => .bvshl
  | .lshr => .bvlshr
  | .ashr => .bvashr
  | .and => .bvand
  | .or => .bvor
  | .xor => .bvxor

/-- A comparison of two terms; there is no relation symbol for inequality. -/
def comparison (p : Predicate) (a b : Term) : Formula :=
  match p with
  | .eq => .rel .eq a b
  | .ne => .not (.rel .eq a b)
  | .ugt => .rel .bvugt a b
  | .uge => .rel .bvuge a b
  | .ult => .rel .bvult a b
  | .ule => .rel .bvule a b
  | .sgt => .rel .bvsgt a b
  | .sge => .rel .bvsge a b
  | .slt => .rel .bvslt a b
  | .sle => .rel .bvsle a b

/-- How a binary term is written: as one of its operands when the other is a zero summand, as a shift
of one operand when the other is a power of two, or plainly. -/
inductive Shape
  | left
  | right
  | scaledLeft (exponent : Nat)
  | scaledRight (exponent : Nat)
  | plain
  deriving DecidableEq

def scale? (e : Expr) : Option Nat := e.literal?.bind fun l => exponent? l.bits

/-- Products stay products where their overflow is guarded. -/
def shape (g : Guards) (op : BinOp) (l r : Expr) : Shape :=
  match op with
  | .add =>
    if r.literal?.any (·.bits = 0) then .left
    else if l.literal?.any (·.bits = 0) then .right
    else .plain
  | .mul =>
    if g.overflow then .plain
    else match scale? l, scale? r with
      | _, some k => .scaledLeft k
      | some k, none => .scaledRight k
      | none, none => .plain
  | _ => .plain

/-- The width as a constant, where a shift amount is counted modulo it. -/
def modulus? (op : BinOp) (width : Nat) (r : Expr) : Option Literal :=
  if op.isShift && r.literal?.isNone then some (.ofInt width width) else none

/-- The right operand: a shift amount that is not a literal counts modulo the width. -/
def amount (op : BinOp) (width : Nat) (r : Expr) (b : Term) : Term :=
  match modulus? op width r with
  | some l => .app .bvurem b (.const l)
  | none => b

inductive Mention
  | leaf (l : Leaf)
  | const (l : Literal)
  deriving DecidableEq

def signBit (t : Term) : Term := .extract (wordWidth - 1) (wordWidth - 1) t

def overflowGuard (op : BinOp) (a b result : Term) : Option Formula :=
  match op with
  | .add => some (sameSign b)
  | .sub => some (sameSign (.neg b))
  | .mul =>
    let product := .app .bvmul (.signExtend wordWidth a) (.signExtend wordWidth b)
    some (.and (.rel .bvsge product (.const (.ofInt 64 wordMin)))
      (.rel .bvsle product (.const (.ofInt 64 wordMax))))
  | .shl =>
    some (.and (.rel .bvsge a (.const (.word 0)))
      (.rel .bvsle a (.app .bvlshr (.const (.word wordMax)) b)))
  | _ => none
where
  /-- Operands of equal sign give a result of that sign. -/
  sameSign (b : Term) : Formula :=
    .or (.not (.rel .eq (signBit a) (signBit b))) (.rel .eq (signBit b) (signBit result))

def guard? (g : Guards) (op : BinOp) (a b result : Term) : Option Formula :=
  if op.isDivision then
    if g.division then some (.not (.rel .eq b (.const (.word 0)))) else none
  else if g.overflow then overflowGuard op a b result
  else none

end Smt

open Smt

namespace Expr

def encode (g : Guards) : Expr → Term
  | literal l => .const l
  | leaf l => .name l.solverName
  | unary .trunc e => .extract 0 0 (e.encode g)
  | unary .zext e =>
    if e.width < wordWidth then .zeroExtend (wordWidth - e.width) (e.encode g) else e.encode g
  | unary .sext e =>
    if e.width < wordWidth then .signExtend (wordWidth - e.width) (e.encode g) else e.encode g
  | binary op l r =>
    match shape g op l r with
    | .left => l.encode g
    | .right => r.encode g
    | .scaledLeft k => .app .bvshl (l.encode g) (.const (.ofInt l.width k))
    | .scaledRight k => .app .bvshl (r.encode g) (.const (.ofInt l.width k))
    | .plain => .app (fnOf op) (l.encode g) (amount op l.width r (r.encode g))

def mentions (g : Guards) : Expr → List Mention
  | literal l => [.const l]
  | leaf l => [.leaf l]
  | unary _ e => e.mentions g
  | binary op l r =>
    match shape g op l r with
    | .left => l.mentions g
    | .right => r.mentions g
    | .scaledLeft k => l.mentions g ++ [.const (.ofInt l.width k)]
    | .scaledRight k => r.mentions g ++ [.const (.ofInt l.width k)]
    | .plain => l.mentions g ++ r.mentions g ++ (modulus? op l.width r).toList.map .const

/-- The side conditions of an expression, innermost and leftmost first. -/
def guards (g : Guards) : Expr → List Formula
  | literal _ | leaf _ => []
  | unary _ e => e.guards g
  | binary op l r =>
    match shape g op l r with
    | .left | .scaledLeft _ => l.guards g
    | .right | .scaledRight _ => r.guards g
    | .plain =>
      let a := l.encode g
      let b := amount op l.width r (r.encode g)
      l.guards g ++ r.guards g ++
        (if l.width = wordWidth then (guard? g op a b (.app (fnOf op) a b)).toList else [])

end Expr

namespace Clause

def encode (g : Guards) : Clause → Formula
  | atom pred l r => comparison pred (l.encode g) (r.encode g)
  | not c => .not (c.encode g)
  | and a b => .and (a.encode g) (b.encode g)
  | or a b => .or (a.encode g) (b.encode g)
  | xor a b => .xor (a.encode g) (b.encode g)

def mentions (g : Guards) (c : Clause) : List Mention := c.exprs.flatMap (Expr.mentions g)

def guards (g : Guards) (c : Clause) : List Formula := c.exprs.flatMap (Expr.guards g)

end Clause
end SsaFacts
