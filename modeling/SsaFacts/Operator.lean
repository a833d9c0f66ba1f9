import SsaFacts.Literal

/-! Operators and comparisons on literals. Each computes exactly on integers and reduces the result to
the width of the left operand; shift amounts count modulo that width. -/
namespace SsaFacts

inductive BinOp
  | add | sub | mul | udiv | sdiv | urem | srem | shl | lshr | ashr | and | or | xor
  deriving DecidableEq, Repr

inductive UnaryOp
  | trunc | zext | sext
  deriving DecidableEq, Repr

inductive Predicate
  | eq | ne | ugt | uge | ult | ule | sgt | sge | slt | sle
  deriving DecidableEq, Repr

def requireSized (l r : Literal) : Checked Unit :=
  if !l.sized then .error (.widthOutOfRange l.width)
  else if !r.sized then .error (.widthOutOfRange r.width)
  else .ok ()

namespace BinOp

def all : List BinOp := [add, sub, mul, udiv, sdiv, urem, srem, shl, lshr, ashr, and, or, xor]

def symbol : BinOp → String
  | add => "+"
  | sub => "-"
  | mul => "*"
  | udiv => "udiv"
  | sdiv => "sdiv"
  | urem => "urem"
  | srem => "srem"
  | shl => "<<"
  | lshr => ">>"
  | ashr => ">>a"
  | and => "&"
  | or => "|"
  | xor => "^"

def isShift : BinOp → Bool
  | shl | lshr | ashr => true
  | _ => false

def isDivision : BinOp → Bool
  | udiv | sdiv | urem | srem => true
  | _ => false

/-- The exact result before it is reduced; none for a zero divisor. -/
def exact (op : BinOp) (l r : Literal) : Option Int :=
  let shift := r.bits % l.width
  match op with
  | add => some (l.bits + r.bits)
  | sub => some (l.bits - r.bits)
  | mul => some (l.bits * r.bits)
  | udiv => if r.bits = 0 then none else some (l.bits / r.bits : Nat)
  | urem => if r.bits = 0 then none else some (l.bits % r.bits : Nat)
  | sdiv => if r.bits = 0 then none else some (l.signed.tdiv r.signed)
  | srem => if r.bits = 0 then none else some (l.signed.tmod r.signed)
  | shl => some (l.bits <<< shift : Nat)
  | lshr => some (l.bits >>> shift : Nat)
  | ashr => some (l.signed >>> shift)
  | and => some (l.bits &&& r.bits : Nat)
  | or => some (l.bits ||| r.bits : Nat)
  | xor => some (l.bits ^^^ r.bits : Nat)

/-- The operation on two literals; none for a zero divisor. -/
def eval (op : BinOp) (l r : Literal) : Checked (Option Literal) := do
  requireSized l r
  return (op.exact l r).map (Literal.ofInt l.width)

end BinOp

namespace UnaryOp

def all : List UnaryOp := [trunc, zext, sext]

def symbol : UnaryOp → String
  | trunc => "trunc"
  | zext => "zext"
  | sext => "sext"

def resultWidth : UnaryOp → Nat
  | trunc => boolWidth
  | zext | sext => wordWidth

/-- Only the sign extension reads a sign. -/
def eval (op : UnaryOp) (x : Literal) : Checked Literal :=
  match op with
  | trunc => .ok (.ofInt boolWidth (x.bits % 2 : Nat))
  | zext => .ok (.ofInt wordWidth x.bits)
  | sext => if x.sized then .ok (.ofInt wordWidth x.signed) else .error (.widthOutOfRange x.width)

end UnaryOp

namespace Predicate

def all : List Predicate := [eq, ne, ugt, uge, ult, ule, sgt, sge, slt, sle]

def symbol : Predicate → String
  | eq => "="
  | ne => "!="
  | ugt => "u>"
  | uge => "u>="
  | ult => "u<"
  | ule => "u<="
  | sgt => ">"
  | sge => ">="
  | slt => "<"
  | sle => "<="

def holds (p : Predicate) (l r : Literal) : Bool :=
  match p with
  | eq => l.bits = r.bits
  | ne => l.bits ≠ r.bits
  | ugt => r.bits < l.bits
  | uge => r.bits ≤ l.bits
  | ult => l.bits < r.bits
  | ule => l.bits ≤ r.bits
  | sgt => r.signed < l.signed
  | sge => r.signed ≤ l.signed
  | slt => l.signed < r.signed
  | sle => l.signed ≤ r.signed

def eval (p : Predicate) (l r : Literal) : Checked Bool := do
  requireSized l r
  return p.holds l r

def isReflexive : Predicate → Bool
  | eq | uge | ule | sge | sle => true
  | _ => false

def negated : Predicate → Predicate
  | eq => ne
  | ne => eq
  | ugt => ule
  | uge => ult
  | ult => uge
  | ule => ugt
  | sgt => sle
  | sge => slt
  | slt => sge
  | sle => sgt

end Predicate
end SsaFacts
