import SsaFacts.Expr

/-! Boolean combinations of comparisons, the form in which facts and queries are stated. -/
namespace SsaFacts

inductive Clause
  | atom (pred : Predicate) (lhs rhs : Expr)
  | not (c : Clause)
  | and (a b : Clause)
  | or (a b : Clause)
  | xor (a b : Clause)
  deriving DecidableEq

namespace Clause

/-- A comparison; its sides have to agree in width. -/
def compare (pred : Predicate) (l r : Expr) : Checked Clause :=
  if l.width = r.width then .ok (.atom pred l r) else .error (.widthMismatch l.width r.width)

def equal (l r : Expr) : Checked Clause := compare .eq l r

/-- The disjunction nested to the left; none of an empty list. -/
def any : List Clause → Option Clause
  | [] => none
  | c :: rest => some (rest.foldl .or c)

def exprs : Clause → List Expr
  | atom _ l r => [l, r]
  | not c => c.exprs
  | and a b | or a b | xor a b => a.exprs ++ b.exprs

def fringe (c : Clause) : List Expr := c.exprs.flatMap Expr.fringe

def leaves (c : Clause) : List Leaf := c.exprs.flatMap Expr.leaves

def subst (f : Leaf → Expr) : Clause → Clause
  | atom pred l r => atom pred (l.subst f) (r.subst f)
  | not c => not (c.subst f)
  | and a b => and (a.subst f) (b.subst f)
  | or a b => or (a.subst f) (b.subst f)
  | xor a b => xor (a.subst f) (b.subst f)

def mapLeaves (f : Leaf → Leaf) (c : Clause) : Clause := c.subst fun l => .leaf (f l)

def text : Clause → String
  | atom pred l r => "(" ++ l.text ++ " " ++ pred.symbol ++ " " ++ r.text ++ ")"
  | not c => "(NOT " ++ c.text ++ ")"
  | and a b => "(" ++ a.text ++ " AND " ++ b.text ++ ")"
  | or a b => "(" ++ a.text ++ " OR " ++ b.text ++ ")"
  | xor a b => "(" ++ a.text ++ " XOR " ++ b.text ++ ")"

/-- The text, provided that every literal in it can be written. -/
def print (c : Clause) : Checked String := do
  c.exprs.forM fun e => discard e.print
  return c.text

/-- Facts are ordered by their number of opening parentheses, then by their text. -/
structure SortKey where
  parens : Nat
  text : String

def SortKey.ofText (text : String) : SortKey := { parens := text.toList.count '(', text }

def SortKey.le (a b : SortKey) : Bool :=
  a.parens < b.parens || (a.parens = b.parens && !(b.text < a.text))

def sort (cs : List Clause) : Checked (List Clause) := do
  let keyed ← cs.mapM fun c => return (SortKey.ofText (← c.print), c)
  return (keyed.mergeSort fun a b => a.1.le b.1).map (·.2)

/-- Holds by reflexivity: both sides are the same term. -/
def isTautology : Clause → Bool
  | atom pred l r => pred.isReflexive && l = r
  | _ => false

end Clause
end SsaFacts
