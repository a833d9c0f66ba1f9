import SsaFacts.Clause

/-! Folding of literal subterms, and the truth value of a clause where its structure alone settles it. -/
namespace SsaFacts

/-- Folds literal subterms. A division by a literal zero is left alone. -/
def Expr.fold : Expr → Checked Expr
  | .unary op e => do
    match ← e.fold with
    | .literal l => return .literal (← op.eval l)
    | e => return .unary op e
  | .binary op l r => do
    let l ← l.fold
    let r ← r.fold
    match l, r with
    | .literal a, .literal b =>
      match ← op.eval a b with
      | some c => return .literal c
      | none => combine op l r
    | _, _ => combine op l r
  | e => return e

/-- What a connective gives for two partly known truth values, where they decide it. -/
def known (f : Bool → Bool → Bool) : Option Bool → Option Bool → Option Bool
  | some a, some b => some (f a b)
  | some a, none => if f a false = f a true then some (f a true) else none
  | none, some b => if f false b = f true b then some (f true b) else none
  | none, none => none

namespace Clause

def simplify : Clause → Checked (Option Bool)
  | atom pred l r => do
    let l ← l.fold
    let r ← r.fold
    match l, r with
    | .literal a, .literal b => return some (← pred.eval a b)
    | _, _ => return if l = r then some pred.isReflexive else none
  | not c => return (← c.simplify).map (!·)
  | and a b => return known (· && ·) (← a.simplify) (← b.simplify)
  | or a b => return known (· || ·) (← a.simplify) (← b.simplify)
  | xor a b => return known (· ^^ ·) (← a.simplify) (← b.simplify)

def nontrivial (cs : List Clause) : Checked (List Clause) :=
  cs.filterM fun c => return (← c.simplify) != some true

end Clause
end SsaFacts
