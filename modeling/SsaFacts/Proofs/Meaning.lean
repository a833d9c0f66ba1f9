import Mathlib
import SsaFacts.Clause

/-! What terms and clauses mean, given a bit-vector for every leaf. Arithmetic wraps, shift amounts count
modulo the width, and what a division by zero gives is left open. -/
namespace SsaFacts

/-- A bit-vector together with its width. -/
structure Vec where
  width : Nat
  bits : BitVec width
  deriving DecidableEq

def Vec.fit (x : Vec) (w : Nat) : BitVec w := x.bits.setWidth w

@[simp] theorem Vec.fit_self (x : Vec) : x.fit x.width = x.bits := BitVec.setWidth_eq x.bits

@[simp] theorem Vec.fit_mk {w : Nat} (x : BitVec w) : (Vec.mk w x).fit w = x := BitVec.setWidth_eq x

theorem Vec.mk_fit {x : Vec} {w : Nat} (h : x.width = w) : Vec.mk w (x.fit w) = x := by
  subst h
  simp

theorem Vec.exists_bits {x : Vec} {w : Nat} (h : x.width = w) : ∃ b : BitVec w, x = ⟨w, b⟩ :=
  ⟨x.fit w, (mk_fit h).symm⟩

theorem twoPow_eq (n : Nat) : twoPow n = 2 ^ n := rfl

theorem twoPow_le_twoPow {m n : Nat} (h : m ≤ n) : twoPow m ≤ twoPow n :=
  Nat.pow_le_pow_right (by decide) h

namespace Literal

def vec (l : Literal) : Vec := ⟨l.width, BitVec.ofNat l.width l.bits⟩

@[simp] theorem width_vec (l : Literal) : l.vec.width = l.width := rfl

theorem sized_iff {l : Literal} : l.sized ↔ 1 ≤ l.width ∧ l.width ≤ 64 := by
  simp [sized]

theorem bits_lt_twoPow_width (l : Literal) : l.bits < twoPow l.width :=
  Nat.lt_of_lt_of_le l.bits_lt (twoPow_le_twoPow (Nat.min_le_left _ _))

@[simp] theorem toNat_vec (l : Literal) : l.vec.bits.toNat = l.bits := by
  have h := l.bits_lt_twoPow_width
  rw [twoPow_eq] at h
  exact Nat.mod_eq_of_lt h

@[simp] theorem toNat_fit_vec (l : Literal) : (l.vec.fit l.width).toNat = l.bits := by
  have h := toNat_vec l
  rwa [← Vec.fit_self l.vec] at h

theorem vec_injective {l r : Literal} (h : l.vec = r.vec) : l = r := by
  have hw : l.width = r.width := congrArg Vec.width h
  have hb : l.vec.bits.toNat = r.vec.bits.toNat := by rw [h]
  rw [toNat_vec, toNat_vec] at hb
  exact Literal.ext hw hb

/-- Up to 64 bits a literal made from an integer is that integer reduced to its width. -/
theorem vec_ofInt {w : Nat} (h : w ≤ 64) (z : Int) : (ofInt w z).vec = ⟨w, BitVec.ofInt w z⟩ := by
  simp only [vec, bits_ofInt, width_ofInt, Nat.min_eq_left h]
  congr 1
  apply BitVec.eq_of_toNat_eq
  have pos : (0 : Int) < ((2 ^ w : Nat) : Int) := by exact_mod_cast Nat.two_pow_pos w
  have below := Int.emod_lt_of_pos z pos
  have above := Int.emod_nonneg z pos.ne'
  rw [BitVec.toNat_ofNat, BitVec.toNat_ofInt, twoPow_eq, Nat.mod_eq_of_lt (by omega)]

end Literal

/-- What each operator gives when the divisor is zero. -/
abbrev ZeroDivision := BinOp → (w : Nat) → BitVec w → BitVec w

def BinOp.apply (δ : ZeroDivision) (op : BinOp) {w : Nat} (x y : BitVec w) : BitVec w :=
  match op with
  | add => x + y
  | sub => x - y
  | mul => x * y
  | udiv => if y = 0#w then δ .udiv w x else x / y
  | sdiv => if y = 0#w then δ .sdiv w x else x.sdiv y
  | urem => if y = 0#w then δ .urem w x else x % y
  | srem => if y = 0#w then δ .srem w x else x.srem y
  | shl => x <<< (y.toNat % w)
  | lshr => x >>> (y.toNat % w)
  | ashr => x.sshiftRight (y.toNat % w)
  | and => x &&& y
  | or => x ||| y
  | xor => x ^^^ y

/-- The operation at the width of the left operand, to which the right one is fitted. -/
def BinOp.value (δ : ZeroDivision) (op : BinOp) (x y : Vec) : Vec :=
  ⟨x.width, op.apply δ x.bits (y.fit x.width)⟩

@[simp] theorem BinOp.value_mk (δ : ZeroDivision) (op : BinOp) {w : Nat} (x y : BitVec w) :
    op.value δ ⟨w, x⟩ ⟨w, y⟩ = ⟨w, op.apply δ x y⟩ := by
  simp [value]

def UnaryOp.apply (op : UnaryOp) {w : Nat} (x : BitVec w) : BitVec op.resultWidth :=
  match op with
  | trunc => x.setWidth _
  | zext => x.setWidth _
  | sext => x.signExtend _

def UnaryOp.value (op : UnaryOp) (x : Vec) : Vec := ⟨op.resultWidth, op.apply x.bits⟩

theorem UnaryOp.resultWidth_pos (op : UnaryOp) : 0 < op.resultWidth := by
  cases op <;> decide

theorem UnaryOp.resultWidth_le (op : UnaryOp) : op.resultWidth ≤ wordWidth := by
  cases op <;> decide

/-- The comparison of bit-vectors. -/
def Predicate.test (p : Predicate) {w : Nat} (x y : BitVec w) : Bool :=
  match p with
  | eq => x = y
  | ne => x ≠ y
  | ugt => y.ult x
  | uge => y.ule x
  | ult => x.ult y
  | ule => x.ule y
  | sgt => y.slt x
  | sge => y.sle x
  | slt => x.slt y
  | sle => x.sle y

/-- The comparison at the width of the left side. -/
def Predicate.truth (p : Predicate) (x y : Vec) : Bool := p.test x.bits (y.fit x.width)

@[simp] theorem Predicate.truth_mk (p : Predicate) {w : Nat} (x y : BitVec w) :
    p.truth ⟨w, x⟩ ⟨w, y⟩ = p.test x y := by
  simp [truth]

theorem Predicate.test_self (p : Predicate) {w : Nat} (x : BitVec w) : p.test x x = p.isReflexive := by
  cases p <;> simp [test, isReflexive, BitVec.ult, BitVec.ule, BitVec.slt, BitVec.sle]

namespace Expr

/-- The value of a term. -/
def denote (δ : ZeroDivision) (ρ : Leaf → Vec) : Expr → Vec
  | literal l => l.vec
  | leaf l => ρ l
  | unary op e => op.value (e.denote δ ρ)
  | binary op l r => op.value δ (l.denote δ ρ) (r.denote δ ρ)

/-- Operands agree in width and literals have a signed reading. -/
def WellSorted : Expr → Prop
  | literal l => l.sized
  | leaf _ => True
  | unary _ e => e.WellSorted
  | binary _ l r => l.WellSorted ∧ r.WellSorted ∧ l.width = r.width

variable {δ : ZeroDivision} {ρ σ : Leaf → Vec}

theorem width_denote {e : Expr} (typed : ∀ l ∈ e.leaves, (ρ l).width = l.width) :
    (e.denote δ ρ).width = e.width := by
  induction e with
  | literal l => rfl
  | leaf l => exact typed l (by simp [leaves])
  | unary op e ih => rfl
  | binary op l r ihl ihr =>
    exact ihl fun x hx => typed x (by simp [leaves, hx])

theorem denote_subst (f : Leaf → Expr) (e : Expr) :
    (e.subst f).denote δ ρ = e.denote δ fun l => (f l).denote δ ρ := by
  induction e with
  | literal l => rfl
  | leaf l => rfl
  | unary op e ih => simp only [subst, denote, ih]
  | binary op l r ihl ihr => simp only [subst, denote, ihl, ihr]

theorem denote_congr {e : Expr} (h : ∀ l ∈ e.leaves, ρ l = σ l) : e.denote δ ρ = e.denote δ σ := by
  induction e with
  | literal l => rfl
  | leaf l => exact h l (by simp [leaves])
  | unary op e ih => simp only [denote, ih h]
  | binary op l r ihl ihr =>
    have hl := ihl fun x hx => h x (by simp [leaves, hx])
    have hr := ihr fun x hx => h x (by simp [leaves, hx])
    simp only [denote, hl, hr]

end Expr

namespace Clause

/-- The truth value of a clause. -/
def denote (δ : ZeroDivision) (ρ : Leaf → Vec) : Clause → Bool
  | atom pred l r => pred.truth (l.denote δ ρ) (r.denote δ ρ)
  | not c => !c.denote δ ρ
  | and a b => a.denote δ ρ && b.denote δ ρ
  | or a b => a.denote δ ρ || b.denote δ ρ
  | xor a b => a.denote δ ρ ^^ b.denote δ ρ

/-- The terms are well-sorted and the sides of each comparison agree in width. -/
def WellSorted : Clause → Prop
  | atom _ l r => l.WellSorted ∧ r.WellSorted ∧ l.width = r.width
  | not c => c.WellSorted
  | and a b | or a b | xor a b => a.WellSorted ∧ b.WellSorted

variable {δ : ZeroDivision} {ρ σ : Leaf → Vec}

theorem denote_subst (f : Leaf → Expr) (c : Clause) :
    (c.subst f).denote δ ρ = c.denote δ fun l => (f l).denote δ ρ := by
  induction c with
  | atom pred l r => simp only [subst, denote, Expr.denote_subst]
  | not c ih => simp only [subst, denote, ih]
  | and a b iha ihb | or a b iha ihb | xor a b iha ihb => simp only [subst, denote, iha, ihb]

@[simp] theorem leaves_atom (pred : Predicate) (l r : Expr) :
    (atom pred l r).leaves = l.leaves ++ r.leaves := by
  simp [leaves, exprs]

@[simp] theorem leaves_not (c : Clause) : (not c).leaves = c.leaves := rfl

@[simp] theorem leaves_and (a b : Clause) : (and a b).leaves = a.leaves ++ b.leaves := by
  simp [leaves, exprs]

@[simp] theorem leaves_or (a b : Clause) : (or a b).leaves = a.leaves ++ b.leaves := by
  simp [leaves, exprs]

@[simp] theorem leaves_xor (a b : Clause) : (xor a b).leaves = a.leaves ++ b.leaves := by
  simp [leaves, exprs]

theorem denote_congr {c : Clause} (h : ∀ l ∈ c.leaves, ρ l = σ l) : c.denote δ ρ = c.denote δ σ := by
  induction c with
  | atom pred l r =>
    have hl : l.denote δ ρ = l.denote δ σ := Expr.denote_congr fun x hx => h x (by simp [hx])
    have hr : r.denote δ ρ = r.denote δ σ := Expr.denote_congr fun x hx => h x (by simp [hx])
    simp only [denote, hl, hr]
  | not c ih => simp only [denote, ih h]
  | and a b iha ihb | or a b iha ihb | xor a b iha ihb =>
    have ha := iha fun x hx => h x (by simp [hx])
    have hb := ihb fun x hx => h x (by simp [hx])
    simp only [denote, ha, hb]

end Clause
end SsaFacts
