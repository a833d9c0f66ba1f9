import SsaFacts.Proofs.Folding
import SsaFacts.Proofs.Translation

/-! Arithmetic on literals is the arithmetic of bit-vectors, at every width at which literals have a sign. -/
namespace SsaFacts
open Smt

namespace Literal
variable {w : Nat} {l k : Literal} {x : BitVec w}

theorem vec_ofNat_bits (width : l.width = w) : l.vec = ⟨w, .ofNat w l.bits⟩ := by
  subst width
  rfl

theorem ofInt_signed (le : l.width ≤ 64) : ofInt l.width l.signed = l := by
  obtain ⟨x, hx⟩ := exists_vec_eq (l := l) rfl
  apply vec_injective
  rw [vec_ofInt le, signed_of_vec_eq hx, BitVec.ofInt_toInt, hx]

end Literal

/-- The right operand of a function: a shift amount counts modulo the width. -/
def BinOp.operand {w : Nat} (op : BinOp) (y : BitVec w) : BitVec w := if op.isShift then y % .ofNat w w else y

namespace BinOp
variable {op : BinOp} {w : Nat} {l r : Literal} {x y : BitVec w}

/-- The functions of the standard are the operations, divisions by zero as the standard has them. -/
theorem apply_operand : (fnOf op).apply x (op.operand y) = op.apply zeroDivision x y := by
  unfold operand
  split
  case isTrue shift =>
    refine apply_fnOf_shift shift x y ?_
    rw [BitVec.toNat_umod, BitVec.toNat_ofNat, Nat.mod_eq_of_lt Nat.lt_two_pow_self]
  case isFalse plain => exact apply_fnOf (by simpa using plain) x y

theorem eval_eq_some (sl : l.sized) (sr : r.sized) (hl : l.width = w) (hr : r.width = w)
    (defined : ¬(op.isDivision ∧ r.bits = 0)) : ∃ k, op.eval l r = .ok (some k) ∧ k.width = w ∧
      k.bits = ((fnOf op).apply (.ofNat w l.bits) (op.operand (.ofNat w r.bits))).toNat := by
  obtain ⟨result, found⟩ : ∃ k, op.eval l r = .ok k := eval_ok sl sr
  cases result with
  | none => exact absurd ((eval_eq_none_iff sl sr).1 found) defined
  | some k =>
    obtain ⟨width, value⟩ := vec_of_eval sl sr (hl.trans hr.symm) found
    have vec := value zeroDivision
    rw [Literal.vec_ofNat_bits hl, Literal.vec_ofNat_bits hr, value_mk, ← apply_operand] at vec
    exact ⟨k, found, width.trans hl, Literal.bits_of_vec_eq vec⟩

end BinOp

theorem UnaryOp.eval_bits (op : UnaryOp) {w : Nat} {l : Literal} (sized : l.sized) (width : l.width = w) :
    ∃ k, op.eval l = .ok k ∧ k.width = op.resultWidth ∧ k.bits = (op.apply (.ofNat w l.bits)).toNat := by
  obtain ⟨k, found, vec, width'⟩ := op.eval_ok sized
  rw [Literal.vec_ofNat_bits width] at vec
  exact ⟨k, found, width', Literal.bits_of_vec_eq vec⟩

theorem Predicate.test_negated (p : Predicate) {w : Nat} (x y : BitVec w) : p.negated.test x y = !p.test x y := by
  rw [Bool.eq_iff_iff]
  cases p <;> simp [test, negated, BitVec.ult, BitVec.ule, BitVec.slt, BitVec.sle]

/-- Between literals of one width that have a sign, operators and comparisons are the functions and relations of the
standard, divisions by zero apart. Nothing runs into a fault. -/
theorem Literal.arithmetic_exact {w : Nat} (pos : 1 ≤ w) (le : w ≤ 64) {l r : Literal} (hl : l.width = w)
    (hr : r.width = w) :
    (∀ op : BinOp, (op.eval l r = .ok none ↔ op.isDivision ∧ r.bits = 0) ∧
      (¬(op.isDivision ∧ r.bits = 0) → ∃ k, op.eval l r = .ok (some k) ∧ k.width = w ∧ k.bits < twoPow w ∧
        k.bits = ((fnOf op).apply (.ofNat w l.bits) (op.operand (.ofNat w r.bits))).toNat)) ∧
    (∀ p : Predicate, ∃ b, p.eval l r = .ok b ∧ (∀ ν, (comparison p (.const l) (.const r)).eval ν = some b) ∧
      p.negated.eval l r = .ok !b ∧ p.eval l l = .ok p.isReflexive) ∧
    ofInt w l.signed = l ∧
    (∃ k, UnaryOp.trunc.eval l = .ok k ∧ k.width = 1 ∧ k.bits = ((BitVec.ofNat w l.bits).extractLsb' 0 1).toNat) ∧
    (∃ k, UnaryOp.zext.eval l = .ok k ∧ k.width = 32 ∧ k.bits = ((BitVec.ofNat w l.bits).setWidth 32).toNat) ∧
    ∃ k, UnaryOp.sext.eval l = .ok k ∧ k.width = 32 ∧ k.bits = ((BitVec.ofNat w l.bits).signExtend 32).toNat := by
  have sl : l.sized := sized_iff.2 (by omega)
  have sr : r.sized := sized_iff.2 (by omega)
  refine ⟨fun op => ⟨BinOp.eval_eq_none_iff sl sr, fun defined => ?_⟩, fun p => ?_, ?_, ?_, ?_, ?_⟩
  · obtain ⟨k, found, width, bits⟩ := BinOp.eval_eq_some sl sr hl hr defined
    exact ⟨k, found, width, width ▸ k.bits_lt_twoPow_width, bits⟩
  · have vl := vec_ofNat_bits hl
    have vr := vec_ofNat_bits hr
    refine ⟨p.test (.ofNat w l.bits) (.ofNat w r.bits), ?_, fun ν => ?_, ?_, ?_⟩
    · rw [p.eval_ok sl sr (hl.trans hr.symm), vl, vr, Predicate.truth_mk]
    · exact Clause.eval_comparison p (congrArg some vl) (congrArg some vr)
    · rw [p.negated.eval_ok sl sr (hl.trans hr.symm), vl, vr, Predicate.truth_mk, p.test_negated]
    · rw [p.eval_ok sl sl rfl, vl, Predicate.truth_mk, p.test_self]
  · rw [← hl]
    exact ofInt_signed (hl.trans_le le)
  · rw [← BitVec.setWidth_eq_extractLsb' pos]
    exact UnaryOp.trunc.eval_bits sl hl
  · exact UnaryOp.zext.eval_bits sl hl
  · exact UnaryOp.sext.eval_bits sl hl

/-- The least number of 64 bits divided by `-1` is itself, and shifted by `-1` it is shifted by 63. -/
theorem Literal.arithmetic_exact_minimum : ∃ k m,
    BinOp.sdiv.eval (.ofInt 64 (-(twoPow 63 : Int))) (.ofInt 64 (-1)) = .ok (some k) ∧ k.bits = twoPow 63 ∧
    BinOp.ashr.eval (.ofInt 64 (-(twoPow 63 : Int))) (.ofInt 64 (-1)) = .ok (some m) ∧ m.bits = twoPow 64 - 1 := by
  obtain ⟨operators, -⟩ := arithmetic_exact (w := 64) (by decide) (by decide) (l := .ofInt 64 (-(twoPow 63 : Int)))
    (r := .ofInt 64 (-1)) rfl rfl
  obtain ⟨k, quotient, -, -, bits⟩ := (operators .sdiv).2 (by decide)
  obtain ⟨m, shifted, -, -, bits'⟩ := (operators .ashr).2 (by decide)
  refine ⟨k, m, quotient, bits.trans ?_, shifted, bits'.trans ?_⟩
  · decide +kernel
  · decide +kernel

end SsaFacts
