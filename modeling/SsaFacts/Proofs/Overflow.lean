import SsaFacts.Proofs.SideConditions

/-! What the overflow conditions rule out. Each is read as a statement about the integers that the operands
stand for: the exact result of the operation is a word. The condition of a subtraction compares with the sign
of the negated right operand, which for the smallest word is the sign of the operand itself; there, and only
there, the condition says the opposite. -/
namespace SsaFacts
open Smt

/-- The number is the signed reading of some word. -/
def InWord (z : Int) : Prop := wordMin ≤ z ∧ z ≤ wordMax

instance InWord.decidable (z : Int) : Decidable (InWord z) := inferInstanceAs (Decidable (_ ∧ _))

theorem inWord_iff {z : Int} : InWord z ↔ -2147483648 ≤ z ∧ z ≤ 2147483647 := Iff.rfl

theorem inWord_toInt (x : BitVec wordWidth) : InWord x.toInt :=
  ⟨x.le_toInt, Int.le_sub_one_of_lt x.toInt_lt⟩

def leastWord : BitVec wordWidth := BitVec.intMin wordWidth

theorem eq_leastWord_iff {x : BitVec wordWidth} : x = leastWord ↔ x.toInt = -2147483648 := by
  rw [← BitVec.toInt_inj]
  rfl

theorem signOf_eq_iff {x y : BitVec wordWidth} : signOf x = signOf y ↔ (x.toInt < 0 ↔ y.toInt < 0) := by
  have sign (x : BitVec wordWidth) : (signOf x).getLsbD 0 = true ↔ x.toInt < 0 := by
    rw [← decide_eq_true_iff (p := x.toInt < 0), ← BitVec.msb_eq_toInt, BitVec.msb_eq_getLsbD_last]
    simp [signOf]
  rw [← sign, ← sign, ← Bool.eq_iff_iff]
  refine ⟨fun same => by rw [same], fun same => ?_⟩
  ext i hi
  obtain rfl : i = 0 := by omega
  simpa using same

theorem bmod_word (z : Int) : z.bmod (2 ^ wordWidth) =
    if z % 4294967296 < 2147483648 then z % 4294967296 else z % 4294967296 - 4294967296 := by
  rw [Int.bmod_def]
  rfl

namespace BinOp
variable {op : BinOp} {x y : BitVec wordWidth}

/-- The operation does not overflow: the exact sum, difference or product is a word, or a number that is not
negative is shifted to one that is still a word. -/
def Representable (op : BinOp) (x y : BitVec wordWidth) : Prop :=
  match op with
  | add => InWord (x.toInt + y.toInt)
  | sub => InWord (x.toInt - y.toInt)
  | mul => InWord (x.toInt * y.toInt)
  | shl => 0 ≤ x.toInt ∧ x.toInt * twoPow y.toNat ≤ wordMax
  | _ => True

instance Representable.decidable : (op : BinOp) → (x y : BitVec wordWidth) → Decidable (op.Representable x y)
  | add, _, _ | sub, _, _ | mul, _, _ => InWord.decidable _
  | shl, _, _ => inferInstanceAs (Decidable (_ ∧ _))
  | udiv, _, _ | sdiv, _, _ | urem, _, _ | srem, _, _ | lshr, _, _ | ashr, _, _ | and, _, _ | or, _, _
  | xor, _, _ => .isTrue trivial

theorem inRange_add : add.inRange x y = true ↔ InWord (x.toInt + y.toInt) := by
  have hx := inWord_iff.1 (inWord_toInt x)
  have hy := inWord_iff.1 (inWord_toInt y)
  simp only [inRange, Bool.or_eq_true, bne_iff_ne, ne_eq, beq_iff_eq, signOf_eq_iff, inWord_iff,
    BitVec.toInt_add, bmod_word]
  omega

theorem inRange_sub : sub.inRange x y = true ↔ (InWord (x.toInt - y.toInt) ↔ y ≠ leastWord) := by
  have hx := inWord_iff.1 (inWord_toInt x)
  have hy := inWord_iff.1 (inWord_toInt y)
  simp only [inRange, Bool.or_eq_true, bne_iff_ne, ne_eq, beq_iff_eq, signOf_eq_iff, inWord_iff,
    eq_leastWord_iff, BitVec.toInt_sub, BitVec.toInt_neg, bmod_word]
  omega

theorem toInt_wide_mul (x y : BitVec wordWidth) :
    (x.signExtend 64 * y.signExtend 64).toInt = x.toInt * y.toInt := by
  have hx := inWord_iff.1 (inWord_toInt x)
  have hy := inWord_iff.1 (inWord_toInt y)
  rw [BitVec.toInt_mul, BitVec.toInt_signExtend_of_le (by decide), BitVec.toInt_signExtend_of_le (by decide)]
  have low : -(2147483648 * 2147483648) ≤ x.toInt * y.toInt := by nlinarith
  have high : x.toInt * y.toInt ≤ 2147483648 * 2147483648 := by nlinarith
  exact Int.bmod_eq_of_le (by omega) (by omega)

theorem inRange_mul : mul.inRange x y = true ↔ InWord (x.toInt * y.toInt) := by
  simp only [inRange, Bool.and_eq_true, BitVec.sle_iff_toInt_le, toInt_wide_mul]
  exact Iff.rfl

/-- What may be shifted by an amount is what the greatest word comes to when it is shifted back by it. -/
theorem rangeTest_shl :
    shl.rangeTest x y = true ↔ 0 ≤ x.toInt ∧ x.toInt * twoPow y.toNat ≤ wordMax := by
  have limit : (BitVec.ofInt wordWidth wordMax >>> y.toNat).toInt =
      ((2147483647 / twoPow y.toNat : Nat) : Int) := by
    rw [BitVec.toInt_ushiftRight]
    split
    · rename_i none
      rw [none]
      rfl
    · rw [Nat.shiftRight_eq_div_pow]
      rfl
  have greatest : wordMax = ((2147483647 : Nat) : Int) := rfl
  simp only [rangeTest, Bool.and_eq_true, BitVec.sle_iff_toInt_le]
  refine and_congr_right fun nonneg => ?_
  obtain ⟨n, hn⟩ := Int.eq_ofNat_of_zero_le nonneg
  rw [limit, hn, greatest]
  exact_mod_cast Nat.le_div_iff_mul_le (twoPow_pos y.toNat)

/-- The test of an operation finds out whether it overflows, and the opposite where the smallest word is
subtracted. -/
theorem rangeTest_iff : op.rangeTest x y = true ↔ (op.Representable x y ↔ ¬(op = sub ∧ y = leastWord)) := by
  cases op with
  | add => simpa [rangeTest, Representable] using inRange_add
  | sub => simpa [rangeTest, Representable] using inRange_sub
  | mul => simpa [rangeTest, Representable] using inRange_mul
  | shl => simpa [Representable] using rangeTest_shl
  | _ => simp [rangeTest, inRange, Representable]

theorem rangeTest_eq_decide (ordinary : ¬(op = sub ∧ y = leastWord)) :
    op.rangeTest x y = decide (op.Representable x y) := by
  rw [Bool.eq_iff_iff, rangeTest_iff, decide_eq_true_iff, iff_true_right ordinary]

theorem rangeTest_leastWord :
    sub.rangeTest x leastWord = !decide (sub.Representable x leastWord) := by
  rw [Bool.eq_iff_iff, rangeTest_iff, Bool.not_eq_true', decide_eq_false_iff_not]
  simp

end BinOp

namespace Expr
variable {g : Guards} {ν : Assignment} {op : BinOp} {l r : Expr} {x y : BitVec wordWidth}

theorem toInt_zero {k : Literal} {z : BitVec wordWidth} (zero : k.bits = 0)
    (hk : (Term.const k).eval ν = some ⟨wordWidth, z⟩) : z.toInt = 0 := by
  have none : z = 0#(wordWidth) := BitVec.eq_of_toNat_eq
    ((Literal.toNat_of_vec_eq (Option.some.inj hk)).trans zero)
  rw [none]
  rfl

/-- Take an operation on words that is no division, where overflow conditions are asked for, and the words
that its operands stand for as they are written, so that a shift amount is one that is already reduced. Beside
the conditions of its operands at most one is written for it. It is true exactly if the operation does not
overflow, unless the smallest word is subtracted, where it is true exactly if the operation overflows. Where
none is written the operation does not overflow. -/
theorem overflow_condition_exact (on : g.overflow = true) (plain : op.isDivision = false)
    (word : l.width = wordWidth) (hl : (l.encode g).eval ν = some ⟨wordWidth, x⟩)
    (hr : (amount op l.width r (r.encode g)).eval ν = some ⟨wordWidth, y⟩) :
    ∃ own : Option Formula, (binary op l r).guards g = l.guards g ++ r.guards g ++ own.toList ∧
      (¬(op = .sub ∧ y = leastWord) → ∀ f ∈ own, f.eval ν = some (decide (op.Representable x y))) ∧
      (op = .sub → y = leastWord → ∀ f ∈ own, f.eval ν = some !decide (op.Representable x y)) ∧
      (own = none → op.Representable x y) := by
  rcases shape_cases g op l r with ⟨hs, rfl, k, rfl, zero⟩ | ⟨hs, rfl, k, rfl, zero⟩ |
    ⟨n, hs, rfl, -⟩ | ⟨n, hs, rfl, -⟩ | hs
  · refine ⟨none, by simp [guards, hs], by simp, by simp, fun _ => ?_⟩
    rw [BinOp.Representable, toInt_zero zero hr]
    simpa using inWord_toInt x
  · refine ⟨none, by simp [guards, hs], by simp, by simp, fun _ => ?_⟩
    rw [BinOp.Representable, toInt_zero zero hl]
    simpa using inWord_toInt y
  · rw [overflow_of_scaled hs (by simp)] at on
    cases on
  · rw [overflow_of_scaled hs (by simp)] at on
    cases on
  · let b := amount op l.width r (r.encode g)
    have own : guard? g op (l.encode g) b (.app (fnOf op) (l.encode g) b) =
        overflowGuard op (l.encode g) b (.app (fnOf op) (l.encode g) b) := by
      simp [guard?, plain, on]
    refine ⟨overflowGuard op (l.encode g) b (.app (fnOf op) (l.encode g) b), ?_, ?_, ?_, fun absent => ?_⟩
    · simp only [guards, hs, if_pos word]
      rw [← own]
    · intro ordinary f hf
      rw [eval_overflowGuard hl hr hf, BinOp.rangeTest_eq_decide ordinary]
    · rintro rfl rfl f hf
      rw [eval_overflowGuard hl hr hf, BinOp.rangeTest_leastWord]
    · have ordinary : ¬(op = .sub ∧ y = leastWord) := by
        rintro ⟨rfl, -⟩
        cases absent
      have met := rangeTest_of_overflowGuard_eq_none (x := x) (z := y) absent
      rw [BinOp.rangeTest_eq_decide ordinary] at met
      exact of_decide_eq_true met

/-- All values are 65536, whose square is no word. -/
theorem overflow_condition_exact_square :
    let g : Guards := { overflow := true }
    let ν : Assignment := { value := fun _ => ⟨wordWidth, 65536⟩, nonempty := fun _ => by decide }
    let square := binary .mul (.result 0 wordWidth) (.result 0 wordWidth)
    ¬BinOp.mul.Representable 65536 65536 ∧ square.guards g ≠ [] ∧ ∀ f ∈ square.guards g, f.eval ν = some false := by
  intro g ν square
  have large : ¬BinOp.mul.Representable 65536 65536 := by decide
  have plain : BinOp.mul.isDivision = false := rfl
  obtain ⟨own, written, exactly, -, absent⟩ := overflow_condition_exact (g := g) (ν := ν)
    (l := .result 0 wordWidth) (r := .result 0 wordWidth) (x := 65536) (y := 65536) rfl plain rfl rfl rfl
  have only : square.guards g = own.toList := written
  refine ⟨large, ?_, fun f hf => ?_⟩
  · rw [only]
    intro none
    exact large (absent (Option.toList_eq_nil_iff.1 none))
  · rw [only, Option.mem_toList] at hf
    rw [exactly (by decide) f hf, decide_eq_false large]

/-- The smallest word is subtracted from zero and from minus one. The first difference is no word and the
condition holds; the second is the greatest word and the condition does not hold. -/
theorem overflow_condition_leastWord :
    let g : Guards := { overflow := true }
    let ν : Assignment := { value := fun _ => ⟨wordWidth, 0⟩, nonempty := fun _ => by decide }
    let least := Expr.ofInt wordWidth wordMin
    ¬InWord (0 - wordMin) ∧ InWord (-1 - wordMin) ∧
      ((binary .sub (.ofInt wordWidth 0) least).guards g).map (·.eval ν) = [some true] ∧
      ((binary .sub (.ofInt wordWidth (-1)) least).guards g).map (·.eval ν) = [some false] := by
  decide

end Expr
end SsaFacts
