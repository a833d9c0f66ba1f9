import SsaFacts.Proofs.SmtMeaning

/-! The formula that stands for a clause means what the clause means: zero summands that are dropped,
products that are written as shifts, amounts counted modulo the width, padded extensions and negated
equalities all keep the value. -/
namespace SsaFacts
open Smt

/-- Extensions are applied to operands no wider than a word. -/
def Expr.ExtensionsFit : Expr → Prop
  | literal _ | leaf _ => True
  | unary .trunc e => e.ExtensionsFit
  | unary _ e => e.ExtensionsFit ∧ e.width ≤ wordWidth
  | binary _ l r => l.ExtensionsFit ∧ r.ExtensionsFit

/-- Every shift by a literal is by less than the width. -/
def Expr.AmountsInRange : Expr → Prop
  | literal _ | leaf _ => True
  | unary _ e => e.AmountsInRange
  | binary op l r => l.AmountsInRange ∧ r.AmountsInRange ∧
      ∀ k, r = literal k → op.isShift → k.bits < l.width

def Clause.ExtensionsFit (c : Clause) : Prop := ∀ e ∈ c.exprs, e.ExtensionsFit

def Clause.AmountsInRange (c : Clause) : Prop := ∀ e ∈ c.exprs, e.AmountsInRange

theorem exponent?_eq_some {n k : Nat} (h : exponent? n = some k) : twoPow k = n := by
  unfold exponent? at h
  split at h
  · rename_i pos
    cases h
    simpa using (Bool.and_eq_true_iff.1 pos).2
  · cases h

namespace Smt

theorem scale?_eq_some {e : Expr} {n : Nat} (h : scale? e = some n) :
    ∃ k, e = .literal k ∧ k.bits = twoPow n := by
  cases e with
  | literal k => exact ⟨k, rfl, (exponent?_eq_some h).symm⟩
  | leaf | unary | binary => cases h

theorem literal_of_any_zero {e : Expr} (h : e.literal?.any (·.bits = 0)) :
    ∃ k, e = .literal k ∧ k.bits = 0 := by
  cases e with
  | literal k => exact ⟨k, rfl, by simpa [Expr.literal?] using h⟩
  | leaf | unary | binary => cases h

theorem shape_cases (g : Guards) (op : BinOp) (l r : Expr) :
    (shape g op l r = .left ∧ op = .add ∧ ∃ k, r = .literal k ∧ k.bits = 0) ∨
    (shape g op l r = .right ∧ op = .add ∧ ∃ k, l = .literal k ∧ k.bits = 0) ∨
    (∃ n, shape g op l r = .scaledLeft n ∧ op = .mul ∧ ∃ k, r = .literal k ∧ k.bits = twoPow n) ∨
    (∃ n, shape g op l r = .scaledRight n ∧ op = .mul ∧ ∃ k, l = .literal k ∧ k.bits = twoPow n) ∨
    shape g op l r = .plain := by
  cases op with
  | add =>
    by_cases hr : r.literal?.any (·.bits = 0)
    · exact .inl ⟨by simp [shape, hr], rfl, literal_of_any_zero hr⟩
    · by_cases hl : l.literal?.any (·.bits = 0)
      · exact .inr (.inl ⟨by simp [shape, hr, hl], rfl, literal_of_any_zero hl⟩)
      · exact .inr (.inr (.inr (.inr (by simp [shape, hr, hl]))))
  | mul =>
    by_cases hg : g.overflow
    · exact .inr (.inr (.inr (.inr (by simp [shape, hg]))))
    · cases hr : scale? r with
      | some n =>
        exact .inr (.inr (.inl ⟨n, by simp [shape, hg, hr], rfl, scale?_eq_some hr⟩))
      | none =>
        cases hl : scale? l with
        | some n =>
          exact .inr (.inr (.inr (.inl ⟨n, by simp [shape, hg, hr, hl], rfl, scale?_eq_some hl⟩)))
        | none => exact .inr (.inr (.inr (.inr (by simp [shape, hg, hr, hl]))))
  | _ => exact .inr (.inr (.inr (.inr rfl)))

end Smt

theorem Literal.vec_of_bits_zero {k : Literal} (h : k.bits = 0) : k.vec = ⟨k.width, 0#k.width⟩ := by
  simp [vec, h]

theorem BinOp.value_add_zero {δ : ZeroDivision} {x : Vec} {k : Literal} (h : k.bits = 0) :
    BinOp.value δ .add x k.vec = x := by
  rw [Literal.vec_of_bits_zero h]
  simp [value, apply, Vec.fit]

theorem BinOp.value_zero_add {δ : ZeroDivision} {x : Vec} {k : Literal} (h : k.bits = 0)
    (hw : k.width = x.width) : BinOp.value δ .add k.vec x = x := by
  rw [Literal.vec_of_bits_zero h]
  simp only [value, apply, BitVec.zero_add]
  exact Vec.mk_fit hw.symm

theorem Literal.toNat_of_vec_eq {k : Literal} {w : Nat} {y : BitVec w} (h : k.vec = ⟨w, y⟩) :
    y.toNat = k.bits := by
  have hb : (Vec.mk w y).bits.toNat = k.bits := h ▸ toNat_vec k
  exact hb

theorem Literal.exponent_lt_width {k : Literal} {n : Nat} (h : k.bits = twoPow n) :
    n < k.width := by
  have hb := k.bits_lt_twoPow_width
  rw [h, twoPow_eq, twoPow_eq] at hb
  exact (Nat.pow_lt_pow_iff_right (by decide)).1 hb

theorem Literal.fit_of_bits_eq_twoPow {k : Literal} {n w : Nat} (h : k.bits = twoPow n)
    (hw : k.width = w) : k.vec.fit w = BitVec.twoPow w n := by
  subst hw
  apply BitVec.eq_of_toNat_eq
  rw [BitVec.toNat_twoPow, Nat.mod_eq_of_lt]
  · exact (toNat_fit_vec k).trans h
  · exact Nat.pow_lt_pow_right (by decide) (exponent_lt_width h)

theorem BinOp.value_mul_pow {δ : ZeroDivision} {k : Literal} {n w : Nat} (x : BitVec w)
    (h : k.bits = twoPow n) (hw : k.width = w) :
    BinOp.value δ .mul ⟨w, x⟩ k.vec = ⟨w, x * BitVec.twoPow w n⟩ := by
  simp only [value, apply, Literal.fit_of_bits_eq_twoPow h hw]

theorem BinOp.value_pow_mul {δ : ZeroDivision} {k : Literal} {n : Nat} (y : BitVec k.width)
    (h : k.bits = twoPow n) :
    BinOp.value δ .mul k.vec ⟨k.width, y⟩ = ⟨k.width, y * BitVec.twoPow k.width n⟩ := by
  have power : k.vec = ⟨k.width, BitVec.twoPow k.width n⟩ := by
    rw [← Literal.fit_of_bits_eq_twoPow h rfl]
    exact (Vec.mk_fit (x := k.vec) rfl).symm
  rw [power, value_mk]
  exact congrArg (Vec.mk k.width) (BitVec.mul_comm _ _)

namespace Smt

theorem vec_ofInt_natCast {w n : Nat} (h : n < twoPow (min w 64)) :
    (Literal.ofInt w n).vec = ⟨w, BitVec.ofNat w n⟩ := by
  have bits : (Literal.ofInt w n).bits = n := by
    rw [Literal.bits_ofInt, ← Int.natCast_emod, Int.toNat_natCast, Nat.mod_eq_of_lt h]
  simp only [Literal.vec, bits, Literal.width_ofInt]

/-- The standard's signed division differs from the truncating one for a zero divisor only. -/
theorem smtSDiv_eq_sdiv {w : Nat} {x y : BitVec w} (h : y ≠ 0#w) : x.smtSDiv y = x.sdiv y := by
  have unsigned : ∀ a b : BitVec w, b ≠ 0#w → a.smtUDiv b = a.udiv b := fun a b hb => by
    rw [BitVec.smtUDiv_eq, if_neg hb]
    rfl
  have negated : -y ≠ 0#w := by simpa using h
  rw [BitVec.smtSDiv_eq, BitVec.sdiv_eq]
  cases x.msb <;> cases y.msb <;> simp only [unsigned _ _ h, unsigned _ _ negated]

/-- Divisions by zero are as the standard has them, so outside shifts an operator is its function. -/
theorem apply_fnOf {op : BinOp} (h : op.isShift = false) {w : Nat} (x y : BitVec w) :
    (fnOf op).apply x y = op.apply zeroDivision x y := by
  cases op with
  | udiv => simp [fnOf, Fn.apply, BinOp.apply, zeroDivision, BitVec.smtUDiv_eq]
  | sdiv =>
    by_cases hy : y = 0#w
    · subst hy
      simp [fnOf, Fn.apply, BinOp.apply, zeroDivision, BitVec.smtSDiv_zero]
    · simp [fnOf, Fn.apply, BinOp.apply, hy, smtSDiv_eq_sdiv hy]
  | urem | srem =>
    by_cases hy : y = 0#w <;> simp [fnOf, Fn.apply, BinOp.apply, zeroDivision, hy]
  | shl | lshr | ashr => cases h
  | add | sub | mul | and | or | xor => rfl

theorem apply_fnOf_shift {op : BinOp} (h : op.isShift) {w : Nat} (x y : BitVec w) {z : BitVec w}
    (hz : z.toNat = y.toNat % w) : (fnOf op).apply x z = op.apply zeroDivision x y := by
  cases op with
  | shl | lshr | ashr => simp only [fnOf, Fn.apply, BinOp.apply, BitVec.shiftLeft_eq',
      BitVec.ushiftRight_eq', BitVec.sshiftRight_eq', hz]
  | _ => cases h

theorem width_lt_twoPow_min {w : Nat} (h : w < twoPow 32) : w < twoPow (min w 64) := by
  rcases Nat.le_total w 64 with le | le
  · rw [Nat.min_eq_left le]
    exact Nat.lt_two_pow_self
  · rw [Nat.min_eq_right le]
    exact Nat.lt_of_lt_of_le h (twoPow_le_twoPow (by decide))

theorem extract?_low {x : Vec} (h : 0 < x.width) : extract? 0 0 x = some (UnaryOp.trunc.value x) := by
  have bit : x.bits.extractLsb' 0 1 = x.bits.setWidth 1 :=
    (BitVec.setWidth_eq_extractLsb' h).symm
  rw [extract?, if_pos ⟨Nat.le_refl 0, h⟩]
  exact congrArg (fun b => some (Vec.mk 1 b)) bit

theorem zext_value_of_width {x : Vec} (h : x.width = wordWidth) : UnaryOp.zext.value x = x :=
  Vec.mk_fit h

theorem sext_value_of_width {x : Vec} (h : x.width = wordWidth) : UnaryOp.sext.value x = x := by
  obtain ⟨w, b⟩ := x
  subst h
  exact congrArg (Vec.mk wordWidth) (BitVec.signExtend_eq b)

theorem zext_value_eq_padded {x : Vec} (h : x.width ≤ wordWidth) :
    Vec.mk (x.width + (wordWidth - x.width)) (x.bits.setWidth _) = UnaryOp.zext.value x := by
  rw [Nat.add_sub_cancel' h]
  rfl

theorem sext_value_eq_padded {x : Vec} (h : x.width ≤ wordWidth) :
    Vec.mk (x.width + (wordWidth - x.width)) (x.bits.signExtend _) = UnaryOp.sext.value x := by
  rw [Nat.add_sub_cancel' h]
  rfl

theorem value?_bvshl {w n : Nat} (h : n < w) (h64 : w ≤ 64) (x : BitVec w) :
    Fn.bvshl.value? ⟨w, x⟩ (Literal.ofInt w n).vec = some ⟨w, x * BitVec.twoPow w n⟩ := by
  have small : n < 2 ^ w := Nat.lt_trans h Nat.lt_two_pow_self
  rw [vec_ofInt_natCast (by rwa [Nat.min_eq_left h64]), Fn.value?_mk, ← BitVec.shiftLeft_eq_mul_twoPow]
  simp [Fn.apply, Nat.mod_eq_of_lt small]

/-- The right operand as it is written: a shift amount is its remainder by the width. -/
theorem eval_amount {ν : Assignment} {op : BinOp} {r : Expr} {b : Term} {w : Nat} {y : BitVec w}
    (hb : b.eval ν = some ⟨w, y⟩) (small : w < twoPow 32)
    (amounts : ∀ k, r = .literal k → op.isShift → y.toNat < w) :
    ∃ z : BitVec w, (amount op w r b).eval ν = some ⟨w, z⟩ ∧
      (op.isShift → z.toNat = y.toNat % w) ∧ (op.isShift = false → z = y) := by
  by_cases shift : op.isShift
  · cases lit : r.literal? with
    | none =>
      -- the amount is not a literal, so a remainder is taken first
      have hm : modulus? op w r = some (.ofInt w w) := by simp [modulus?, shift, lit]
      have width : (BitVec.ofNat w w).toNat = w := by simp
      refine ⟨y % BitVec.ofNat w w, ?_, fun _ => by rw [BitVec.toNat_umod, width], by simp [shift]⟩
      simp only [amount, hm, Term.eval, hb, Option.bind_some,
        vec_ofInt_natCast (width_lt_twoPow_min small), Fn.value?_mk]
      rfl
    | some k =>
      have hk : r = .literal k := by
        cases r with
        | literal k' => cases lit; rfl
        | leaf | unary | binary => cases lit
      have hm : modulus? op w r = none := by simp [modulus?, lit]
      refine ⟨y, by simp only [amount, hm, hb], fun _ => ?_, fun _ => rfl⟩
      exact (Nat.mod_eq_of_lt (amounts k hk shift)).symm
  · have hm : modulus? op w r = none := by simp [modulus?, shift]
    exact ⟨y, by simp only [amount, hm, hb], fun h => absurd h shift, fun _ => rfl⟩

theorem eval_plain {ν : Assignment} {op : BinOp} {r : Expr} {a b : Term} {w : Nat} {x y : BitVec w}
    (ha : a.eval ν = some ⟨w, x⟩) (hb : b.eval ν = some ⟨w, y⟩) (small : w < twoPow 32)
    (amounts : ∀ k, r = .literal k → op.isShift → y.toNat < w) :
    (Term.app (fnOf op) a (amount op w r b)).eval ν = some ⟨w, op.apply zeroDivision x y⟩ := by
  obtain ⟨z, hz, shifted, plain⟩ := eval_amount hb small amounts
  rw [eval_app (fnOf op) ha hz]
  by_cases shift : op.isShift
  · rw [apply_fnOf_shift shift x y (shifted shift)]
  · rw [Bool.not_eq_true] at shift
    rw [plain shift, apply_fnOf shift]

end Smt

namespace Expr
variable {g : Guards} {ν : Assignment}

theorem width_denote_pos {e : Expr} (sorted : e.WellSorted) :
    0 < (e.denote zeroDivision ν.env).width := by
  induction e with
  | literal l => exact (Literal.sized_iff.1 sorted).1
  | leaf l => exact ν.nonempty _
  | unary op e ih =>
    exact op.resultWidth_pos
  | binary op l r ihl ihr => exact ihl sorted.1

theorem width_le {e : Expr} {w : Nat} (wide : 64 ≤ w) (sorted : e.WellSorted)
    (narrow : ∀ l ∈ e.leaves, l.width ≤ w) : e.width ≤ w := by
  induction e with
  | literal l => exact (Literal.sized_iff.1 sorted).2.trans wide
  | leaf l => exact narrow l (by simp [leaves])
  | unary op e ih => exact op.resultWidth_le.trans ((by decide : wordWidth ≤ 64).trans wide)
  | binary op l r ihl ihr => exact ihl sorted.1 fun x hx => narrow x (by simp [leaves, hx])

theorem width_lt {e : Expr} (sorted : e.WellSorted) (small : ∀ l ∈ e.leaves, l.width < twoPow 32) :
    e.width < twoPow 32 := by
  have le := width_le (w := twoPow 32 - 1) (by decide) sorted fun l hl => Nat.le_pred_of_lt (small l hl)
  exact Nat.lt_of_le_of_lt le (by decide)

theorem eval_encode {e : Expr} (sorted : e.WellSorted) (fits : e.ExtensionsFit)
    (amounts : e.AmountsInRange) (small : ∀ l ∈ e.leaves, l.width < twoPow 32)
    (typed : ∀ l ∈ e.leaves, (ν.env l).width = l.width) :
    (e.encode g).eval ν = some (e.denote zeroDivision ν.env) := by
  induction e with
  | literal l => rfl
  | leaf l => rfl
  | unary op e ih =>
    have width : (e.denote zeroDivision ν.env).width = e.width := width_denote typed
    cases op with
    | trunc =>
      simp only [encode, Term.eval, ih sorted fits amounts small typed, Option.bind_some]
      exact extract?_low (width_denote_pos sorted)
    | zext =>
      have inner := ih sorted fits.1 amounts small typed
      by_cases narrow : e.width < wordWidth
      · simp only [encode, if_pos narrow, Term.eval, inner, Option.map_some]
        rw [← width]
        exact congrArg some (zext_value_eq_padded (width.trans_le fits.2))
      · simp only [encode, if_neg narrow, inner]
        have word : e.width = wordWidth := Nat.le_antisymm fits.2 (Nat.le_of_not_lt narrow)
        exact congrArg some (zext_value_of_width (width.trans word)).symm
    | sext =>
      have inner := ih sorted fits.1 amounts small typed
      by_cases narrow : e.width < wordWidth
      · simp only [encode, if_pos narrow, Term.eval, inner, Option.map_some]
        rw [← width]
        exact congrArg some (sext_value_eq_padded (width.trans_le fits.2))
      · simp only [encode, if_neg narrow, inner]
        have word : e.width = wordWidth := Nat.le_antisymm fits.2 (Nat.le_of_not_lt narrow)
        exact congrArg some (sext_value_of_width (width.trans word)).symm
  | binary op l r ihl ihr =>
    have typedl : ∀ x ∈ l.leaves, (ν.env x).width = x.width := fun x hx => typed x (by simp [leaves, hx])
    have typedr : ∀ x ∈ r.leaves, (ν.env x).width = x.width := fun x hx => typed x (by simp [leaves, hx])
    have smalll : ∀ x ∈ l.leaves, x.width < twoPow 32 := fun x hx => small x (by simp [leaves, hx])
    have smallr : ∀ x ∈ r.leaves, x.width < twoPow 32 := fun x hx => small x (by simp [leaves, hx])
    have hl := ihl sorted.1 fits.1 amounts.1 smalll typedl
    have hr := ihr sorted.2.1 fits.2 amounts.2.1 smallr typedr
    have widthl : (l.denote zeroDivision ν.env).width = l.width := width_denote typedl
    have widthr : (r.denote zeroDivision ν.env).width = l.width :=
      (width_denote typedr).trans sorted.2.2.symm
    obtain ⟨x, hx⟩ := Vec.exists_bits widthl
    obtain ⟨y, hy⟩ := Vec.exists_bits widthr
    rcases shape_cases g op l r with ⟨hs, rfl, k, rfl, zero⟩ | ⟨hs, rfl, k, rfl, zero⟩ |
      ⟨n, hs, rfl, k, rfl, pow⟩ | ⟨n, hs, rfl, k, rfl, pow⟩ | hs
    · simp only [encode, hs, hl, denote]
      rw [BinOp.value_add_zero zero]
    · simp only [encode, hs, hr, denote]
      rw [BinOp.value_zero_add zero widthr.symm]
    · have lt : n < l.width := sorted.2.2 ▸ Literal.exponent_lt_width pow
      have le : l.width ≤ 64 := sorted.2.2 ▸ (Literal.sized_iff.1 sorted.2.1).2
      simp only [encode, hs, Term.eval, hl, denote, hx, Option.bind_some, value?_bvshl lt le]
      rw [BinOp.value_mul_pow x pow sorted.2.2.symm]
    · have lt : n < k.width := Literal.exponent_lt_width pow
      have le : k.width ≤ 64 := (Literal.sized_iff.1 sorted.1).2
      obtain ⟨y, hy⟩ : ∃ y : BitVec k.width, r.denote zeroDivision ν.env = ⟨k.width, y⟩ := ⟨y, hy⟩
      have shifted : (Term.app .bvshl (r.encode g) (.const (.ofInt k.width n))).eval ν =
          some ⟨k.width, y * BitVec.twoPow k.width n⟩ := by
        simp only [Term.eval, hr, hy, Option.bind_some]
        exact value?_bvshl lt le y
      simp only [encode, hs, denote, hy]
      exact shifted.trans (congrArg some (BinOp.value_pow_mul y pow).symm)
    · simp only [encode, hs]
      rw [eval_plain (hl.trans (congrArg some hx)) (hr.trans (congrArg some hy)) (width_lt sorted.1 smalll)]
      · simp only [denote, hx, hy, BinOp.value_mk]
      · rintro k rfl shift
        have hk : y.toNat = k.bits := Literal.toNat_of_vec_eq hy
        exact hk.trans_lt (amounts.2.2 k rfl shift)

theorem width_le_of_mem_mentions {e : Expr} {w : Nat} (wide : 64 ≤ w) (sorted : e.WellSorted)
    (narrow : ∀ l ∈ e.leaves, l.width ≤ w) {k : Literal} (h : .const k ∈ e.mentions g) :
    k.width ≤ w := by
  induction e with
  | literal l =>
    obtain rfl : k = l := by simpa [mentions] using h
    exact (Literal.sized_iff.1 sorted).2.trans wide
  | leaf l => simp [mentions] at h
  | unary op e ih => exact ih sorted narrow h
  | binary op l r ihl ihr =>
    have narrowl : ∀ x ∈ l.leaves, x.width ≤ w := fun x hx => narrow x (by simp [leaves, hx])
    have narrowr : ∀ x ∈ r.leaves, x.width ≤ w := fun x hx => narrow x (by simp [leaves, hx])
    have made : ∀ z, k = .ofInt l.width z → k.width ≤ w := by
      rintro z rfl
      exact width_le wide sorted.1 narrowl
    simp only [mentions] at h
    split at h
    · exact ihl sorted.1 narrowl h
    · exact ihr sorted.2.1 narrowr h
    · rcases List.mem_append.1 h with h | h
      · exact ihl sorted.1 narrowl h
      · exact made _ (by simpa using h)
    · rcases List.mem_append.1 h with h | h
      · exact ihr sorted.2.1 narrowr h
      · exact made _ (by simpa using h)
    · rcases List.mem_append.1 h with h | h
      · rcases List.mem_append.1 h with h | h
        · exact ihl sorted.1 narrowl h
        · exact ihr sorted.2.1 narrowr h
      · refine made l.width ?_
        unfold modulus? at h
        split at h <;> simp_all

end Expr

namespace Clause
variable {g : Guards} {ν : Assignment}

theorem WellSorted.exprs {c : Clause} (sorted : c.WellSorted) {e : Expr} (he : e ∈ c.exprs) :
    e.WellSorted := by
  induction c with
  | atom pred l r =>
    rcases List.mem_pair.1 he with rfl | rfl
    · exact sorted.1
    · exact sorted.2.1
  | not c ih => exact ih sorted he
  | and a b iha ihb | or a b iha ihb | xor a b iha ihb =>
    rcases List.mem_append.1 he with he | he
    · exact iha sorted.1 he
    · exact ihb sorted.2 he

theorem eval_comparison (p : Predicate) {a b : Term} {w : Nat} {x y : BitVec w}
    (ha : a.eval ν = some ⟨w, x⟩) (hb : b.eval ν = some ⟨w, y⟩) :
    (comparison p a b).eval ν = some (p.test x y) := by
  cases p <;> simp [comparison, Formula.eval, ha, hb, Rel.test, Predicate.test]

theorem eval_encode {c : Clause} (sorted : c.WellSorted) (fits : c.ExtensionsFit)
    (amounts : c.AmountsInRange) (small : ∀ l ∈ c.leaves, l.width < twoPow 32)
    (typed : ∀ l ∈ c.leaves, (ν.env l).width = l.width) :
    (c.encode g).eval ν = some (c.denote zeroDivision ν.env) := by
  induction c with
  | atom pred l r =>
    have typedl : ∀ x ∈ l.leaves, (ν.env x).width = x.width := fun x hx => typed x (by simp [hx])
    have typedr : ∀ x ∈ r.leaves, (ν.env x).width = x.width := fun x hx => typed x (by simp [hx])
    have hl := Expr.eval_encode (g := g) sorted.1 (fits l (by simp [exprs])) (amounts l (by simp [exprs]))
      (fun x hx => small x (by simp [hx])) typedl
    have hr := Expr.eval_encode (g := g) sorted.2.1 (fits r (by simp [exprs])) (amounts r (by simp [exprs]))
      (fun x hx => small x (by simp [hx])) typedr
    have widthl : (l.denote zeroDivision ν.env).width = l.width := Expr.width_denote typedl
    have widthr : (r.denote zeroDivision ν.env).width = l.width :=
      (Expr.width_denote typedr).trans sorted.2.2.symm
    obtain ⟨x, hx⟩ := Vec.exists_bits widthl
    obtain ⟨y, hy⟩ := Vec.exists_bits widthr
    simp only [encode, denote]
    rw [eval_comparison pred (hl.trans (congrArg some hx)) (hr.trans (congrArg some hy)), hx, hy,
      Predicate.truth_mk]
  | not c ih => simp only [encode, Formula.eval, denote, ih sorted fits amounts small typed, Option.map_some]
  | and a b iha ihb | or a b iha ihb | xor a b iha ihb =>
    have ha := iha sorted.1 (fun e he => fits e (by simp [exprs, he]))
      (fun e he => amounts e (by simp [exprs, he])) (fun x hx => small x (by simp [hx]))
      (fun x hx => typed x (by simp [hx]))
    have hb := ihb sorted.2 (fun e he => fits e (by simp [exprs, he]))
      (fun e he => amounts e (by simp [exprs, he])) (fun x hx => small x (by simp [hx]))
      (fun x hx => typed x (by simp [hx]))
    simp only [encode, Formula.eval, denote, ha, hb, Option.bind_some, Option.map_some]

/-- Whatever side conditions are asked for, the formula of a clause is well-sorted and true exactly where
the clause is, for every assignment that gives each name a bit-vector of the width of its leaves. Unless a
leaf is too wide for it, every constant can be written. -/
theorem encode_means_clause (g : Guards) (c : Clause) (ν : Assignment) (sorted : c.WellSorted)
    (fits : c.ExtensionsFit) (amounts : c.AmountsInRange)
    (small : ∀ l ∈ c.leaves, l.width < twoPow 32)
    (typed : ∀ l ∈ c.leaves, (ν.value l.solverName).width = l.width) :
    (c.encode g).eval ν = some (c.denote zeroDivision fun l => ν.value l.solverName) ∧
      ((∀ l ∈ c.leaves, l.width ≤ widestConstant) →
        ∀ k, .const k ∈ c.mentions g → k.width ≤ widestConstant) := by
  refine ⟨eval_encode sorted fits amounts small typed, fun narrow k hk => ?_⟩
  obtain ⟨e, he, hk⟩ := List.mem_flatMap.1 hk
  have leaves : ∀ l ∈ e.leaves, l ∈ c.leaves := fun l hl => List.mem_flatMap.2 ⟨e, he, hl⟩
  exact Expr.width_le_of_mem_mentions (by decide) (sorted.exprs he) (fun l hl => narrow l (leaves l hl)) hk

/-- Eight times `x1` against `x2` shifted by `x1`, every name being 5. -/
theorem encode_means_clause_at_five :
    let c := Clause.atom .ne (.binary .mul (.result 1 32) (.ofInt 32 8))
      (.binary .shl (.result 2 32) (.result 1 32))
    let ν : Assignment := ⟨fun _ => ⟨32, 5⟩, fun _ => by decide⟩
    (c.encode {}).eval ν = some true ∧ ∀ k, .const k ∈ c.mentions {} → k.width ≤ widestConstant := by
  intro c ν
  have sorted : c.WellSorted := by simp [c, WellSorted, Expr.WellSorted, Expr.result, Expr.ofInt, Expr.width, Literal.sized]
  have fits : c.ExtensionsFit := by simp [c, ExtensionsFit, exprs, Expr.ExtensionsFit, Expr.result, Expr.ofInt]
  have amounts : c.AmountsInRange := by simp [c, AmountsInRange, exprs, Expr.AmountsInRange, Expr.result, Expr.ofInt, BinOp.isShift]
  have small : ∀ l ∈ c.leaves, l.width < twoPow 32 := by decide
  have typed : ∀ l ∈ c.leaves, (ν.value l.solverName).width = l.width := by decide
  obtain ⟨means, writes⟩ := encode_means_clause {} c ν sorted fits amounts small typed
  exact ⟨means.trans (by decide), writes (by decide)⟩

end Clause
end SsaFacts
