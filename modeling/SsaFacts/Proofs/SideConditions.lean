import SsaFacts.Proofs.Translation

/-! What the side conditions of a term say: no operation on words leaves the range that is asked for, and
no divisor is zero. They do not depend on how the term is written. -/
namespace SsaFacts
open Smt

def signOf (x : BitVec wordWidth) : BitVec 1 := x.extractLsb' (wordWidth - 1) 1

namespace BinOp

def inRange (op : BinOp) (x y : BitVec wordWidth) : Bool :=
  match op with
  | add => signOf x != signOf y || signOf y == signOf (x + y)
  | sub => signOf x != signOf (-y) || signOf (-y) == signOf (x - y)
  | mul =>
    let product := x.signExtend 64 * y.signExtend 64
    (BitVec.ofInt 64 wordMin).sle product && product.sle (BitVec.ofInt 64 wordMax)
  | shl => (0#(wordWidth)).sle x && x.sle (BitVec.ofInt wordWidth wordMax >>> (y.toNat % wordWidth))
  | _ => true

/-- The same of the operands as they are written, where a shift amount is not reduced any more. -/
def rangeTest (op : BinOp) (x z : BitVec wordWidth) : Bool :=
  match op with
  | shl => (0#(wordWidth)).sle x && x.sle (BitVec.ofInt wordWidth wordMax >>> z.toNat)
  | op => op.inRange x z

theorem rangeTest_eq {op : BinOp} {x y z : BitVec wordWidth}
    (shift : op.isShift → z.toNat = y.toNat % wordWidth) (plain : op.isShift = false → z = y) :
    op.rangeTest x z = op.inRange x y := by
  cases op with
  | shl => rw [rangeTest, inRange, shift rfl]
  | lshr | ashr => rfl
  | _ =>
    obtain rfl := plain rfl
    rfl

def guarded (g : Guards) (op : BinOp) (x y : BitVec wordWidth) : Bool :=
  if op.isDivision then !g.division || y != 0#(wordWidth) else !g.overflow || op.inRange x y

theorem guarded_default (op : BinOp) (x y : BitVec wordWidth) : op.guarded {} x y := by
  unfold guarded
  split <;> rfl

theorem guarded_add_zero (g : Guards) (x : BitVec wordWidth) : guarded g add x 0#(wordWidth) := by
  by_cases same : signOf x = signOf 0#(wordWidth) <;> simp [guarded, isDivision, inRange, same]

theorem guarded_zero_add (g : Guards) (x : BitVec wordWidth) : guarded g add 0#(wordWidth) x := by
  simp [guarded, isDivision, inRange]

theorem guarded_mul {g : Guards} (none : g.overflow = false) (x y : BitVec wordWidth) :
    guarded g mul x y := by
  simp [guarded, isDivision, none]

end BinOp

namespace Smt
variable {g : Guards} {ν : Assignment} {op : BinOp} {a b r : Term} {x y z : BitVec wordWidth}

theorem overflow_of_scaled {l r : Expr} {s : Shape} (h : shape g .mul l r = s) (scaled : s ≠ .plain) :
    g.overflow = false := by
  by_contra on
  rw [Bool.not_eq_false] at on
  exact scaled (by rw [← h]; simp [shape, on])

theorem eval_signBit (h : a.eval ν = some ⟨wordWidth, x⟩) :
    (signBit a).eval ν = some ⟨1, signOf x⟩ := by
  simp [signBit, Term.eval, h, extract?, signOf, wordWidth]

theorem eval_sameSign (ha : a.eval ν = some ⟨wordWidth, x⟩) (hb : b.eval ν = some ⟨wordWidth, y⟩)
    (hr : r.eval ν = some ⟨wordWidth, z⟩) :
    (overflowGuard.sameSign a r b).eval ν = some (signOf x != signOf y || signOf y == signOf z) := by
  have alike := eval_rel .eq (eval_signBit ha) (eval_signBit hb)
  have kept := eval_rel .eq (eval_signBit hb) (eval_signBit hr)
  exact eval_or (eval_not alike) kept

/-- The overflow condition of an operation has the truth value of its test. -/
theorem eval_overflowGuard {f : Formula} (ha : a.eval ν = some ⟨wordWidth, x⟩)
    (hb : b.eval ν = some ⟨wordWidth, z⟩) (hf : overflowGuard op a b (.app (fnOf op) a b) = some f) :
    f.eval ν = some (op.rangeTest x z) := by
  cases op with
  | add =>
    cases hf
    exact eval_sameSign ha hb (eval_app .bvadd ha hb)
  | sub =>
    cases hf
    have negated : (Term.neg b).eval ν = some ⟨wordWidth, -z⟩ := by
      simp only [Term.eval, hb, Option.map_some]
    exact eval_sameSign ha negated (eval_app .bvsub ha hb)
  | mul =>
    cases hf
    have lowest : (Term.const (.ofInt 64 wordMin)).eval ν = some ⟨64, BitVec.ofInt 64 wordMin⟩ := by
      rw [Term.eval, show (Literal.ofInt 64 wordMin).vec = ⟨64, BitVec.ofInt 64 wordMin⟩ by decide]
    have greatest : (Term.const (.ofInt 64 wordMax)).eval ν = some ⟨64, BitVec.ofInt 64 wordMax⟩ := by
      rw [Term.eval, show (Literal.ofInt 64 wordMax).vec = ⟨64, BitVec.ofInt 64 wordMax⟩ by decide]
    have wide {t : Term} {u : BitVec wordWidth} (h : t.eval ν = some ⟨wordWidth, u⟩) :
        (Term.signExtend wordWidth t).eval ν = some ⟨64, u.signExtend 64⟩ := by
      rw [Term.eval, h]
      rfl
    have product := eval_app .bvmul (wide ha) (wide hb)
    exact eval_and (eval_rel .bvsge product lowest) (eval_rel .bvsle product greatest)
  | shl =>
    cases hf
    have zero : (Term.const (.word 0)).eval ν = some ⟨wordWidth, 0#(wordWidth)⟩ := by
      rw [Term.eval, show (Literal.word 0).vec = ⟨wordWidth, 0#(wordWidth)⟩ by decide]
    have greatest : (Term.const (.word wordMax)).eval ν =
        some ⟨wordWidth, BitVec.ofInt wordWidth wordMax⟩ := by
      rw [Term.eval, show (Literal.word wordMax).vec = ⟨wordWidth, BitVec.ofInt wordWidth wordMax⟩ by decide]
    have limit := eval_app .bvlshr greatest hb
    exact eval_and (eval_rel .bvsge ha zero) (eval_rel .bvsle ha limit)
  | _ => cases hf

theorem rangeTest_of_overflowGuard_eq_none (hf : overflowGuard op a b r = none) : op.rangeTest x z = true := by
  cases op with
  | add | sub | mul | shl => cases hf
  | _ => rfl

/-- The overflow condition of an operation tests the operands as words. A shift amount is the remainder by
the width. -/
theorem overflowGuard_holds (ha : a.eval ν = some ⟨wordWidth, x⟩) (hb : b.eval ν = some ⟨wordWidth, z⟩)
    (shift : op.isShift → z.toNat = y.toNat % wordWidth) (plain : op.isShift = false → z = y) :
    (∀ f ∈ overflowGuard op a b (.app (fnOf op) a b), f.eval ν = some true) ↔ op.inRange x y := by
  rw [← BinOp.rangeTest_eq shift plain]
  cases hf : overflowGuard op a b (.app (fnOf op) a b) with
  | none => simp [rangeTest_of_overflowGuard_eq_none hf]
  | some f => simp [eval_overflowGuard ha hb hf]

theorem guard?_holds (ha : a.eval ν = some ⟨wordWidth, x⟩) (hb : b.eval ν = some ⟨wordWidth, z⟩)
    (shift : op.isShift → z.toNat = y.toNat % wordWidth) (plain : op.isShift = false → z = y) :
    (∀ f ∈ guard? g op a b (.app (fnOf op) a b), f.eval ν = some true) ↔ op.guarded g x y := by
  unfold guard? BinOp.guarded
  by_cases division : op.isDivision
  · have unshifted : op.isShift = false := by
      cases op <;> first | rfl | cases division
    obtain rfl := plain unshifted
    have zero : (Term.const (.word 0)).eval ν = some ⟨wordWidth, 0#(wordWidth)⟩ := by
      rw [Term.eval, show (Literal.word 0).vec = ⟨wordWidth, 0#(wordWidth)⟩ by decide]
    have test := eval_not (eval_rel .eq hb zero)
    cases g.division <;> simp [division, test, Rel.test]
  · cases g.overflow with
    | false => simp [division]
    | true => simpa [division] using overflowGuard_holds ha hb shift plain

end Smt

namespace Expr

/-- Every operation on words meets its side condition. -/
def Guarded (g : Guards) (ρ : Leaf → Vec) : Expr → Prop
  | literal _ | leaf _ => True
  | unary _ e => e.Guarded g ρ
  | binary op l r => l.Guarded g ρ ∧ r.Guarded g ρ ∧ (l.width = wordWidth →
      op.guarded g ((l.denote zeroDivision ρ).fit wordWidth) ((r.denote zeroDivision ρ).fit wordWidth))

variable {g : Guards} {ρ σ : Leaf → Vec} {ν : Assignment} {e : Expr}

theorem guarded_default (e : Expr) : e.Guarded {} ρ := by
  induction e with
  | literal l => trivial
  | leaf l => trivial
  | unary op e ih => exact ih
  | binary op l r ihl ihr => exact ⟨ihl, ihr, fun _ => op.guarded_default _ _⟩

theorem guarded_congr (h : ∀ l ∈ e.leaves, ρ l = σ l) : e.Guarded g ρ ↔ e.Guarded g σ := by
  induction e with
  | literal l => rfl
  | leaf l => rfl
  | unary op e ih => exact ih h
  | binary op l r ihl ihr =>
    have left : ∀ x ∈ l.leaves, ρ x = σ x := fun x hx => h x (by simp [leaves, hx])
    have right : ∀ x ∈ r.leaves, ρ x = σ x := fun x hx => h x (by simp [leaves, hx])
    simp only [Guarded, ihl left, ihr right, denote_congr left, denote_congr right]

theorem fit_zero {k : Literal} (zero : k.bits = 0) : k.vec.fit wordWidth = 0#(wordWidth) := by
  rw [Literal.vec_of_bits_zero zero, Vec.fit]
  simp

theorem guard_plain {op : BinOp} {l r : Expr} {a b : Term} (word : l.width = wordWidth)
    (ha : a.eval ν = some (l.denote zeroDivision ν.env)) (hb : b.eval ν = some (r.denote zeroDivision ν.env))
    (widthl : (l.denote zeroDivision ν.env).width = l.width)
    (widthr : (r.denote zeroDivision ν.env).width = l.width)
    (amounts : ∀ k, r = .literal k → op.isShift → k.bits < l.width) :
    (∀ f ∈ guard? g op a (amount op l.width r b) (.app (fnOf op) a (amount op l.width r b)),
      f.eval ν = some true) ↔
      op.guarded g ((l.denote zeroDivision ν.env).fit wordWidth)
        ((r.denote zeroDivision ν.env).fit wordWidth) := by
  rw [word] at widthl widthr amounts ⊢
  obtain ⟨x, hx⟩ := Vec.exists_bits widthl
  obtain ⟨y, hy⟩ := Vec.exists_bits widthr
  have below : ∀ k, r = .literal k → op.isShift → y.toNat < wordWidth := by
    rintro k rfl shift
    exact (Literal.toNat_of_vec_eq hy).trans_lt (amounts k rfl shift)
  obtain ⟨z, hz, shifted, plain⟩ := eval_amount (hb.trans (congrArg some hy)) (by decide) below
  rw [hx, hy, Vec.fit_mk, Vec.fit_mk]
  exact guard?_holds (ha.trans (congrArg some hx)) hz shifted plain

/-- The side conditions that are written for a term are those that it has to meet. -/
theorem guards_hold (sorted : e.WellSorted) (fits : e.ExtensionsFit)
    (amounts : e.AmountsInRange) (small : ∀ l ∈ e.leaves, l.width < twoPow 32)
    (typed : ∀ l ∈ e.leaves, (ν.env l).width = l.width) :
    (∀ f ∈ e.guards g, f.eval ν = some true) ↔ e.Guarded g ν.env := by
  induction e with
  | literal l => simp [guards, Guarded]
  | leaf l => simp [guards, Guarded]
  | unary op e ih =>
    have inner : e.ExtensionsFit := by
      cases op with
      | trunc => exact fits
      | zext | sext => exact fits.1
    exact ih sorted inner amounts small typed
  | binary op l r ihl ihr =>
    have typedl : ∀ x ∈ l.leaves, (ν.env x).width = x.width := fun x hx => typed x (by simp [leaves, hx])
    have typedr : ∀ x ∈ r.leaves, (ν.env x).width = x.width := fun x hx => typed x (by simp [leaves, hx])
    have smalll : ∀ x ∈ l.leaves, x.width < twoPow 32 := fun x hx => small x (by simp [leaves, hx])
    have smallr : ∀ x ∈ r.leaves, x.width < twoPow 32 := fun x hx => small x (by simp [leaves, hx])
    have left := ihl sorted.1 fits.1 amounts.1 smalll typedl
    have right := ihr sorted.2.1 fits.2 amounts.2.1 smallr typedr
    rcases shape_cases g op l r with ⟨hs, rfl, k, rfl, zero⟩ | ⟨hs, rfl, k, rfl, zero⟩ |
      ⟨n, hs, rfl, k, rfl, pow⟩ | ⟨n, hs, rfl, k, rfl, pow⟩ | hs
    · -- a zero summand meets every condition, so that none is written
      rw [guards, hs, left, Guarded, denote, fit_zero zero]
      simp [Guarded, BinOp.guarded_add_zero]
    · rw [guards, hs, right, Guarded, denote, fit_zero zero]
      simp [Guarded, BinOp.guarded_zero_add]
    · have off : g.overflow = false := overflow_of_scaled hs (by simp)
      rw [guards, hs, left, Guarded]
      simp [Guarded, BinOp.guarded_mul off]
    · have off : g.overflow = false := overflow_of_scaled hs (by simp)
      rw [guards, hs, right, Guarded]
      simp [Guarded, BinOp.guarded_mul off]
    · have hl := eval_encode (g := g) sorted.1 fits.1 amounts.1 smalll typedl
      have hr := eval_encode (g := g) sorted.2.1 fits.2 amounts.2.1 smallr typedr
      have widthl : (l.denote zeroDivision ν.env).width = l.width := width_denote typedl
      have widthr : (r.denote zeroDivision ν.env).width = l.width :=
        (width_denote typedr).trans sorted.2.2.symm
      simp only [guards, hs, List.forall_mem_append, left, right, Guarded, and_assoc]
      refine and_congr_right fun _ => and_congr_right fun _ => ?_
      by_cases word : l.width = wordWidth
      · simpa [word] using guard_plain (g := g) word hl hr widthl widthr amounts.2.2
      · simp [word]

end Expr

namespace Clause
variable {g : Guards} {ρ σ : Leaf → Vec} {ν : Assignment} {c : Clause}

def Guarded (g : Guards) (ρ : Leaf → Vec) (c : Clause) : Prop := ∀ e ∈ c.exprs, e.Guarded g ρ

theorem guarded_default (c : Clause) : c.Guarded {} ρ := fun e _ => e.guarded_default

theorem guarded_congr (h : ∀ l ∈ c.leaves, ρ l = σ l) : c.Guarded g ρ ↔ c.Guarded g σ :=
  forall₂_congr fun _ he => Expr.guarded_congr fun l hl => h l (List.mem_flatMap.2 ⟨_, he, hl⟩)

/-- The side conditions that are written for a clause are those that its terms have to meet. -/
theorem guards_hold (sorted : c.WellSorted) (fits : c.ExtensionsFit)
    (amounts : c.AmountsInRange) (small : ∀ l ∈ c.leaves, l.width < twoPow 32)
    (typed : ∀ l ∈ c.leaves, (ν.env l).width = l.width) :
    (∀ f ∈ c.guards g, f.eval ν = some true) ↔ c.Guarded g ν.env := by
  have each : ∀ e ∈ c.exprs, ((∀ f ∈ e.guards g, f.eval ν = some true) ↔ e.Guarded g ν.env) := by
    intro e he
    exact Expr.guards_hold (sorted.exprs he) (fits e he) (amounts e he)
      (fun l hl => small l (List.mem_flatMap.2 ⟨e, he, hl⟩))
      (fun l hl => typed l (List.mem_flatMap.2 ⟨e, he, hl⟩))
  constructor
  · intro h e he
    exact (each e he).1 fun f hf => h f (List.mem_flatMap.2 ⟨e, he, hf⟩)
  · intro h f hf
    obtain ⟨e, he, hf⟩ := List.mem_flatMap.1 hf
    exact (each e he).2 (h e he) f hf

end Clause
end SsaFacts
