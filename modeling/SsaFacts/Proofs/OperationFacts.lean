import SsaFacts.Proofs.Operations
import SsaFacts.Proofs.Typing

/-! How operations are computed, rule by rule. The fact that defines a binary operation, a comparison, a cast or a
selection holds exactly where the result follows from the operands by a rule. -/
namespace SsaFacts

/-- What an amount counts: a constant is taken as it is written, with all its bits. -/
def Valuation.amount {p : Program} (ρ : Valuation p) (v : ValueId) : Int :=
  match (p.kind? v).bind Kind.const? with
  | some c => c
  | none => (ρ.read v).bits.toNat

def BinOp.shifted {w : Nat} (op : BinOp) (x : BitVec w) (n : Nat) : BitVec w :=
  match op with
  | shl => x <<< n
  | lshr => x >>> n
  | ashr => x.sshiftRight n
  | _ => x

def Op.isOperation : Op → Bool
  | binary .. | icmp .. | cast .. | select .. => true
  | _ => false

/-- The rules for operations at `w` bits. -/
inductive Op.Evaluates {p : Program} (δ : ZeroDivision) (ρ : Valuation p) (w : Nat) : Op → Vec → Prop
  | binary {op l r} {x y : BitVec w} : op.isShift = false → ρ.read l = ⟨w, x⟩ → ρ.read r = ⟨w, y⟩ →
      Evaluates δ ρ w (.binary op l r) ⟨w, op.apply δ x y⟩
  /-- The amount counts modulo the width. -/
  | shift {op l r} {x : BitVec w} : op.isShift = true → ρ.read l = ⟨w, x⟩ →
      Evaluates δ ρ w (.binary op l r) ⟨w, op.shifted x (ρ.amount r % w).toNat⟩
  | icmp {pred l r u} {x y : BitVec u} : ρ.read l = ⟨u, x⟩ → ρ.read r = ⟨u, y⟩ →
      Evaluates δ ρ w (.icmp pred l r) (.ofBool (pred.test x y))
  | zext {x u} {b : BitVec u} : ρ.read x = ⟨u, b⟩ → u < w → Evaluates δ ρ w (.cast .zext x) ⟨w, b.setWidth w⟩
  | sext {x u} {b : BitVec u} : ρ.read x = ⟨u, b⟩ → u < w → Evaluates δ ρ w (.cast .sext x) ⟨w, b.signExtend w⟩
  | low {op x u} {b : BitVec u} : ρ.read x = ⟨u, b⟩ → w < u → Evaluates δ ρ w (.cast op x) (.ofBool (b.getLsbD 0))
  | same {op x} {b : BitVec w} : ρ.read x = ⟨w, b⟩ → Evaluates δ ρ w (.cast op x) ⟨w, b⟩
  | ifTrue {c t f} : ρ.read c = .ofBool true → Evaluates δ ρ w (.select c t f) (ρ.read t)
  | ifFalse {c t f} : ρ.read c = .ofBool false → Evaluates δ ρ w (.select c t f) (ρ.read f)

section
variable {p : Program} {δ : ZeroDivision} {ρ : Valuation p} {v l r : ValueId} {w : Nat} {x y : Vec}

theorem Valuation.toNat_read_mod (ρ : Valuation p) (v : ValueId) :
    (ρ.read v).bits.toNat % p.modelWidth v = (ρ.amount v % p.modelWidth v).toNat := by
  unfold amount
  split
  case h_1 c const =>
    rw [read, const]
    dsimp only
    rcases p.modelWidth_cases v with one | word
    · rw [one, boolWidth, Nat.mod_one]
      omega
    · rw [word, wordWidth, BitVec.toNat_ofInt]
      omega
  case h_2 =>
    rw [← Int.natCast_emod, Int.toNat_natCast]

theorem BinOp.apply_shift {op : BinOp} (shift : op.isShift) (b d : BitVec w) :
    op.apply δ b d = op.shifted b (d.toNat % w) := by
  cases op with
  | shl | lshr | ashr => rfl
  | _ => cases shift

namespace Op

theorem evaluates_binary {op : BinOp} (left : p.modelWidth l = w) (right : p.modelWidth r = w) :
    (Op.binary op l r).Evaluates δ ρ w y ↔ y = op.value δ (ρ.read l) (ρ.read r) := by
  obtain ⟨b, hb⟩ := Vec.exists_bits ((ρ.width_read l).trans left)
  obtain ⟨d, hd⟩ := Vec.exists_bits ((ρ.width_read r).trans right)
  have value : op.value δ (ρ.read l) (ρ.read r) = ⟨w, op.apply δ b d⟩ := by rw [hb, hd, BinOp.value_mk]
  have amount : d.toNat % w = (ρ.amount r % w).toNat := by
    have counted := ρ.toNat_read_mod r
    rwa [right, hd] at counted
  rw [value]
  constructor
  · rintro (⟨-, hx, hy⟩ | ⟨shift, hx⟩)
    · cases hb.symm.trans hx
      cases hd.symm.trans hy
      rfl
    · cases hb.symm.trans hx
      rw [BinOp.apply_shift shift, amount]
  · rintro rfl
    by_cases shift : op.isShift
    · rw [BinOp.apply_shift shift, amount]
      exact .shift shift hb
    · exact .binary (by simpa using shift) hb hd

theorem evaluates_icmp {pred : Predicate} (same : p.modelWidth l = p.modelWidth r) :
    (Op.icmp pred l r).Evaluates δ ρ w y ↔ y = .ofBool (pred.truth (ρ.read l) (ρ.read r)) := by
  obtain ⟨b, hb⟩ := Vec.exists_bits ((ρ.width_read l).trans same)
  obtain ⟨d, hd⟩ := Vec.exists_bits (ρ.width_read r)
  rw [hb, hd, Predicate.truth_mk]
  constructor
  · intro h
    cases h with
    | icmp hx hy =>
      cases hb.symm.trans hx
      cases hd.symm.trans hy
      rfl
  · rintro rfl
    exact .icmp hb hd

theorem trunc_value {u : Nat} (b : BitVec u) : UnaryOp.trunc.value ⟨u, b⟩ = .ofBool (b.getLsbD 0) := by
  refine congrArg (Vec.mk 1) (BitVec.eq_of_getLsbD_eq fun i lt => ?_)
  obtain rfl : i = 0 := Nat.lt_one_iff.1 lt
  simp [UnaryOp.apply, UnaryOp.resultWidth, boolWidth]

theorem evaluates_cast {op : CastOp} (sizes : w = boolWidth ∨ w = wordWidth) :
    (Op.cast op l).Evaluates δ ρ w y ↔ op.result? w (ρ.read l) = some y := by
  have pos : 0 < p.modelWidth l := by
    rcases p.modelWidth_cases l with width | width <;> simp [width, boolWidth, wordWidth]
  have width {u : Nat} {b : BitVec u} (read : ρ.read l = ⟨u, b⟩) : p.modelWidth l = u := by
    rw [← ρ.width_read l, read]
  -- what is wider than another value is a word
  have word {u : Nat} {b : BitVec u} (read : ρ.read l = ⟨u, b⟩) (wider : u < w) : w = wordWidth := by
    have := width read
    have : w ≠ 1 := by omega
    exact sizes.resolve_left this
  unfold CastOp.result?
  constructor
  · intro h
    cases h with
    | zext hx wider =>
      obtain rfl := word hx wider
      rw [hx, if_pos wider]
      rfl
    | sext hx wider =>
      obtain rfl := word hx wider
      rw [hx, if_pos wider]
      rfl
    | low hx narrower =>
      rw [hx, if_neg narrower.not_gt, if_pos narrower, trunc_value]
    | same hx =>
      rw [hx, if_neg (lt_irrefl w), if_neg (lt_irrefl w)]
  · intro result
    obtain ⟨b, hb⟩ := Vec.exists_bits (ρ.width_read l)
    rw [hb] at result
    split at result
    case isTrue wider =>
      obtain rfl := word hb wider
      split at result <;> cases result
      · exact .zext hb wider
      · exact .sext hb wider
    case isFalse notWider =>
      split at result <;> cases result
      case isTrue narrower =>
        rw [trunc_value]
        exact .low hb narrower
      case isFalse notNarrower =>
        obtain rfl : w = p.modelWidth l := le_antisymm (not_lt.1 notWider) (not_lt.1 notNarrower)
        exact .same hb

theorem evaluates_select {c t f : ValueId} (bit : p.modelWidth c = boolWidth) :
    (Op.select c t f).Evaluates δ ρ w y ↔ y = if (ρ.read c).bits = 0 then ρ.read f else ρ.read t := by
  obtain ⟨b, hb⟩ := Vec.exists_bool ((ρ.width_read c).trans bit)
  have zero : (ρ.read c).bits = 0 ↔ b = false := by rw [hb, Vec.bits_ofBool]
  constructor
  · intro h
    cases h with
    | ifTrue hc =>
      rw [if_neg]
      rw [zero, Vec.ofBool_inj.1 (hb.symm.trans hc)]
      decide
    | ifFalse hc => rw [if_pos (zero.2 (Vec.ofBool_inj.1 (hb.symm.trans hc)))]
  · rintro rfl
    split
    case isTrue isFalse => exact .ifFalse (hb.trans (by rw [zero.1 isFalse]))
    case isFalse isTrue => exact .ifTrue (hb.trans (by rw [Bool.of_not_eq_false (mt zero.2 isTrue)]))

end Op
end

namespace Subject
variable {s : Subject} {v : ValueId} {c : Clause} {op : Op}

theorem width_cond_of_inSelect {cond t f : ValueId} (found : s.inSelect v cond t f = .ok (some c)) :
    s.program.modelWidth cond = boolWidth := by
  obtain ⟨seen, -, found⟩ := Checked.bind_eq_ok.1 found
  split at found
  · cases found
  obtain ⟨w, hw, found⟩ := Checked.bind_eq_ok.1 found
  cases s.program.width_gives cond w hw
  split at found
  · cases found
  case isFalse bit => exact not_not.1 bit

theorem evaluates_iff_result? {δ : ZeroDivision} {ρ : Valuation s.program} (isOp : s.program.op? v = .ok (some op))
    (operation : op.isOperation) (typed : op.WellTyped s.program v) (found : s.inUser v = .ok (some c)) {x y : Vec}
    (result : op.result? δ ρ (s.program.modelWidth v) = some x) :
    op.Evaluates δ ρ (s.program.modelWidth v) y ↔ y = x := by
  unfold inUser at found
  rw [isOp, Checked.ok_bind] at found
  cases op with
  | binary op l r =>
    cases result
    exact Op.evaluates_binary (Program.modelWidth_congr typed.1) (Program.modelWidth_congr typed.2)
  | icmp pred l r =>
    cases result
    exact Op.evaluates_icmp (Program.modelWidth_congr typed.1)
  | cast op l =>
    have cast : op.result? (s.program.modelWidth v) (ρ.read l) = some x := result
    rw [Op.evaluates_cast (s.program.modelWidth_cases v), cast, Option.some_inj, eq_comm]
  | select cond t f =>
    cases result
    exact Op.evaluates_select (width_cond_of_inSelect found)
  | gep | phi | alloca | call | load | store => cases operation

/-- The fact that defines an operation holds exactly where its result is what the rules give, and they give one
value. -/
theorem operations_exact (isOp : s.program.op? v = .ok (some op)) (operation : op.isOperation)
    (typed : op.WellTyped s.program v) (sized : op.Sized s.program) (found : s.inUser v = .ok (some c))
    (δ : ZeroDivision) (ρ : Valuation s.program) :
    (∃! x, op.Evaluates δ ρ (s.program.modelWidth v) x) ∧
      (c.denote δ ρ.env = true ↔ op.Evaluates δ ρ (s.program.modelWidth v) (ρ.read v)) := by
  have notPhi : ∀ incoming, op ≠ .phi incoming := by
    rintro incoming rfl
    cases operation
  obtain ⟨x, result, fixes⟩ := inUser_fixes (δ := δ) (ρ := ρ) isOp notPhi sized found
  have evaluates {y : Vec} := evaluates_iff_result? (y := y) isOp operation typed found result
  refine ⟨⟨x, evaluates.2 rfl, fun y => evaluates.1⟩, ?_⟩
  rw [fixes.denote_iff, evaluates]

end Subject

/-- A shift by `-31` and a product with it, a comparison of two parameters and what is made of it, and the low bit of
the first. -/
def Program.mixing : Program where
  values := #[
    { ty := .int 32, kind := .param 0 0 },
    { ty := .int 32, kind := .param 0 1 },
    { ty := .int 32, kind := .const (-31) },
    { ty := .int 32, kind := .inst 0 (.binary .ashr 0 2) },
    { ty := .int 32, kind := .inst 0 (.binary .mul 0 2) },
    { ty := .int 1, kind := .inst 0 (.icmp .slt 0 1) },
    { ty := .int 32, kind := .inst 0 (.cast .sext 5) },
    { ty := .int 32, kind := .inst 0 (.select 5 0 1) },
    { ty := .int 1, kind := .inst 0 (.cast .trunc 0) }]
  blocks := #[{ func := 0, name := "entry", insts := [3, 4, 5, 6, 7, 8], term := .ret none }]
  functions := #[{ name := "main", params := [0, 1], ret := .void, blocks := [0] }]

def Subject.mixing : Subject := { Subject.straightLine [] [] with program := .mixing }

theorem Subject.operations_exact_mixing : List.Forall (fun v => ∃ op c,
    Subject.mixing.program.op? v = .ok (some op) ∧ op.isOperation ∧ op.WellTyped Subject.mixing.program v ∧
    op.Sized Subject.mixing.program ∧ Subject.mixing.inUser v = .ok (some c) ∧
    ∀ δ (ρ : Valuation Subject.mixing.program), (∃! x, op.Evaluates δ ρ (Subject.mixing.program.modelWidth v) x) ∧
      (c.denote δ ρ.env = true ↔ op.Evaluates δ ρ (Subject.mixing.program.modelWidth v) (ρ.read v)))
    [3, 4, 5, 6, 7, 8] := by
  have small : (Op.binary .mul 0 2).Sized Subject.mixing.program := by
    intro v mem c const multiple
    obtain rfl | rfl := List.mem_pair.1 mem
    · cases const
    · cases const
      revert multiple
      decide
  exact ⟨⟨_, _, rfl, rfl, by decide, trivial, rfl, operations_exact rfl rfl (by decide) trivial rfl⟩,
    ⟨_, _, rfl, rfl, by decide, small, rfl, operations_exact rfl rfl (by decide) small rfl⟩,
    ⟨_, _, rfl, rfl, by decide, trivial, rfl, operations_exact rfl rfl (by decide) trivial rfl⟩,
    ⟨_, _, rfl, rfl, by decide, trivial, rfl, operations_exact rfl rfl (by decide) trivial rfl⟩,
    ⟨_, _, rfl, rfl, by decide, trivial, rfl, operations_exact rfl rfl (by decide) trivial rfl⟩,
    ⟨_, _, rfl, rfl, by decide, trivial, rfl, operations_exact rfl rfl (by decide) trivial rfl⟩⟩

end SsaFacts
