import SsaFacts.Proofs.Consistency
import SsaFacts.Proofs.Operations
import SsaFacts.Proofs.Provenance

/-! Two ways to compute an address. The fact that defines an address computation is true for the solver exactly
where the result is the base plus what the steps add, at the width of a word. Along a chain of such facts every
model puts a pointer as far from its base as its location says. -/
namespace SsaFacts
open Smt

theorem setWidth_ofInt {w w' : Nat} (le : w' ≤ w) (z : Int) : (BitVec.ofInt w z).setWidth w' = .ofInt w' z := by
  rw [← BitVec.signExtend_eq_setWidth_of_le _ le, BitVec.signExtend]
  apply BitVec.eq_of_toInt_eq
  simp only [BitVec.toInt_ofInt]
  exact Int.bmod_bmod_of_dvd (Nat.pow_dvd_pow 2 le)

namespace Vec

theorem setWidth_fit {x : Vec} {w w' : Nat} (le : w' ≤ w) : (x.fit w).setWidth w' = x.fit w' :=
  BitVec.setWidth_setWidth_of_le x.bits le

theorem fit_inj {x y : Vec} {w : Nat} (width : x.width = y.width) (le : x.width ≤ w) : x.fit w = y.fit w ↔ x = y := by
  refine ⟨fun same => ?_, fun same => by rw [same]⟩
  obtain ⟨y, rfl⟩ := exists_bits width.symm
  have cut := congrArg (BitVec.setWidth x.width) same
  rw [setWidth_fit le, setWidth_fit le, fit_self, fit_mk] at cut
  rw [← cut]

end Vec

theorem GepStep.setWidth_span {w w' : Nat} (le : w' ≤ w) (index : ValueId → BitVec w) (steps : List GepStep) :
    (span index steps).setWidth w' = span (fun i => (index i).setWidth w') steps := by
  induction steps with
  | nil => simp
  | cons step rest ih =>
    rw [span_cons, span_cons, BitVec.setWidth_add _ _ le, ih]
    cases step with
    | field offset => rw [extent, extent, BitVec.setWidth_ofNat_of_le le]
    | index size i => rw [extent, extent, BitVec.setWidth_mul _ _ le, BitVec.setWidth_ofNat_of_le le]

/-! ### What terms are to the solver -/

/-- To the solver the expression is `x`, and it has no side conditions. -/
structure Expr.Means (e : Expr) (g : Guards) (ν : Assignment) (x : Vec) : Prop where
  eval_eq : (e.encode g).eval ν = some x
  width_eq : e.width = x.width
  guards_eq : e.guards g = []

namespace Expr.Means
variable {g : Guards} {ν : Assignment} {w : Nat} {x y : BitVec w} {a b : Expr} {k : Literal}

theorem literal (k : Literal) : (Expr.literal k).Means g ν k.vec := ⟨rfl, rfl, rfl⟩

theorem word (n : Nat) : (Expr.ofInt wordWidth n).Means g ν ⟨wordWidth, .ofNat _ n⟩ := by
  have value := literal (g := g) (ν := ν) (.ofInt wordWidth n)
  rwa [Literal.vec_ofInt (by decide), BitVec.ofInt_natCast] at value

theorem bits_eq (means : (Expr.literal k).Means g ν ⟨w, x⟩) : k.vec = ⟨w, x⟩ := Option.some.inj means.eval_eq

/-- A summand that is zero is dropped, which changes nothing. -/
theorem add (unguarded : g.overflow = false) (ha : a.Means g ν ⟨w, x⟩) (hb : b.Means g ν ⟨w, y⟩) :
    (Expr.binary .add a b).Means g ν ⟨w, x + y⟩ := by
  have zero {k : Literal} {z : BitVec w} (means : (Expr.literal k).Means g ν ⟨w, z⟩) (bits : k.bits = 0) : z = 0 :=
    BitVec.eq_of_toNat_eq (by rw [Literal.toNat_of_vec_eq means.bits_eq, bits]; rfl)
  rcases shape_cases g .add a b with ⟨hs, -, k, rfl, bits⟩ | ⟨hs, -, k, rfl, bits⟩ | ⟨_, -, ⟨⟩, -⟩ | ⟨_, -, ⟨⟩, -⟩ | hs
  · rw [zero hb bits, add_zero]
    exact ⟨by rw [encode, hs]; exact ha.eval_eq, ha.width_eq, by rw [guards, hs]; exact ha.guards_eq⟩
  · rw [zero ha bits, zero_add]
    exact ⟨by rw [encode, hs]; exact hb.eval_eq, ha.width_eq, by rw [guards, hs]; exact hb.guards_eq⟩
  · refine ⟨?_, ha.width_eq, ?_⟩
    · rw [encode, hs]
      exact eval_app .bvadd ha.eval_eq hb.eval_eq
    · simp [guards, hs, ha.guards_eq, hb.guards_eq, guard?, unguarded, BinOp.isDivision]

/-- A shift by a literal is written as it stands. -/
theorem shl (unguarded : g.overflow = false) (ha : a.Means g ν ⟨w, x⟩) (hk : (Expr.literal k).Means g ν ⟨w, y⟩) :
    (Expr.binary .shl a (.literal k)).Means g ν ⟨w, x <<< y⟩ := by
  have hs : shape g .shl a (.literal k) = .plain := rfl
  refine ⟨?_, ha.width_eq, ?_⟩
  · rw [encode, hs]
    exact eval_app .bvshl ha.eval_eq hk.eval_eq
  · simp [guards, hs, ha.guards_eq, guard?, unguarded, BinOp.isDivision]

theorem mul (unguarded : g.overflow = false) (le : w ≤ 64) (ha : a.Means g ν ⟨w, x⟩) (hb : b.Means g ν ⟨w, y⟩) :
    (Expr.binary .mul a b).Means g ν ⟨w, x * y⟩ := by
  have power {k : Literal} {n : Nat} {z : BitVec w} (means : (Expr.literal k).Means g ν ⟨w, z⟩)
      (bits : k.bits = twoPow n) : z = BitVec.twoPow w n ∧ n < w := by
    have width : k.width = w := means.width_eq
    refine ⟨?_, width ▸ Literal.exponent_lt_width bits⟩
    rw [← Literal.fit_of_bits_eq_twoPow bits width, means.bits_eq, Vec.fit_mk]
  have width : a.width = w := ha.width_eq
  rcases shape_cases g .mul a b with ⟨-, ⟨⟩, -⟩ | ⟨-, ⟨⟩, -⟩ | ⟨n, hs, -, k, rfl, bits⟩ | ⟨n, hs, -, k, rfl, bits⟩ | hs
  · obtain ⟨rfl, lt⟩ := power hb bits
    refine ⟨?_, ha.width_eq, by rw [guards, hs]; exact ha.guards_eq⟩
    rw [encode, hs, width]
    simp only [Term.eval, ha.eval_eq, Option.bind_some, value?_bvshl lt le]
  · obtain ⟨rfl, lt⟩ := power ha bits
    refine ⟨?_, ha.width_eq, by rw [guards, hs]; exact hb.guards_eq⟩
    rw [encode, hs, width]
    simp only [Term.eval, hb.eval_eq, Option.bind_some, value?_bvshl lt le, BitVec.mul_comm]
  · refine ⟨?_, ha.width_eq, ?_⟩
    · rw [encode, hs]
      exact eval_app .bvmul ha.eval_eq hb.eval_eq
    · simp [guards, hs, ha.guards_eq, hb.guards_eq, guard?, unguarded, BinOp.isDivision]

theorem trunc {x : Vec} (pos : 0 < x.width) (ha : a.Means g ν x) :
    (Expr.unary .trunc a).Means g ν (UnaryOp.trunc.value x) := by
  refine ⟨?_, rfl, ha.guards_eq⟩
  rw [encode, Term.eval, ha.eval_eq]
  exact extract?_low pos

/-- A value that is a constant is written as one, any other by its name. -/
theorem leaf {p : Program} {v : ValueId} (found : p.leaf v = .ok a)
    (typed : ∀ l ∈ a.leaves, (ν.env l).width = l.width) : a.Means g ν ((ν.valuation p).read v) := by
  obtain ⟨read, width⟩ := (ν.valuation p).denote_leaf zeroDivision found
  obtain ⟨w, hw, found⟩ := Checked.bind_eq_ok.1 found
  obtain ⟨c, hc, found⟩ := Checked.bind_eq_ok.1 found
  cases p.width_gives v w hw
  cases c with
  | some c =>
    cases found
    rw [← read]
    exact literal _
  | none =>
    cases found
    have named : (ν.valuation p).value v = ν.env (p.plainLeaf v) := if_pos (typed _ List.mem_cons_self)
    refine ⟨?_, by rw [width, Valuation.width_read], rfl⟩
    rw [← read]
    exact congrArg some named.symm

end Expr.Means

theorem Smt.Assignment.accepts_equal_iff {g : Guards} {ν : Assignment} {a b : Expr} {x y : Vec} {c : Clause}
    (equal : Clause.equal a b = .ok c) (typed : ∀ l ∈ c.leaves, (ν.env l).width = l.width) (ha : a.Means g ν x)
    (hb : b.Means g ν y) : ν.Accepts g c ↔ x = y := by
  obtain ⟨-, rfl⟩ := Clause.compare_eq_ok.1 equal
  have encoded : ((Clause.atom .eq a b).encode g).eval ν = Rel.eq.truth? x y := by
    simp only [Clause.encode, comparison, Formula.eval, ha.eval_eq, hb.eval_eq, Option.bind_some]
  have alone : (Clause.atom .eq a b).formulas g = [(Clause.atom .eq a b).encode g] := by
    simp [Clause.formulas, Clause.guards, Clause.exprs, ha.guards_eq, hb.guards_eq]
  rw [← Rel.truth?_eq_true, ← encoded]
  refine ⟨fun accepts => accepts.eval_eq _ (by simp [alone]), fun isTrue => ⟨typed, ?_⟩⟩
  rw [alone]
  simpa using isTrue

/-! ### Address computations -/

theorem Program.modelWidth_le (p : Program) (v : ValueId) : p.modelWidth v ≤ wordWidth := by
  rcases p.modelWidth_cases v with width | width
  · exact width.trans_le (by decide)
  · exact width.le

def GepStep.size : GepStep → Nat
  | .index size _ => size
  | .field offset => offset

def Op.steps : Op → List GepStep
  | .gep _ steps => steps
  | _ => []

/-- The sizes of elements and the offsets of fields are 64-bit numbers. -/
def Program.SizesFit (p : Program) : Prop :=
  ∀ v ∈ p.valueIds, ∀ op ∈ (p.kind? v).bind Kind.op?, ∀ step ∈ op.steps, step.size < twoPow 64

instance Program.decidableSizesFit (p : Program) : Decidable p.SizesFit :=
  inferInstanceAs (Decidable (∀ v ∈ p.valueIds, _))

theorem Program.SizesFit.of_op? {p : Program} (fits : p.SizesFit) {v : ValueId} {op : Op}
    (found : p.op? v = .ok (some op)) : ∀ step ∈ op.steps, step.size < twoPow 64 := by
  obtain ⟨x, b, hx, kind⟩ := exists_of_op? found
  exact fits v (by simpa [valueIds] using lt_of_op? found) op (by simp [kind?, hx, kind, Kind.op?])

/-- A shift by an exponent multiplies by the power, which is zero from the width on. -/
theorem shiftLeft_exponent {k : Nat} (lt : k < 64) (x : BitVec wordWidth) :
    x <<< BitVec.ofNat wordWidth k = x * .ofNat _ (twoPow k) := by
  have amount : (BitVec.ofNat wordWidth k).toNat = k := by
    rw [BitVec.toNat_ofNat, Nat.mod_eq_of_lt]
    exact lt.trans (by decide)
  rw [BitVec.shiftLeft_eq', amount, BitVec.shiftLeft_eq_mul_twoPow]
  congr 1
  exact BitVec.eq_of_toNat_eq (by rw [BitVec.toNat_twoPow, BitVec.toNat_ofNat, twoPow_eq])

namespace Subject
variable {s : Subject} {g : Guards} {ν : Assignment} {e base : Expr} {step : GepStep} {steps : List GepStep}
  {v u : ValueId} {c : Clause} {k : Kind}

abbrev bitsAt (s : Subject) (ν : Assignment) (w : Nat) (v : ValueId) : BitVec w :=
  ((ν.valuation s.program).read v).fit w

theorem means_stepExpr? (unguarded : g.overflow = false) (fits : step.size < twoPow 64)
    (found : s.stepExpr? step = .ok (some e)) (typed : ∀ l ∈ e.leaves, (ν.env l).width = l.width) :
    e.Means g ν ⟨wordWidth, step.extent (s.bitsAt ν wordWidth)⟩ := by
  cases step with
  | field offset =>
    cases found
    exact .word offset
  | index size i =>
    obtain ⟨a, ha, isWord, bytes⟩ := exists_of_stepExpr? found
    have word : ((ν.valuation s.program).read i).width = wordWidth := by
      rw [Valuation.width_read, ← Program.width_leaf ha, isWord]
    have operand (typed : ∀ l ∈ a.leaves, (ν.env l).width = l.width) :
        a.Means g ν ⟨wordWidth, s.bitsAt ν wordWidth i⟩ := by
      rw [Vec.mk_fit word]
      exact .leaf ha typed
    rcases bytes with ⟨k, power, rfl⟩ | rfl
    · have size_eq := exponent?_eq_some power
      have lt : k < 64 := by
        rw [GepStep.size, ← size_eq, twoPow_eq, twoPow_eq] at fits
        exact (Nat.pow_lt_pow_iff_right (by decide)).1 fits
      rw [GepStep.extent, ← size_eq, ← shiftLeft_exponent lt]
      exact .shl unguarded (operand fun l hl => typed l (by simp [Expr.leaves, hl])) (.word k)
    · rw [GepStep.extent, BitVec.mul_comm]
      exact .mul unguarded (by decide) (.word size) (operand fun l hl => typed l (by simp [Expr.leaves, hl]))

theorem leaves_subset_of_address? (found : s.address? base steps = .ok (some e)) : base.leaves ⊆ e.leaves := by
  induction steps generalizing base with
  | nil =>
    cases found
    exact List.Subset.refl _
  | cons step rest ih =>
    obtain ⟨bytes, -, -, found⟩ := address?_cons found
    exact fun l hl => ih found (by simp [Expr.leaves, hl])

theorem means_address? (unguarded : g.overflow = false) (fits : ∀ step ∈ steps, step.size < twoPow 64)
    (found : s.address? base steps = .ok (some e)) (typed : ∀ l ∈ e.leaves, (ν.env l).width = l.width) {x : Vec}
    (hbase : base.Means g ν x) : ∃ y, e.Means g ν y ∧ y.width = x.width ∧
      y.fit wordWidth = x.fit _ + GepStep.span (s.bitsAt ν wordWidth) steps := by
  induction steps generalizing base x with
  | nil =>
    cases found
    exact ⟨x, hbase, rfl, by simp⟩
  | cons step rest ih =>
    obtain ⟨bytes, hbytes, width, found⟩ := address?_cons found
    have inside : ∀ l ∈ (Expr.binary .add base bytes).leaves, l ∈ e.leaves := leaves_subset_of_address? found
    have added := means_stepExpr? unguarded (fits step List.mem_cons_self) hbytes
      fun l hl => typed l (inside l (by simp [Expr.leaves, hl]))
    have word : x.width = wordWidth := hbase.width_eq.symm.trans (width.trans added.width_eq)
    obtain ⟨x, rfl⟩ := Vec.exists_bits word
    obtain ⟨y, means, width', sum⟩ := ih (fun step mem => fits step (List.mem_cons_of_mem _ mem)) found
      (hbase.add unguarded added)
    refine ⟨y, means, width', ?_⟩
    rw [sum, Vec.fit_mk, Vec.fit_mk, GepStep.span_cons, BitVec.add_assoc]

theorem width_index_of_address? (found : s.address? base steps = .ok (some e)) :
    ∀ i ∈ steps.filterMap GepStep.index?, s.program.modelWidth i = wordWidth := by
  induction steps generalizing base with
  | nil => simp
  | cons step rest ih =>
    obtain ⟨bytes, hbytes, -, later⟩ := address?_cons found
    cases step with
    | field offset => exact ih later
    | index size i =>
      obtain ⟨a, ha, isWord, -⟩ := exists_of_stepExpr? hbytes
      have word : s.program.modelWidth i = wordWidth := by rw [← Program.width_leaf ha, isWord]
      simpa [GepStep.index?, word] using ih later

theorem accepts_inGep_iff {b : ValueId} (unguarded : g.overflow = false)
    (fits : ∀ step ∈ steps, step.size < twoPow 64) (found : s.inGep v b steps = .ok (some c))
    (typed : ∀ l ∈ c.leaves, (ν.env l).width = l.width) :
    s.program.modelWidth v = s.program.modelWidth b ∧
      (ν.Accepts g c ↔ s.bitsAt ν wordWidth v = s.bitsAt ν _ b + GepStep.span (s.bitsAt ν _) steps) := by
  obtain ⟨a, base, e, ha, hbase, he, equal⟩ := exists_of_inGep found
  obtain ⟨widths, rfl⟩ := Clause.compare_eq_ok.1 equal
  have inside := leaves_subset_of_address? he
  have left : a.Means g ν _ := .leaf ha fun l hl => typed l (by simp [hl])
  have start : base.Means g ν _ := .leaf hbase fun l hl => typed l (by simp [inside hl])
  obtain ⟨y, right, width, sum⟩ := means_address? unguarded fits he (fun l hl => typed l (by simp [hl])) start
  have same : ((ν.valuation s.program).read v).width = y.width := by
    rw [← left.width_eq, widths, right.width_eq]
  have narrow : ((ν.valuation s.program).read v).width ≤ wordWidth := by
    rw [Valuation.width_read]
    exact s.program.modelWidth_le v
  refine ⟨?_, ?_⟩
  · rwa [width, Valuation.width_read, Valuation.width_read] at same
  · rw [ν.accepts_equal_iff equal typed left right, ← Vec.fit_inj same narrow, sum]

/-- The fact that defines a bit cast, to the solver: the result has the bits of the operand, as many as fit. -/
theorem accepts_bitCast_iff {x : ValueId} (found : s.inCast v .bitCast x = .ok (some c))
    (typed : ∀ l ∈ c.leaves, (ν.env l).width = l.width) :
    s.program.modelWidth v ≤ s.program.modelWidth x ∧
      (ν.Accepts g c ↔ (ν.valuation s.program).read v = ⟨s.program.modelWidth v, s.bitsAt ν _ x⟩) := by
  -- a bit cast is no extension, so it narrows or keeps the width
  obtain ⟨a, e, ha, he, ⟨-, ⟨⟨⟩, -⟩ | ⟨⟨⟩, -⟩⟩ | ⟨narrower, equal⟩ | ⟨same, equal⟩⟩ := exists_of_inCast found
  · obtain ⟨widths, rfl⟩ := Clause.compare_eq_ok.1 equal
    have left : a.Means g ν _ := .leaf ha fun l hl => typed l (by simp [hl])
    have inner : e.Means g ν _ := .leaf he fun l hl => typed l (by simp [Expr.leaves, hl])
    have right := inner.trunc (by rw [Valuation.width_read]; omega)
    have one : s.program.modelWidth v = boolWidth := by
      rw [← Program.width_leaf ha, widths]
      rfl
    refine ⟨narrower.le, ?_⟩
    rw [ν.accepts_equal_iff equal typed left right, one]
    rfl
  · obtain ⟨-, rfl⟩ := Clause.compare_eq_ok.1 equal
    have left : a.Means g ν _ := .leaf ha fun l hl => typed l (by simp [hl])
    have right : e.Means g ν _ := .leaf he fun l hl => typed l (by simp [hl])
    refine ⟨same.le, ?_⟩
    rw [ν.accepts_equal_iff equal typed left right, Vec.mk_fit]
    rw [Valuation.width_read, same]

/-- One step of the way to a base: as many bits as the pointer has are those of its origin, moved on. -/
theorem read_of_origin? (unguarded : g.overflow = false) (fits : s.program.SizesFit)
    (kind : s.program.kind? v = some k) (origin : k.origin? = some (u, steps)) (found : s.inUser v = .ok (some c))
    (accepts : ν.Accepts g c) : s.program.modelWidth v ≤ s.program.modelWidth u ∧
      (∀ i ∈ steps.filterMap GepStep.index?, s.program.modelWidth i = wordWidth) ∧
      ∀ w ≤ s.program.modelWidth v, s.bitsAt ν w v = s.bitsAt ν w u + GepStep.span (s.bitsAt ν w) steps := by
  have isKind := Program.kind_eq_ok.2 kind
  unfold Kind.origin? at origin
  split at origin <;> cases origin
  case h_1 b =>
    have isOp : s.program.op? v = .ok (some (.gep u steps)) := by rw [Program.op?, isKind]; rfl
    unfold inUser at found
    rw [isOp, Checked.ok_bind] at found
    have sized : ∀ step ∈ steps, step.size < twoPow 64 := fits.of_op? isOp
    obtain ⟨width, iff⟩ := accepts_inGep_iff unguarded sized found accepts.width_eq
    obtain ⟨_, _, _, -, -, address, -⟩ := exists_of_inGep found
    refine ⟨width.le, width_index_of_address? address, fun w le => ?_⟩
    have narrow := le.trans (s.program.modelWidth_le v)
    have cut := congrArg (BitVec.setWidth w) (iff.1 accepts)
    simpa only [BitVec.setWidth_add _ _ narrow, GepStep.setWidth_span narrow, Vec.setWidth_fit narrow] using cut
  case h_2 b =>
    have isOp : s.program.op? v = .ok (some (.cast .bitCast u)) := by rw [Program.op?, isKind]; rfl
    unfold inUser at found
    rw [isOp, Checked.ok_bind] at found
    obtain ⟨le, iff⟩ := accepts_bitCast_iff (g := g) found accepts.width_eq
    refine ⟨le, by simp, fun w narrow => ?_⟩
    rw [bitsAt, iff.1 accepts, GepStep.span_nil, add_zero]
    exact Vec.setWidth_fit narrow

end Subject

theorem Valuation.read_assignment {p : Program} (ρ : Valuation p) (v : ValueId) :
    (ρ.assignment.valuation p).read v = ρ.read v := by
  have width : (ρ.assignment.env (p.plainLeaf v)).width = p.modelWidth v := by rw [ρ.env_assignment, ρ.width_value]
  exact read_congr ((if_pos width).trans (ρ.env_assignment v))

/-- Where the facts on the way to a base hold, every link of the way moves its place, at no more bits than the
pointer has. -/
theorem Subject.moves_of_facts {s : Subject} {g : Guards} {ν : Assignment} {v : ValueId} {n w : Nat}
    (unguarded : g.overflow = false) (fits : s.program.SizesFit) (le : w ≤ s.program.modelWidth v)
    (facts : ∀ u ∈ Location.links s.program n v, ∃ c, s.inUser u = .ok (some c) ∧ ν.Accepts g c) :
    ∀ u ∈ Location.links s.program n v, Location.Moves s.program (s.bitsAt ν w) (s.bitsAt ν w) u := by
  induction n generalizing v with
  | zero => simp [Location.links]
  | succ n ih =>
    cases origin : s.program.origin? v with
    | none => simp [Location.links, origin]
    | some source =>
      obtain ⟨u, steps⟩ := source
      simp only [Location.links, origin, List.forall_mem_cons] at facts ⊢
      obtain ⟨⟨c, fact, accepts⟩, later⟩ := facts
      obtain ⟨k, kind, isOrigin⟩ := Option.bind_eq_some_iff.1 origin
      obtain ⟨le', words, moved⟩ := read_of_origin? unguarded fits kind isOrigin fact accepts
      refine ⟨fun u' steps' origin' => ?_, ih (le.trans le') later⟩
      cases origin.symm.trans origin'
      refine ⟨moved w le, fun i mem c const => ?_⟩
      rw [bitsAt, Valuation.read_const _ const, Vec.fit]
      refine setWidth_ofInt ?_ c
      rw [words i mem]
      exact le.trans (s.program.modelWidth_le v)

/-- The fact that defines an address computation is accepted exactly where the result is the base plus what the steps
add, modulo `2 ^ 32`. So where all facts on the way to a base are accepted, a pointer is the base plus the offset, as
many bits of it as the pointer has. -/
theorem Subject.addresses_agree {s : Subject} {g : Guards} (unguarded : g.overflow = false) (fits : s.program.SizesFit)
    (ν : Assignment) :
    (∀ v base steps c, s.program.op? v = .ok (some (.gep base steps)) → s.inUser v = .ok (some c) →
      (∀ l ∈ c.leaves, (ν.env l).width = l.width) →
        (ν.Accepts g c ↔ s.bitsAt ν wordWidth v = s.bitsAt ν _ base + GepStep.span (s.bitsAt ν _) steps)) ∧
    ∀ v b l d, Location.ofValue s.program v = .ok l → l.base.root? = some b → l.offset = some d →
      (∀ u ∈ Location.links s.program (s.program.values.size + 1) v,
        ∃ c, s.inUser u = .ok (some c) ∧ ν.Accepts g c) →
      s.bitsAt ν (s.program.modelWidth v) v = s.bitsAt ν _ b + .ofInt _ d ∧
        (s.program.modelWidth v = wordWidth → s.bitsAt ν wordWidth v = s.bitsAt ν _ b + .ofInt _ d) := by
  refine ⟨fun v base steps c isOp found typed => ?_, fun v b l d found root known facts => ?_⟩
  · unfold inUser at found
    rw [isOp, Checked.ok_bind] at found
    have sized : ∀ step ∈ steps, step.size < twoPow 64 := fits.of_op? isOp
    exact (accepts_inGep_iff unguarded sized found typed).2
  · have offset {w : Nat} (le : w ≤ s.program.modelWidth v) : s.bitsAt ν w v = s.bitsAt ν w b + .ofInt w d := by
      have narrow := (le.trans (s.program.modelWidth_le v)).trans (by decide : wordWidth ≤ 64)
      obtain ⟨_, ⟨⟩, there⟩ := Location.distance_of_follow narrow found root known
        (moves_of_facts unguarded fits le facts)
      simpa using there
    exact ⟨offset le_rfl, fun word => offset word.ge⟩

/-- A chain from an input: back by an element that is counted with `-1`, a bit cast, then a constant index into
elements of more than `2 ^ 32` bytes. The last computation leaves the chain with an index that is not constant. -/
def Subject.chained : Subject := .straightLine [-1] [.call (.direct 2) [], .gep 1 [.field 8, .index 4 0],
  .cast .bitCast 2, .gep 3 [.index 12 0, .index (twoPow 40) 0, .field (twoPow 64 - 4)],
  .gep 4 [.index 12 1, .index (twoPow 40) 1]]

def Valuation.chained : Valuation Subject.chained.program where
  value v := ⟨_, .ofInt _ ([0, -8, -4, -4, -20, -116].getD v 0)⟩
  width_value _ := rfl

theorem Subject.addresses_agree_chained : Subject.chained.program.SizesFit ∧ ∃ ν : Assignment,
    (∃ c, Subject.chained.inUser 5 = .ok (some c) ∧ ν.Accepts {} c) ∧
    Location.links Subject.chained.program 7 4 = [4, 3, 2] ∧
    (∀ u ∈ [4, 3, 2], ∃ c, Subject.chained.inUser u = .ok (some c) ∧ ν.Accepts {} c) ∧
    Location.ofValue Subject.chained.program 4 = .ok ⟨.unknown 1, some (-(twoPow 40 : Int) - 12)⟩ ∧
    Subject.chained.bitsAt ν wordWidth 1 = .ofInt _ (-8) ∧
    Subject.chained.bitsAt ν wordWidth 4 = Subject.chained.bitsAt ν _ 1 + .ofInt _ (-(twoPow 40 : Int) - 12) := by
  have fits : Subject.chained.program.SizesFit := by decide +kernel
  obtain ⟨gep, chain⟩ := addresses_agree (g := {}) rfl fits Valuation.chained.assignment
  have word w v : Subject.chained.bitsAt Valuation.chained.assignment w v = (Valuation.chained.read v).fit w := by
    rw [bitsAt, Valuation.read_assignment]
  have typed v c (found : Subject.chained.inUser v = .ok (some c)) :
      ∀ l ∈ c.leaves, (Valuation.chained.assignment.env l).width = l.width :=
    (Subject.chained.inUser_stated v _ found c rfl).width_assignment
  have last : ∃ c, Subject.chained.inUser 5 = .ok (some c) ∧ Valuation.chained.assignment.Accepts {} c := by
    refine ⟨_, rfl, (gep 5 _ _ _ rfl rfl (typed 5 _ rfl)).2 ?_⟩
    simp only [GepStep.span, List.map, GepStep.extent, word]
    decide
  have facts : ∀ u ∈ [4, 3, 2], ∃ c, Subject.chained.inUser u = .ok (some c) ∧
      Valuation.chained.assignment.Accepts {} c := by
    simp only [List.forall_mem_cons]
    refine ⟨⟨_, rfl, (gep 4 _ _ _ rfl rfl (typed 4 _ rfl)).2 ?_⟩,
      ⟨_, rfl, (accepts_bitCast_iff (s := .chained) (v := 3) (x := 2) rfl (typed 3 _ rfl)).2.2 ?_⟩,
      ⟨_, rfl, (gep 2 _ _ _ rfl rfl (typed 2 _ rfl)).2 ?_⟩, by simp⟩
    · simp only [GepStep.span, List.map, GepStep.extent, word]
      decide +kernel
    · rw [Valuation.read_assignment, word]
      decide
    · simp only [GepStep.span, List.map, GepStep.extent, word]
      decide
  have located : Location.ofValue Subject.chained.program 4 = .ok ⟨.unknown 1, some (-(twoPow 40 : Int) - 12)⟩ := by
    decide +kernel
  refine ⟨fits, Valuation.chained.assignment, last, rfl, facts, located, ?_, ?_⟩
  · rw [word]
    decide
  · exact (chain 4 1 _ _ located rfl rfl facts).2 rfl

/-- A bit cast of a pointer to a truth value. -/
def Program.cropped : Program where
  values := #[{ ty := .ptr, kind := .global "table" none }, { ty := .int 1, kind := .inst 0 (.cast .bitCast 0) }]
  blocks := #[{ func := 0, name := "entry", insts := [1], term := .ret none }]
  functions := #[{ name := "main", params := [], ret := .void, blocks := [0] }]

def Subject.cropped : Subject := { Subject.straightLine [] [] with program := .cropped }

def Valuation.cropped : Valuation Subject.cropped.program where
  value v := ⟨_, .ofInt _ ([2, 0].getD v 0)⟩
  width_value _ := rfl

/-- The truth value is at no distance from the table, but it is not the table's address. -/
theorem Subject.address_cropped : ∃ (ν : Assignment) (c : Clause),
    Location.ofValue Subject.cropped.program 1 = .ok ⟨.object 0, some 0⟩ ∧
    Location.links Subject.cropped.program 3 1 = [1] ∧ Subject.cropped.inUser 1 = .ok (some c) ∧
    (∀ g, ν.Accepts g c) ∧
    Subject.cropped.bitsAt ν wordWidth 1 ≠ Subject.cropped.bitsAt ν _ 0 + .ofInt _ 0 := by
  have word w v : Subject.cropped.bitsAt Valuation.cropped.assignment w v = (Valuation.cropped.read v).fit w := by
    rw [bitsAt, Valuation.read_assignment]
  have typed c (found : Subject.cropped.inUser 1 = .ok (some c)) :
      ∀ l ∈ c.leaves, (Valuation.cropped.assignment.env l).width = l.width :=
    (Subject.cropped.inUser_stated 1 _ found c rfl).width_assignment
  refine ⟨Valuation.cropped.assignment, _, rfl, rfl, rfl,
    fun g => (accepts_bitCast_iff (s := .cropped) (v := 1) (x := 0) rfl (typed _ rfl)).2.2 ?_, ?_⟩
  · rw [Valuation.read_assignment, word]
    decide
  · rw [word, word]
    decide

end SsaFacts
