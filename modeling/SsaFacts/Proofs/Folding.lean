import SsaFacts.Proofs.Meaning
import SsaFacts.Proofs.Returns
import SsaFacts.Simplify

/-! Folding keeps the value of a term, whatever a division by zero gives, and a truth value that is found
without a solver is the truth value of the clause, also after leaves are replaced. -/
namespace SsaFacts

namespace Literal
variable {l : Literal} {w : Nat} {x : BitVec w}

theorem bits_of_vec_eq (h : l.vec = ⟨w, x⟩) : l.bits = x.toNat := by
  have bits : (Vec.mk w x).bits.toNat = l.bits := h ▸ toNat_vec l
  exact bits.symm

theorem signed_of_vec_eq (h : l.vec = ⟨w, x⟩) : l.signed = x.toInt := by
  have width : l.width = w := congrArg Vec.width h
  rw [signed, bits_of_vec_eq h, width, BitVec.toInt_eq_toNat_bmod]
  rfl

theorem exists_vec_eq (h : l.width = w) : ∃ x : BitVec w, l.vec = ⟨w, x⟩ := Vec.exists_bits h

end Literal

theorem requireSized_of_sized {l r : Literal} (hl : l.sized) (hr : r.sized) :
    requireSized l r = .ok () := by
  simp [requireSized, hl, hr]

namespace BinOp
variable {δ : ZeroDivision} {op : BinOp} {w : Nat} {l r : Literal} {x y : BitVec w}

/-- The exact result, reduced to the width, is the operation on bit-vectors. -/
theorem ofInt_exact {z : Int} (hl : l.vec = ⟨w, x⟩) (hr : r.vec = ⟨w, y⟩)
    (h : op.exact l r = some z) : BitVec.ofInt w z = op.apply δ x y := by
  have width : l.width = w := congrArg Vec.width hl
  have zero : y.toNat = 0 ↔ y = 0#w := by
    rw [← BitVec.toNat_inj]
    simp
  have back : ∀ b : BitVec w, BitVec.ofInt w (b.toNat : Int) = b := fun b => by simp
  simp only [exact, Literal.bits_of_vec_eq hl, Literal.bits_of_vec_eq hr, Literal.signed_of_vec_eq hl,
    Literal.signed_of_vec_eq hr, width, zero] at h
  cases op with
  | add =>
    cases h
    rw [BitVec.ofInt_add, back, back]
    rfl
  | sub =>
    cases h
    rw [Int.sub_eq_add_neg, BitVec.ofInt_add, BitVec.ofInt_neg, back, back, ← BitVec.sub_eq_add_neg]
    rfl
  | mul =>
    cases h
    rw [BitVec.ofInt_mul, back, back]
    rfl
  | udiv =>
    obtain ⟨nonzero, h⟩ := Option.ite_none_left_eq_some.1 h
    cases h
    rw [apply, if_neg nonzero, ← BitVec.toNat_udiv, back]
  | urem =>
    obtain ⟨nonzero, h⟩ := Option.ite_none_left_eq_some.1 h
    cases h
    rw [apply, if_neg nonzero, ← BitVec.toNat_umod, back]
  | sdiv =>
    obtain ⟨nonzero, h⟩ := Option.ite_none_left_eq_some.1 h
    cases h
    rw [apply, if_neg nonzero]
    apply BitVec.eq_of_toInt_eq
    rw [BitVec.toInt_sdiv, BitVec.toInt_ofInt]
  | srem =>
    obtain ⟨nonzero, h⟩ := Option.ite_none_left_eq_some.1 h
    cases h
    rw [apply, if_neg nonzero, ← BitVec.toInt_srem, BitVec.ofInt_toInt]
  | shl =>
    cases h
    apply BitVec.eq_of_toNat_eq
    rw [BitVec.ofInt_natCast, BitVec.toNat_ofNat, apply, BitVec.toNat_shiftLeft]
  | lshr =>
    cases h
    rw [apply, ← BitVec.toNat_ushiftRight, back]
  | ashr =>
    cases h
    rfl
  | and =>
    cases h
    rw [apply, ← BitVec.toNat_and, back]
  | or =>
    cases h
    rw [apply, ← BitVec.toNat_or, back]
  | xor =>
    cases h
    rw [apply, ← BitVec.toNat_xor, back]

theorem vec_of_eval {k : Literal} (sl : l.sized) (sr : r.sized) (same : l.width = r.width)
    (h : op.eval l r = .ok (some k)) : k.width = l.width ∧ ∀ δ, k.vec = op.value δ l.vec r.vec := by
  rw [eval, requireSized_of_sized sl sr] at h
  obtain ⟨z, hz, rfl⟩ := Option.map_eq_some_iff.1 (Except.ok.inj h)
  obtain ⟨x, hx⟩ := Literal.exists_vec_eq (l := l) rfl
  obtain ⟨y, hy⟩ := Literal.exists_vec_eq same.symm
  refine ⟨rfl, fun δ => ?_⟩
  rw [Literal.vec_ofInt (Literal.sized_iff.1 sl).2, hx, hy, value_mk, ofInt_exact hx hy hz]

theorem eval_ok (sl : l.sized) (sr : r.sized) : ∃ k, op.eval l r = .ok k :=
  ⟨(op.exact l r).map (Literal.ofInt l.width), by rw [eval, requireSized_of_sized sl sr]; rfl⟩

theorem exact_eq_none_iff : op.exact l r = none ↔ op.isDivision ∧ r.bits = 0 := by
  cases op <;> simp [exact, isDivision]

theorem eval_eq_none_iff (sl : l.sized) (sr : r.sized) : op.eval l r = .ok none ↔ op.isDivision ∧ r.bits = 0 := by
  rw [eval, requireSized_of_sized sl sr, ← exact_eq_none_iff (l := l)]
  simp

end BinOp

theorem UnaryOp.eval_ok (op : UnaryOp) {l : Literal} (sized : l.sized) :
    ∃ k, op.eval l = .ok k ∧ k.vec = op.value l.vec ∧ k.width = op.resultWidth := by
  obtain ⟨x, hx⟩ := Literal.exists_vec_eq (l := l) rfl
  have bits := Literal.bits_of_vec_eq hx
  cases op with
  | trunc =>
    have low : BitVec.ofInt 1 ((x.toNat % 2 : Nat) : Int) = x.setWidth 1 := by
      apply BitVec.eq_of_toNat_eq
      rw [BitVec.ofInt_natCast, BitVec.toNat_ofNat, BitVec.toNat_setWidth]
      exact Nat.mod_mod_of_dvd _ (Nat.dvd_refl 2)
    refine ⟨_, rfl, ?_, rfl⟩
    rw [Literal.vec_ofInt (by decide), hx, bits]
    exact congrArg (Vec.mk 1) low
  | zext =>
    have padded : BitVec.ofInt 32 (x.toNat : Int) = x.setWidth 32 := by
      apply BitVec.eq_of_toNat_eq
      rw [BitVec.ofInt_natCast, BitVec.toNat_ofNat, BitVec.toNat_setWidth]
    refine ⟨_, rfl, ?_, rfl⟩
    rw [Literal.vec_ofInt (by decide), hx, bits]
    exact congrArg (Vec.mk 32) padded
  | sext =>
    refine ⟨_, if_pos sized, ?_, rfl⟩
    rw [Literal.vec_ofInt (by decide), hx, Literal.signed_of_vec_eq hx]
    rfl

theorem Predicate.eval_ok (p : Predicate) {l r : Literal} (sl : l.sized) (sr : r.sized)
    (same : l.width = r.width) : p.eval l r = .ok (p.truth l.vec r.vec) := by
  obtain ⟨x, hx⟩ := Literal.exists_vec_eq (l := l) rfl
  obtain ⟨y, hy⟩ := Literal.exists_vec_eq same.symm
  have holds : p.holds l r = p.test x y := by
    cases p <;> simp [holds, test, Literal.bits_of_vec_eq hx, Literal.bits_of_vec_eq hy,
      Literal.signed_of_vec_eq hx, Literal.signed_of_vec_eq hy, BitVec.ult, BitVec.ule, BitVec.slt,
      BitVec.sle, BitVec.toNat_inj]
  rw [eval, requireSized_of_sized sl sr, hx, hy, truth_mk, ← holds]
  rfl

theorem Predicate.eval_self {p : Predicate} {l : Literal} {b : Bool} (h : p.eval l l = .ok b) : b = p.isReflexive := by
  have sized : l.sized := by
    obtain ⟨_, required, -⟩ := Checked.bind_eq_ok.1 h
    by_contra unsized
    rw [requireSized, Bool.eq_false_iff.2 unsized] at required
    cases required
  obtain ⟨x, hx⟩ := Literal.exists_vec_eq (l := l) rfl
  rw [p.eval_ok sized sized rfl] at h
  rw [← Except.ok.inj h, hx, truth_mk, test_self]

namespace Expr

/-- What folding gives: a term of the same width and value, whose literals are sized. -/
structure Folded (e e' : Expr) : Prop where
  sorted : e'.WellSorted
  width : e'.width = e.width
  denote : ∀ δ ρ, e'.denote δ ρ = e.denote δ ρ

theorem combine_ok (op : BinOp) {l r : Expr} (h : l.width = r.width) :
    combine op l r = .ok (.binary op l r) := if_pos h

theorem literal_or_not (e : Expr) : (∃ k, e = .literal k) ∨ ∀ k, e ≠ .literal k := by
  cases e with
  | literal k => exact .inl ⟨k, rfl⟩
  | leaf | unary | binary => exact .inr fun k h => nomatch h

theorem fold_unary_ok (op : UnaryOp) {e e' : Expr} (he : e.fold = .ok e') (folded : e.Folded e') :
    ∃ x, (unary op e).fold = .ok x ∧ (unary op e).Folded x := by
  rcases literal_or_not e' with ⟨l, rfl⟩ | other
  · obtain ⟨k, hk, vec, width⟩ := op.eval_ok folded.sorted
    refine ⟨.literal k, by simp [fold, he, hk], ?_, width, fun δ ρ => ?_⟩
    · have le := op.resultWidth_le
      rw [← width] at le
      have pos := op.resultWidth_pos
      rw [← width] at pos
      exact Literal.sized_iff.2 ⟨pos, le.trans (by decide)⟩
    · rw [Expr.denote, vec, Expr.denote, ← folded.denote δ ρ, Expr.denote]
  · refine ⟨.unary op e', ?_, folded.sorted, rfl, fun δ ρ => ?_⟩
    · cases e' with
      | literal l => exact absurd rfl (other l)
      | leaf | unary | binary => simp [fold, he]
    · simp only [Expr.denote, folded.denote]

/-- Two folded operands are evaluated if they are literals and no divisor is zero, or kept under the
operator. -/
theorem fold_binary_ok (op : BinOp) {l l' r r' : Expr} (hl : l.fold = .ok l') (hr : r.fold = .ok r')
    (foldedl : l.Folded l') (foldedr : r.Folded r') (same : l.width = r.width) :
    ∃ x, (binary op l r).fold = .ok x ∧ (binary op l r).Folded x := by
  have same' : l'.width = r'.width := foldedl.width.trans (same.trans foldedr.width.symm)
  have kept : (binary op l r).Folded (binary op l' r') :=
    ⟨⟨foldedl.sorted, foldedr.sorted, same'⟩, foldedl.width, fun δ ρ => by
      simp only [Expr.denote, foldedl.denote, foldedr.denote]⟩
  have combined := combine_ok op same'
  by_cases both : ∃ a b, l' = .literal a ∧ r' = .literal b
  · obtain ⟨a, b, rfl, rfl⟩ := both
    obtain ⟨o, ho⟩ : ∃ o, op.eval a b = .ok o := BinOp.eval_ok foldedl.sorted foldedr.sorted
    cases o with
    | none => exact ⟨_, by simp [fold, hl, hr, ho, combined], kept⟩
    | some k =>
      obtain ⟨width, vec⟩ := BinOp.vec_of_eval foldedl.sorted foldedr.sorted same' ho
      refine ⟨.literal k, by simp [fold, hl, hr, ho], ?_, width.trans foldedl.width, fun δ ρ => ?_⟩
      · exact Literal.sized_iff.2 (width ▸ Literal.sized_iff.1 foldedl.sorted)
      · rw [Expr.denote, Expr.denote, ← foldedl.denote δ ρ, ← foldedr.denote δ ρ]
        exact vec δ
  · refine ⟨_, ?_, kept⟩
    rw [fold, hl, hr]
    simp only [Checked.ok_bind]
    split
    · exact absurd ⟨_, _, rfl, rfl⟩ both
    · exact combined

/-- Folding a well-sorted term runs into no fault and keeps width and value. -/
theorem fold_ok {e : Expr} (sorted : e.WellSorted) : ∃ e', e.fold = .ok e' ∧ e.Folded e' := by
  induction e with
  | literal l => exact ⟨_, rfl, sorted, rfl, fun _ _ => rfl⟩
  | leaf l => exact ⟨_, rfl, sorted, rfl, fun _ _ => rfl⟩
  | unary op e ih =>
    obtain ⟨e', he, folded⟩ := ih sorted
    exact fold_unary_ok op he folded
  | binary op l r ihl ihr =>
    obtain ⟨l', hl, foldedl⟩ := ihl sorted.1
    obtain ⟨r', hr, foldedr⟩ := ihr sorted.2.1
    exact fold_binary_ok op hl hr foldedl foldedr sorted.2.2

theorem fold_unary_congr (op : UnaryOp) {e d : Expr} (h : e.fold = d.fold) :
    (unary op e).fold = (unary op d).fold := by
  simp only [fold, h]

theorem fold_binary_congr (op : BinOp) {l r k s : Expr} (hl : l.fold = k.fold) (hr : r.fold = s.fold) :
    (binary op l r).fold = (binary op k s).fold := by
  simp only [fold, hl, hr]

/-- What folding an operator over a folded operand gives: a literal, if the operand is one, or the operator
over an operand that is none. -/
theorem fold_unary_cases {op : UnaryOp} {e d x : Expr} (he : e.fold = .ok d)
    (h : (unary op e).fold = .ok x) :
    (∃ l k, d = .literal l ∧ x = .literal k) ∨ x = .unary op d ∧ d.literal? = none := by
  rw [fold, he, Checked.ok_bind] at h
  cases d with
  | literal l =>
    dsimp only at h
    cases hk : op.eval l with
    | error f =>
      rw [hk] at h
      cases h
    | ok k =>
      rw [hk] at h
      cases h
      exact .inl ⟨l, k, rfl, rfl⟩
  | leaf | unary | binary =>
    cases h
    exact .inr ⟨rfl, rfl⟩

/-- The same for two operands; the operator is kept over literals where it has no value. -/
theorem fold_binary_cases {op : BinOp} {l r a b x : Expr} (hl : l.fold = .ok a) (hr : r.fold = .ok b)
    (h : (binary op l r).fold = .ok x) :
    (∃ l r k, a = .literal l ∧ b = .literal r ∧ x = .literal k) ∨
      x = .binary op a b ∧ ∀ l r, a = .literal l → b = .literal r → op.eval l r = .ok none := by
  have combined : combine op a b = .ok x → x = .binary op a b := by
    intro h
    unfold combine at h
    split at h
    · cases h
      rfl
    · cases h
  rw [fold, hl, hr, Checked.ok_bind, Checked.ok_bind] at h
  split at h
  · rename_i m n
    cases hk : op.eval m n with
    | error f =>
      rw [hk] at h
      cases h
    | ok o =>
      rw [hk, Checked.ok_bind] at h
      cases o with
      | none =>
        refine .inr ⟨combined h, ?_⟩
        rintro l r ⟨⟩ ⟨⟩
        exact hk
      | some k =>
        cases h
        exact .inl ⟨m, n, k, rfl, rfl, rfl⟩
  · rename_i other
    exact .inr ⟨combined h, fun l r ha hb => absurd hb (other l r ha)⟩

/-- Folding before leaves are replaced makes no difference to folding after. -/
theorem fold_subst {σ : Leaf → Expr} {e e' : Expr} (sorted : e.WellSorted)
    (h : e.fold = .ok e') : (e.subst σ).fold = (e'.subst σ).fold := by
  induction e generalizing e' with
  | literal l =>
    cases h
    rfl
  | leaf l =>
    cases h
    rfl
  | unary op e ih =>
    obtain ⟨d, hd, -⟩ := fold_ok (e := e) sorted
    have inner := fold_unary_congr op (ih sorted hd)
    rcases fold_unary_cases hd h with ⟨l, k, rfl, rfl⟩ | ⟨rfl, -⟩
    · rw [fold_unary_congr op (d := .literal l) hd] at h
      exact inner.trans h
    · exact inner
  | binary op l r ihl ihr =>
    obtain ⟨a, ha, -⟩ := fold_ok sorted.1
    obtain ⟨b, hb, -⟩ := fold_ok sorted.2.1
    have inner := fold_binary_congr op (ihl sorted.1 ha) (ihr sorted.2.1 hb)
    rcases fold_binary_cases ha hb h with ⟨l, r, k, rfl, rfl, rfl⟩ | ⟨rfl, -⟩
    · rw [fold_binary_congr op (k := .literal l) (s := .literal r) ha hb] at h
      exact inner.trans h
    · exact inner

end Expr

section
variable {f : Bool → Bool → Bool} {a b a' b' : Option Bool} {x y t : Bool}

theorem known_eq_some (ha : ∀ s, a = some s → x = s) (hb : ∀ s, b = some s → y = s) (h : known f a b = some t) :
    f x y = t := by
  rcases a with _ | a <;> rcases b with _ | b <;> cases x <;> cases y <;> simp_all [known]

theorem known_mono (ha : ∀ s, a = some s → a' = some s) (hb : ∀ s, b = some s → b' = some s)
    (h : known f a b = some t) : known f a' b' = some t := by
  rcases a with _ | a <;> rcases b with _ | b <;> rcases a' with _ | _ | _ <;> rcases b' with _ | _ | _ <;>
    simp_all [known]

theorem known_isSome (ha : a.isSome) (hb : b.isSome) : (known f a b).isSome := by
  obtain ⟨x, rfl⟩ := Option.isSome_iff_exists.1 ha
  obtain ⟨y, rfl⟩ := Option.isSome_iff_exists.1 hb
  rfl

end

namespace Clause
variable {δ : ZeroDivision} {ρ : Leaf → Vec}

theorem simplify_atom_ok (pred : Predicate) {l r : Expr} (sorted : (atom pred l r).WellSorted) :
    ∃ o, (atom pred l r).simplify = .ok o ∧
      ∀ b, o = some b → ∀ δ ρ, (atom pred l r).denote δ ρ = b := by
  obtain ⟨sortedl, sortedr, same⟩ := sorted
  obtain ⟨l', hl, foldedl⟩ := Expr.fold_ok sortedl
  obtain ⟨r', hr, foldedr⟩ := Expr.fold_ok sortedr
  have same' : l'.width = r'.width := foldedl.width.trans (same.trans foldedr.width.symm)
  have denote : ∀ δ ρ, (atom pred l r).denote δ ρ = (atom pred l' r').denote δ ρ := fun δ ρ => by
    simp only [Clause.denote, foldedl.denote, foldedr.denote]
  rw [simplify, hl, hr]
  simp only [Checked.ok_bind]
  split
  · rename_i a b
    refine ⟨some (pred.truth a.vec b.vec), ?_, fun t ht δ ρ => ?_⟩
    · rw [pred.eval_ok foldedl.sorted foldedr.sorted same']
      rfl
    · rw [denote]
      exact Option.some.inj ht
  · refine ⟨_, rfl, fun t ht δ ρ => ?_⟩
    obtain ⟨rfl, rfl⟩ : l' = r' ∧ pred.isReflexive = t := by
      split at ht <;> simp_all
    rw [denote, Clause.denote, Predicate.truth, Vec.fit_self, Predicate.test_self]

/-- A truth value that simplification finds is the truth value of the clause. -/
theorem simplify_ok {c : Clause} (sorted : c.WellSorted) :
    ∃ o, c.simplify = .ok o ∧ ∀ b, o = some b → ∀ δ ρ, c.denote δ ρ = b := by
  induction c with
  | atom pred l r => exact simplify_atom_ok pred sorted
  | not c ih =>
    obtain ⟨o, h, known⟩ := ih sorted
    refine ⟨o.map (!·), by simp [simplify, h], fun b hb δ ρ => ?_⟩
    obtain ⟨t, rfl, rfl⟩ := Option.map_eq_some_iff.1 hb
    rw [denote, known t rfl]
  | and a b iha ihb =>
    obtain ⟨x, hx, knownx⟩ := iha sorted.1
    obtain ⟨y, hy, knowny⟩ := ihb sorted.2
    refine ⟨known (· && ·) x y, by simp [simplify, hx, hy], fun t ht δ ρ => ?_⟩
    exact known_eq_some (fun s hs => knownx s hs δ ρ) (fun s hs => knowny s hs δ ρ) ht
  | or a b iha ihb =>
    obtain ⟨x, hx, knownx⟩ := iha sorted.1
    obtain ⟨y, hy, knowny⟩ := ihb sorted.2
    refine ⟨known (· || ·) x y, by simp [simplify, hx, hy], fun t ht δ ρ => ?_⟩
    exact known_eq_some (fun s hs => knownx s hs δ ρ) (fun s hs => knowny s hs δ ρ) ht
  | xor a b iha ihb =>
    obtain ⟨x, hx, knownx⟩ := iha sorted.1
    obtain ⟨y, hy, knowny⟩ := ihb sorted.2
    refine ⟨known (· ^^ ·) x y, by simp [simplify, hx, hy], fun t ht δ ρ => ?_⟩
    exact known_eq_some (fun s hs => knownx s hs δ ρ) (fun s hs => knowny s hs δ ρ) ht

theorem denote_of_simplify {c : Clause} {b : Bool} (sorted : c.WellSorted)
    (h : c.simplify = .ok (some b)) : c.denote δ ρ = b := by
  obtain ⟨o, ho, known⟩ := simplify_ok sorted
  exact known b (Except.ok.inj (ho.symm.trans h)) δ ρ

def unsettled (cs : List Clause) : List Clause := cs.filter fun c => c.simplify ≠ .ok (some true)

theorem nontrivial_eq_unsettled {cs : List Clause} (sorted : ∀ c ∈ cs, c.WellSorted) :
    nontrivial cs = .ok (unsettled cs) := by
  have step : ∀ c ∈ cs, (do return (← c.simplify) != some true : Checked Bool) =
      .ok (decide (c.simplify ≠ .ok (some true))) := by
    intro c hc
    obtain ⟨o, ho, -⟩ := simplify_ok (sorted c hc)
    rcases o with _ | _ | _ <;> simp [ho]
  rw [nontrivial, Checked.filterM_ok step, unsettled]

/-- The clauses that do not simplify to true, given that each of them can be simplified. -/
theorem nontrivial_ok {cs : List Clause} (sorted : ∀ c ∈ cs, c.WellSorted) :
    ∃ kept, nontrivial cs = .ok kept ∧ ∀ c, c ∈ kept ↔ c ∈ cs ∧ c.simplify ≠ .ok (some true) :=
  ⟨unsettled cs, nontrivial_eq_unsettled sorted, fun c => by simp [unsettled]⟩

theorem simplify_subst_atom (pred : Predicate) {σ : Leaf → Expr} {l r : Expr} {b : Bool}
    (sorted : (atom pred l r).WellSorted) (sorted' : ((atom pred l r).subst σ).WellSorted)
    (h : (atom pred l r).simplify = .ok (some b)) :
    ((atom pred l r).subst σ).simplify = .ok (some b) := by
  obtain ⟨l', hl, -⟩ := Expr.fold_ok sorted.1
  obtain ⟨r', hr, -⟩ := Expr.fold_ok sorted.2.1
  have left : (l.subst σ).fold = (l'.subst σ).fold := Expr.fold_subst sorted.1 hl
  have right : (r.subst σ).fold = (r'.subst σ).fold := Expr.fold_subst sorted.2.1 hr
  rw [simplify, hl, hr, Checked.ok_bind, Checked.ok_bind] at h
  rw [subst, simplify, left, right]
  split at h
  · exact h
  · obtain ⟨rfl, rfl⟩ : l' = r' ∧ pred.isReflexive = b := by
      split at h <;> simp_all
    obtain ⟨m, hm, folded⟩ := Expr.fold_ok sorted'.1
    rw [← left, hm, Checked.ok_bind, Checked.ok_bind]
    cases m with
    | literal k =>
      have same : pred.truth k.vec k.vec = pred.isReflexive := by
        rw [Predicate.truth, Vec.fit_self, Predicate.test_self]
      simp [pred.eval_ok folded.sorted folded.sorted rfl, same]
    | leaf | unary | binary => simp

theorem simplify_subst {σ : Leaf → Expr} {c : Clause} (sorted : c.WellSorted)
    (sorted' : (c.subst σ).WellSorted) :
    ∃ o o', c.simplify = .ok o ∧ (c.subst σ).simplify = .ok o' ∧ ∀ b, o = some b → o' = some b := by
  induction c with
  | atom pred l r =>
    obtain ⟨o, ho, -⟩ := simplify_ok sorted
    obtain ⟨o', ho', -⟩ := simplify_ok sorted'
    refine ⟨o, o', ho, ho', ?_⟩
    rintro b rfl
    exact Except.ok.inj (ho'.symm.trans (simplify_subst_atom pred sorted sorted' ho))
  | not c ih =>
    obtain ⟨o, o', ho, ho', settled⟩ := ih sorted sorted'
    refine ⟨o.map (!·), o'.map (!·), by simp [simplify, ho], by simp [subst, simplify, ho'], fun b hb => ?_⟩
    obtain ⟨t, rfl, rfl⟩ := Option.map_eq_some_iff.1 hb
    rw [settled t rfl, Option.map_some]
  | and a b iha ihb =>
    obtain ⟨x, x', hx, hx', settledx⟩ := iha sorted.1 sorted'.1
    obtain ⟨y, y', hy, hy', settledy⟩ := ihb sorted.2 sorted'.2
    exact ⟨known (· && ·) x y, known (· && ·) x' y', by simp [simplify, hx, hy], by simp [subst, simplify, hx', hy'],
      fun t ht => known_mono settledx settledy ht⟩
  | or a b iha ihb =>
    obtain ⟨x, x', hx, hx', settledx⟩ := iha sorted.1 sorted'.1
    obtain ⟨y, y', hy, hy', settledy⟩ := ihb sorted.2 sorted'.2
    exact ⟨known (· || ·) x y, known (· || ·) x' y', by simp [simplify, hx, hy], by simp [subst, simplify, hx', hy'],
      fun t ht => known_mono settledx settledy ht⟩
  | xor a b iha ihb =>
    obtain ⟨x, x', hx, hx', settledx⟩ := iha sorted.1 sorted'.1
    obtain ⟨y, y', hy, hy', settledy⟩ := ihb sorted.2 sorted'.2
    exact ⟨known (· ^^ ·) x y, known (· ^^ ·) x' y', by simp [simplify, hx, hy], by simp [subst, simplify, hx', hy'],
      fun t ht => known_mono settledx settledy ht⟩

end Clause
end SsaFacts
