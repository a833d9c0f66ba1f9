import SsaFacts.Proofs.Folding

/-! Terms in which nothing is left to fold. Folding leads to such a term, of the same width and value, and
keeps every term that is one already. A truth value that is found by folding is right whatever the leaves are
and whatever a division by zero gives, and clauses that need neither are always settled. -/
namespace SsaFacts

namespace Expr
variable {e e' : Expr}

/-- No operator has literals for all its operands, unless it divides by zero. -/
def Reduced : Expr → Prop
  | literal _ | leaf _ => True
  | unary _ e => e.Reduced ∧ e.literal? = none
  | binary op l r => l.Reduced ∧ r.Reduced ∧
      ∀ a b, l = .literal a → r = .literal b → op.isDivision = true ∧ b.bits = 0

theorem folded_of_fold (sorted : e.WellSorted) (h : e.fold = .ok e') : e.Folded e' := by
  obtain ⟨d, hd, folded⟩ := fold_ok sorted
  cases hd.symm.trans h
  exact folded

theorem reduced_of_fold (sorted : e.WellSorted) (h : e.fold = .ok e') : e'.Reduced := by
  induction e generalizing e' with
  | literal l =>
    cases h
    trivial
  | leaf l =>
    cases h
    trivial
  | unary op e ih =>
    obtain ⟨d, hd, -⟩ := fold_ok (e := e) sorted
    rcases fold_unary_cases hd h with ⟨l, k, -, rfl⟩ | ⟨rfl, open_d⟩
    · trivial
    · exact ⟨ih sorted hd, open_d⟩
  | binary op l r ihl ihr =>
    obtain ⟨a, ha, foldeda⟩ := fold_ok sorted.1
    obtain ⟨b, hb, foldedb⟩ := fold_ok sorted.2.1
    rcases fold_binary_cases ha hb h with ⟨l, r, k, -, -, rfl⟩ | ⟨rfl, stuck⟩
    · trivial
    · refine ⟨ihl sorted.1 ha, ihr sorted.2.1 hb, ?_⟩
      rintro m n rfl rfl
      exact (BinOp.eval_eq_none_iff foldeda.sorted foldedb.sorted).1 (stuck m n rfl rfl)

theorem Reduced.fold_eq (reduced : e.Reduced) (sorted : e.WellSorted) : e.fold = .ok e := by
  induction e with
  | literal l => rfl
  | leaf l => rfl
  | unary op e ih =>
    obtain ⟨reduced, open_e⟩ := reduced
    have inner := ih reduced sorted
    cases e with
    | literal l => cases open_e
    | leaf | unary | binary => rw [fold, inner]; rfl
  | binary op l r ihl ihr =>
    obtain ⟨reducedl, reducedr, stuck⟩ := reduced
    obtain ⟨sortedl, sortedr, same⟩ := sorted
    have combined := combine_ok op same
    rw [fold, ihl reducedl sortedl, ihr reducedr sortedr, Checked.ok_bind, Checked.ok_bind]
    split
    · rename_i a b
      rw [(BinOp.eval_eq_none_iff sortedl sortedr).2 (stuck a b rfl rfl), Checked.ok_bind]
      exact combined
    · exact combined

def divides : Expr → Bool
  | literal _ | leaf _ => false
  | unary _ e => e.divides
  | binary op l r => op.isDivision || l.divides || r.divides

theorem fold_ground (sorted : e.WellSorted) (ground : e.leaves = []) (total : e.divides = false) :
    ∃ k, e.fold = .ok (.literal k) := by
  induction e with
  | literal l => exact ⟨l, rfl⟩
  | leaf l => cases ground
  | unary op e ih =>
    obtain ⟨l, hl⟩ := ih sorted ground total
    obtain ⟨k, hk, -⟩ := op.eval_ok (folded_of_fold (e := e) sorted hl).sorted
    exact ⟨k, by simp [fold, hl, hk]⟩
  | binary op l r ihl ihr =>
    obtain ⟨groundl, groundr⟩ := List.append_eq_nil_iff.1 ground
    simp only [divides, Bool.or_eq_false_iff] at total
    obtain ⟨⟨plain, totall⟩, totalr⟩ := total
    obtain ⟨a, ha⟩ := ihl sorted.1 groundl totall
    obtain ⟨b, hb⟩ := ihr sorted.2.1 groundr totalr
    have sizeda := (folded_of_fold sorted.1 ha).sorted
    have sizedb := (folded_of_fold sorted.2.1 hb).sorted
    obtain ⟨o, ho⟩ : ∃ o, op.eval a b = .ok o := BinOp.eval_ok sizeda sizedb
    cases o with
    | none =>
      rw [((BinOp.eval_eq_none_iff sizeda sizedb).1 ho).1] at plain
      cases plain
    | some k => exact ⟨k, by simp [fold, ha, hb, ho]⟩

end Expr

namespace Clause
variable {c : Clause}

def divides (c : Clause) : Bool := c.exprs.any Expr.divides

theorem simplify_ground (sorted : c.WellSorted) (ground : c.leaves = []) (total : c.divides = false) :
    ∃ o : Option Bool, c.simplify = .ok o ∧ o.isSome := by
  induction c with
  | atom pred l r =>
    obtain ⟨sortedl, sortedr, same⟩ := sorted
    simp only [leaves_atom, List.append_eq_nil_iff] at ground
    simp only [divides, exprs, List.any_cons, List.any_nil, Bool.or_false, Bool.or_eq_false_iff] at total
    obtain ⟨a, ha⟩ := Expr.fold_ground sortedl ground.1 total.1
    obtain ⟨b, hb⟩ := Expr.fold_ground sortedr ground.2 total.2
    have foldeda := Expr.folded_of_fold sortedl ha
    have foldedb := Expr.folded_of_fold sortedr hb
    have width : a.width = b.width := foldeda.width.trans (same.trans foldedb.width.symm)
    refine ⟨some (pred.truth a.vec b.vec), ?_, rfl⟩
    simp [simplify, ha, hb, pred.eval_ok foldeda.sorted foldedb.sorted width]
  | not c ih =>
    obtain ⟨o, ho, known⟩ := ih sorted ground total
    exact ⟨o.map (!·), by simp [simplify, ho], by simpa using known⟩
  | and a b iha ihb =>
    simp only [leaves_and, List.append_eq_nil_iff] at ground
    simp only [divides, exprs, List.any_append, Bool.or_eq_false_iff] at total
    obtain ⟨x, hx, knownx⟩ := iha sorted.1 ground.1 total.1
    obtain ⟨y, hy, knowny⟩ := ihb sorted.2 ground.2 total.2
    exact ⟨known (· && ·) x y, by simp [simplify, hx, hy], known_isSome knownx knowny⟩
  | or a b iha ihb =>
    simp only [leaves_or, List.append_eq_nil_iff] at ground
    simp only [divides, exprs, List.any_append, Bool.or_eq_false_iff] at total
    obtain ⟨x, hx, knownx⟩ := iha sorted.1 ground.1 total.1
    obtain ⟨y, hy, knowny⟩ := ihb sorted.2 ground.2 total.2
    exact ⟨known (· || ·) x y, by simp [simplify, hx, hy], known_isSome knownx knowny⟩
  | xor a b iha ihb =>
    simp only [leaves_xor, List.append_eq_nil_iff] at ground
    simp only [divides, exprs, List.any_append, Bool.or_eq_false_iff] at total
    obtain ⟨x, hx, knownx⟩ := iha sorted.1 ground.1 total.1
    obtain ⟨y, hy, knowny⟩ := ihb sorted.2 ground.2 total.2
    exact ⟨known (· ^^ ·) x y, by simp [simplify, hx, hy], known_isSome knownx knowny⟩

/-- Every term whose operands agree in width, over literals of one to 64 bits, is folded without a fault to a
term of the same width that has the same value whatever its leaves are and whatever a division by zero gives.
Nothing is left to fold in it, so that folding it again changes nothing. A truth value that a clause over such
terms simplifies to is its truth value, again whatever the leaves are; a clause that has no leaves and divides
by nothing always simplifies to one. -/
theorem folding_sound :
    (∀ e : Expr, e.WellSorted → ∃ e', e.fold = .ok e' ∧ e'.width = e.width ∧
      (∀ δ ρ, e'.denote δ ρ = e.denote δ ρ) ∧ e'.Reduced ∧ e'.fold = .ok e') ∧
    ∀ c : Clause, c.WellSorted → ∃ o, c.simplify = .ok o ∧
      (∀ b, o = some b → ∀ δ ρ, c.denote δ ρ = b) ∧ (c.leaves = [] → c.divides = false → o.isSome) := by
  refine ⟨fun e sorted => ?_, fun c sorted => ?_⟩
  · obtain ⟨e', he, folded⟩ := Expr.fold_ok sorted
    have reduced := Expr.reduced_of_fold sorted he
    exact ⟨e', he, folded.width, folded.denote, reduced, reduced.fold_eq folded.sorted⟩
  · obtain ⟨o, ho, known⟩ := simplify_ok sorted
    refine ⟨o, ho, known, fun ground total => ?_⟩
    obtain ⟨o', ho', settled⟩ := simplify_ground sorted ground total
    cases ho.symm.trans ho'
    exact settled

/-- Two quotients by zero, multiplied by the same number in two spellings, and a bit that is extended. -/
def quotients : Clause :=
  let x := .result 0 wordWidth
  let word n := Expr.ofInt wordWidth n
  let quotient divisor factor := Expr.binary .mul (.binary .udiv x divisor) factor
  .and (.atom .ule (quotient (.binary .sub (word 4) (word 4)) (.binary .add (word 2) (word 3)))
      (quotient (word 0) (word 5)))
    (.not (.atom .slt (.unary .sext (.unary .trunc (word 3))) (word (-1))))

theorem folding_sound_quotients :
    quotients.WellSorted ∧ quotients.simplify = .ok (some true) ∧ ∀ δ ρ, quotients.denote δ ρ = true := by
  have sorted : quotients.WellSorted := by
    simp [quotients, WellSorted, Expr.WellSorted, Expr.ofInt, Expr.result, Expr.width, UnaryOp.resultWidth,
      Literal.sized, wordWidth]
  have simplify : quotients.simplify = .ok (some true) := rfl
  obtain ⟨o, ho, known, -⟩ := folding_sound.2 quotients sorted
  cases simplify.symm.trans ho
  exact ⟨sorted, simplify, known true rfl⟩

end Clause
end SsaFacts
