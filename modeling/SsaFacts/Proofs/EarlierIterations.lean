import SsaFacts.Proofs.Iterations

/-! What is said of the body of a loop, once about an iteration and once about the one before. Both copies are true
of values that agree with those of a run as far as instructions have run. -/
namespace SsaFacts

open LoopForest (IsNatural)

namespace Valuation
variable {p : Program} {δ : ZeroDivision} {current earlier : Valuation p}

/-- The values of an iteration together with those of the iteration before. -/
def withEarlier (current earlier : Valuation p) (x : Leaf) : Vec :=
  match x.ref with
  | .previous v => earlier.value v
  | _ => current.env x

theorem denote_expr_withEarlier {e : Expr} (stated : e.Stated p) :
    e.denote δ (current.withEarlier earlier) = e.denote δ current.env :=
  Expr.denote_congr fun x hx => by
    obtain ⟨v, -, rfl⟩ := stated.leaf_eq hx
    rfl

theorem denote_withEarlier {c : Clause} (stated : c.Stated p) :
    c.denote δ (current.withEarlier earlier) = c.denote δ current.env :=
  Clause.denote_congr fun x hx => by
    obtain ⟨v, -, rfl⟩ := stated.leaf_eq hx
    rfl

/-- Values that are taken from `ρ` where `P` holds, and from `σ` elsewhere. -/
noncomputable def mix (P : ValueId → Prop) (ρ σ : Valuation p) : Valuation p := by
  classical
  exact {
    value := fun v => if P v then ρ.value v else σ.value v
    width_value := fun v => by
      split
      · exact ρ.width_value v
      · exact σ.width_value v }

theorem value_mix_pos {P : ValueId → Prop} {ρ σ : Valuation p} {v : ValueId} (h : P v) :
    (mix P ρ σ).value v = ρ.value v := if_pos h

theorem value_mix_neg {P : ValueId → Prop} {ρ σ : Valuation p} {v : ValueId} (h : ¬P v) :
    (mix P ρ σ).value v = σ.value v := if_neg h

end Valuation

namespace Subject
variable {s : Subject} {l : Loop} {δ : ZeroDivision}

theorem earlierLeaf_of_own {v : ValueId} (own : s.Own l v) :
    s.earlierLeaf l (s.program.plainLeaf v) = { s.program.plainLeaf v with ref := .previous v } := by
  obtain ⟨b, home, inside⟩ := own
  have home : (s.program.kind? v).bind Kind.block? = some b := home
  simp only [earlierLeaf, Program.plainLeaf, home, inside, if_true]

theorem earlierLeaf_of_not_own {v : ValueId} (other : ¬s.Own l v) :
    s.earlierLeaf l (s.program.plainLeaf v) = s.program.plainLeaf v := by
  cases home : (s.program.kind? v).bind Kind.block? with
  | none => simp only [earlierLeaf, Program.plainLeaf, home]
  | some b =>
    have outside : ¬s.ownBlock l b = true := fun inside => other ⟨b, home, inside⟩
    simp only [earlierLeaf, Program.plainLeaf, home, if_neg outside]

/-- A fact about the iteration before, where what is not of the loop's own has its current value. -/
theorem denote_earlier {c : Clause} {σ current earlier : Valuation s.program} (stated : c.Stated s.program)
    (own : ∀ v, s.Own l v → earlier.value v = σ.value v) (other : ∀ v, ¬s.Own l v → current.value v = σ.value v) :
    (s.earlier l c).denote δ (current.withEarlier earlier) = c.denote δ σ.env := by
  rw [Subject.earlier, Clause.mapLeaves, Clause.denote_subst]
  refine Clause.denote_congr fun x hx => ?_
  obtain ⟨v, -, rfl⟩ := stated.leaf_eq hx
  by_cases isOwn : s.Own l v
  · rw [earlierLeaf_of_own isOwn]
    exact own v isOwn
  · rw [earlierLeaf_of_not_own isOwn]
    exact other v isOwn

/-! ### The two copies of the body -/

inductive Bears (s : Subject) (l : Loop) : ValueId → Prop
  | test {a : BlockId} {x : Block} {cond : ValueId} {t f : BlockId} (inside : l.contains a = true)
      (hx : s.program.blocks[a]? = some x) (term : x.term = .condBr cond t f) (back : t = l.header ∨ f = l.header) :
      Bears s l cond
  | operand {u v : ValueId} {op : Op} {c : Clause} (bears : Bears s l v) (asserts : s.Asserts l v c)
      (isOp : s.program.op? v = .ok (some op)) (used : u ∈ op.operands) : Bears s l u

section
variable {marked : List BlockId} {i : LoopId} {e : BlockId} {now last : Passage s.program} {body : List Clause}
  {rest rest' earlier : List (Passage s.program)} (ssa : s.program.Ssa)
  (made : Survey.ofProgram s.program marked = .ok s.survey) (hl : s.survey.loops[i]? = some l)
  (natural : IsNatural s.program e l) (reducible : s.Reducible l e)
  (sized : ∀ v op, s.Own l v → s.program.op? v = .ok (some op) → op.Sized s.program) (found : s.inLoopBody l = .ok body)
include ssa made hl natural sized

section
include reducible

/-- The fact of an instruction that has run in an iteration is true at its end, in terms of what has run and of
what is outside the loop. -/
theorem Asserts.holds {v : ValueId} {c : Clause} {op : Op} (isRound : Round l (now :: rest))
    (trace : Trace s.program δ e ((now :: rest) ++ earlier)) (asserts : s.Asserts l v c)
    (isOp : s.program.op? v = .ok (some op)) (ran : ∃ t ∈ now :: rest, s.program.home? v = some t.block)
    {σ : Valuation s.program} (same : σ.value v = now.values.value v)
    (operands : ∀ u ∈ op.operands, (∀ d, s.program.home? u = some d → d ∈ l.blocks →
      ∃ t ∈ now :: rest, s.program.home? u = some t.block) → σ.read u = now.values.read u) :
    c.denote δ σ.env = true := by
  obtain ⟨t, mem, here⟩ := ran
  obtain ⟨later, front, split⟩ := List.append_of_mem mem
  rw [split] at isRound trace
  refine Round.fact_holds natural trace isRound ssa made hl reducible sized asserts isOp here
    (Trace.head?_of_split split) same fun u used visited => operands u used fun d home inside => ?_
  obtain ⟨r, hr, same⟩ := List.mem_map.1 (visited d home inside)
  exact ⟨r, split ▸ hr, same ▸ home⟩

include found

/-- In an iteration the facts of the body are true of the current values, if the instructions of the loop's own
that have not run get other values. -/
theorem exists_current (isRound : Round l (now :: rest)) (trace : Trace s.program δ e ((now :: rest) ++ earlier)) :
    ∃ current : Valuation s.program,
      (∀ v, (s.Own l v → ∃ t ∈ now :: rest, s.program.home? v = some t.block) →
        current.value v = now.values.value v) ∧
      ∀ c ∈ body, c.denote δ current.env = true := by
  refine exists_body ssa made natural sized found now.values
    (fun v => ∃ t ∈ now :: rest, s.program.home? v = some t.block) fun v c ran asserts σ agrees => ?_
  obtain ⟨b, home, -⟩ := asserts.own
  obtain ⟨op, isOp⟩ := Program.exists_op home
  refine asserts.holds ssa made hl natural reducible sized isRound trace isOp ran (agrees v fun _ => ran)
    fun u used visited => Valuation.read_congr (agrees u ?_)
  rintro ⟨d, home, own⟩
  exact visited d home (ownBlock_iff.1 own).1

end

section
variable {iv : ValueId} {incoming : List (BlockId × ValueId)} {enter back : BlockId × ValueId}
  (counts : Counts s.program l iv incoming enter back)
include counts

omit hl sized in
theorem not_asserts_induction {c : Clause} : ¬s.Asserts l iv c := by
  rintro ⟨-, -, found⟩
  rw [inUser_phi_of_header ssa made natural counts.listed counts.isPhi] at found
  cases found

include found

/-- Before the first iteration the facts of the body can be made true for any value of the induction variable. -/
theorem exists_earlier_first (ρ : Valuation s.program) {x : Vec} (width : x.width = s.program.modelWidth iv) :
    ∃ σ : Valuation s.program, (∀ u, ¬s.Own l u → σ.value u = ρ.value u) ∧ σ.value iv = x ∧
      ∀ c ∈ body, c.denote δ σ.env = true := by
  have own := own_of_mem_header ssa made hl natural counts.listed
  obtain ⟨σ, agrees, holds⟩ := exists_body (δ := δ) ssa made natural sized found (ρ.set iv x width) (· = iv)
    fun v c same asserts => absurd (same ▸ asserts) (not_asserts_induction ssa made natural counts)
  refine ⟨σ, fun u other => ?_, ?_, holds⟩
  · rw [agrees u fun own => absurd own other, Valuation.value_set_of_ne]
    rintro rfl
    exact other own
  · rw [agrees iv fun _ => rfl, Valuation.value_set_self]

include reducible

/-- Before any other iteration they are true of the values at the end of the iteration before, as far as the test
of the latch depends on them, if it depends on no value of an inner loop that has changed since. -/
theorem exists_earlier_later (isRound : Round l (now :: rest)) (isRound' : Round l (last :: rest'))
    (trace : Trace s.program δ e ((now :: rest) ++ last :: (rest' ++ earlier)))
    (stable : ∀ u d, s.Bears l u → s.program.home? u = some d → l.contains d = true → s.ownBlock l d = false →
      now.values.value u = last.values.value u) :
    ∃ σ : Valuation s.program, (∀ u, ¬s.Own l u → σ.value u = now.values.value u) ∧
      σ.value iv = last.values.value iv ∧
      (∀ u, s.Own l u → s.Bears l u → (∃ t ∈ last :: rest', s.program.home? u = some t.block) →
        σ.value u = last.values.value u) ∧
      ∀ c ∈ body, c.denote δ σ.env = true := by
  let kept (v : ValueId) : Prop := v = iv ∨ s.Bears l v ∧ ∃ t ∈ last :: rest', s.program.home? v = some t.block
  let τ : Valuation s.program := .mix (s.Own l) last.values now.values
  have outside {u : ValueId} (away : ∀ d, s.program.home? u = some d → d ∉ l.blocks) :
      now.values.value u = last.values.value u :=
    trace.value_eq ssa rfl fun t mem home => away t.block home (isRound.inside t mem)
  have keeps (v : ValueId) (c : Clause) (keep : kept v) (asserts : s.Asserts l v c) (σ : Valuation s.program)
      (agrees : ∀ u, (s.Own l u → kept u) → σ.value u = τ.value u) : c.denote δ σ.env = true := by
    rcases keep with rfl | ⟨bears, ran⟩
    · exact absurd asserts (not_asserts_induction ssa made natural counts)
    obtain ⟨b, home, -⟩ := asserts.own
    obtain ⟨op, isOp⟩ := Program.exists_op home
    refine asserts.holds ssa made hl natural reducible sized isRound' trace.drop isOp ran ?_ fun u used visited => ?_
    · rw [agrees v fun _ => .inr ⟨bears, ran⟩, Valuation.value_mix_pos asserts.own]
    have bearsU : s.Bears l u := .operand bears asserts isOp used
    refine Valuation.read_congr ?_
    by_cases own : s.Own l u
    · obtain ⟨d, homeU, ownD⟩ := own
      have ranU := visited d homeU (ownBlock_iff.1 ownD).1
      rw [agrees u fun _ => .inr ⟨bearsU, ranU⟩, Valuation.value_mix_pos ⟨d, homeU, ownD⟩]
    · rw [agrees u fun h => absurd h own, Valuation.value_mix_neg own]
      by_cases inner : ∃ d, s.program.home? u = some d ∧ d ∈ l.blocks
      · obtain ⟨d, homeU, inside⟩ := inner
        refine stable u d bearsU homeU (List.contains_iff_mem.2 inside) ?_
        exact Bool.eq_false_iff.2 fun ownD => own ⟨d, homeU, ownD⟩
      · exact outside fun d homeU inside => inner ⟨d, homeU, inside⟩
  obtain ⟨σ, agrees, holds⟩ := exists_body ssa made natural sized found τ kept keeps
  refine ⟨σ, fun u other => ?_, ?_, fun u own bears ran => ?_, holds⟩
  · rw [agrees u fun own => absurd own other, Valuation.value_mix_neg other]
  · rw [agrees iv fun _ => .inl rfl,
      Valuation.value_mix_pos (own_of_mem_header ssa made hl natural counts.listed)]
  · rw [agrees u fun _ => .inr ⟨bears, ran⟩, Valuation.value_mix_pos own]

end
end

end Subject
end SsaFacts
