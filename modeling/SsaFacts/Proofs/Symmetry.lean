import SsaFacts.Proofs.Complements
import SsaFacts.Proofs.Disabled
import SsaFacts.Proofs.Entailment

/-! Comparisons of values read the same from either side. The sides of a question belong to different
activations, so the question asked from the other side speaks of the same values in exchanged contexts. -/
namespace SsaFacts

open Smt

namespace Clause
variable {c : Clause} {g : Guards} {ν : Assignment}

theorem counterpart_counterpart (c : Clause) : c.counterpart.counterpart = c := by
  rw [counterpart, counterpart, mapLeaves, mapLeaves, ← subst_mirrored, mirrored_mirrored]
  exact Renaming.involutive_exchange c

theorem isTautology_counterpart (c : Clause) : c.counterpart.isTautology = c.isTautology := by
  rw [counterpart, isTautology_renamed, isTautology_mirrored]

theorem simplify_counterpart {o : Option Bool} : c.counterpart.simplify = .ok o ↔ c.simplify = .ok o := by
  have forward {c : Clause} (h : c.simplify = .ok o) : c.counterpart.simplify = .ok o := by
    rw [counterpart, simplify_renamed]
    exact simplify_mirrored h
  refine ⟨fun h => ?_, forward⟩
  rw [← c.counterpart_counterpart]
  exact forward h

theorem accepts_counterpart :
    ν.Accepts g c.counterpart ↔ (ν.through Renaming.exchange.name).Accepts g c := by
  rw [counterpart, accepts_renamed, accepts_mirrored]

theorem Narrow.exchanged (h : c.Narrow g) : (c.mapLeaves Renaming.exchange.leaf).Narrow g :=
  fun k hk => h k ((const_mem_mentions_renamed _ _).1 hk)

theorem Narrow.counterpart (h : c.Narrow g) : c.counterpart.Narrow g :=
  Narrow.exchanged fun k hk => h k (mem_mentions_mirrored.1 hk)

end Clause

namespace Engine
variable {e e' : Engine} {c : Clause}

theorem Akin.symm (h : e.Akin e') : e'.Akin e := by
  unfold Akin
  rw [h]

/-- An engine that entails a clause entails its counterpart: a model that belies the one belies the other, with
the values of the two activations exchanged. -/
theorem Entails.counterpart (bare : ∀ d ∈ e.facts, d.Bare e.program) (unambiguous : e.Unambiguous c) (h : e.Entails c) :
    e.Entails c.counterpart := by
  rw [Entails, Classes.canonical_counterpart, Clause.isTautology_counterpart, Clause.simplify_counterpart]
  refine h.imp_right (Or.imp_right ?_)
  rintro ⟨facts, realizes, none⟩
  obtain ⟨facts', realizes', moved⟩ := realizes.counterpart unambiguous
  refine ⟨facts', realizes', ?_⟩
  rintro ⟨ν, satisfies⟩
  refine none ⟨ν.through Renaming.exchange.name, ?_⟩
  simp only [Assignment.Satisfies, List.forall_mem_append, List.forall_mem_singleton] at satisfies ⊢
  obtain ⟨⟨known, realized⟩, denied⟩ := satisfies
  refine ⟨⟨fun d hd => ?_, fun d hd => ?_⟩, Clause.accepts_counterpart.1 denied⟩
  · rw [← Clause.accepts_renamed, (bare d hd).exchanged]
    exact known d hd
  · rw [← Clause.accepts_renamed]
    exact realized _ ((moved _).2 (by rwa [Renaming.involutive_exchange d]))

theorem entails_counterpart (bare : ∀ d ∈ e.facts, d.Bare e.program) (unambiguous : e.Unambiguous c) :
    e.Entails c.counterpart ↔ e.Entails c := by
  refine ⟨fun h => ?_, fun h => h.counterpart bare unambiguous⟩
  rw [← c.counterpart_counterpart]
  exact h.counterpart bare unambiguous.counterpart

end Engine

theorem Situation.Admits.counterpart {s : Situation} {c : Clause} (unambiguous : s.engine.Unambiguous c) (h : s.Admits c) :
    s.Admits c.counterpart where
  folds := by
    simp only [Classes.canonical_counterpart, Clause.simplify_counterpart]
    exact h.folds
  realizes := by
    obtain ⟨facts, realizes, narrow⟩ := h.realizes
    obtain ⟨facts', realizes', moved⟩ := realizes.counterpart unambiguous
    refine ⟨facts', realizes', fun d hd => ?_⟩
    rw [← Renaming.involutive_exchange d]
    exact (narrow _ ((moved d).1 hd)).exchanged
  narrow := by
    rw [Classes.canonical_counterpart]
    exact h.narrow.counterpart
  solver := h.solver

namespace Inquiry
variable {s s' t t' : Situation} {c : Clause} {a b : Bool}

theorem later_of_provable (coherent : s.Coherent) (run : provable c s = (.ok b, s')) :
    s.world.Later s'.world := by
  rcases provable_cases coherent run with ⟨-, -, rfl⟩ |
    ⟨-, -, facts, ns, u, u', -, later, -, -, decided, world⟩
  · exact refl_of World.Later s'.world
  · rw [world]
    exact trans_of World.Later later ((Dialogue.keeps_decideClause _ _ _).run decided).later

theorem provable_counterpart_agree (hs : s.Reachable) (ht : t.Reachable) (akin : s.engine.Akin t.engine)
    (grants : s.world.host.GrantsScopes) (grants' : t.world.host.GrantsScopes) (unambiguous : s.engine.Unambiguous c)
    (modelled : ∀ l ∈ c.leaves, l.Modelled s.engine.program) (run : provable c s = (.ok a, s'))
    (run' : provable c.counterpart t = (.ok b, t')) (sincere : s'.world.Sincere)
    (sincere' : t'.world.Sincere) : a = b := by
  have modelled' : ∀ l ∈ c.counterpart.leaves, l.Modelled t.engine.program := by
    intro l hl
    have program : t.engine.program = s.engine.program := by
      rw [akin]
      rfl
    rw [program]
    exact modelled (Renaming.exchange.leaf l) (Clause.mem_leaves_counterpart.1 hl)
  have entails : t.engine.Entails c.counterpart ↔ s.engine.Entails c.counterpart := by
    rw [akin]
    rfl
  have answer := provable_iff hs.coherent grants modelled run sincere
  have answer' := provable_iff ht.coherent grants' modelled' run' sincere'
  have bare : ∀ d ∈ s.engine.facts, d.Bare s.engine.program := fun d hd => (hs.coherent.stated d hd).bare
  rw [Bool.eq_iff_iff, answer, answer', entails, Engine.entails_counterpart bare unambiguous]

/-- Asked in the same situation of a reliable solver, a clause and its counterpart are answered alike, or both
are not answered. -/
theorem provable_counterpart (hs : s.Reachable) (reliable : s.world.host.Reliable)
    (quiet : s.world.debug = false) (unambiguous : s.engine.Unambiguous c)
    (modelled : ∀ l ∈ c.leaves, l.Modelled s.engine.program) :
    (provable c s).1.toOption = (provable c.counterpart s).1.toOption := by
  have answered {c : Clause} (unambiguous : s.engine.Unambiguous c) (h : ∃ b s', provable c s = (.ok b, s')) :
      ∃ b s', provable c.counterpart s = (.ok b, s') := by
    rw [provable_ok_iff hs.coherent reliable quiet] at h ⊢
    rw [Classes.canonical_counterpart, Clause.isTautology_counterpart, Clause.simplify_counterpart]
    exact h.imp_right fun admits => admits.counterpart unambiguous
  have akin : s.engine.Akin s.engine := rfl
  have reply {c : Clause} {b : Bool} {s' : Situation} (run : provable c s = (.ok b, s')) : s'.world.Sincere :=
    World.sincere_of_reliable ((later_of_provable hs.coherent run).host_eq ▸ reliable)
  rcases run : provable c s with ⟨f | a, s'⟩ <;> rcases run' : provable c.counterpart s with ⟨f' | b, t'⟩
  · rfl
  · obtain ⟨a, s'', answer⟩ := answered unambiguous.counterpart ⟨b, t', run'⟩
    rw [c.counterpart_counterpart] at answer
    cases run.symm.trans answer
  · obtain ⟨b, t'', answer⟩ := answered unambiguous ⟨a, s', run⟩
    cases run'.symm.trans answer
  · exact congrArg some (provable_counterpart_agree hs hs akin reliable.grants reliable.grants unambiguous modelled
      run run' (reply run) (reply run'))

theorem satisfiable_plain (tautology : (s.engine.classes.canonical c).isTautology) :
    satisfiable c s = (.ok true, s) := by
  have own : engine s = (.ok s.engine, s) := rfl
  rw [satisfiable, run_bind_ok own, if_pos tautology]
  rfl

theorem satisfiable_counterpart_agree (hs : s.Reachable) (ht : t.Reachable) (akin : s.engine.Akin t.engine)
    (grants : s.world.host.GrantsScopes) (grants' : t.world.host.GrantsScopes) (unambiguous : s.engine.Unambiguous c)
    (modelled : ∀ l ∈ c.leaves, l.Modelled s.engine.program) (run : satisfiable c s = (.ok a, s'))
    (run' : satisfiable c.counterpart t = (.ok b, t')) (sincere : s'.world.Sincere)
    (sincere' : t'.world.Sincere) : a = b := by
  have classes : t.engine.classes = s.engine.classes := by rw [akin]
  have same : (t.engine.classes.canonical c.counterpart).isTautology =
      (s.engine.classes.canonical c).isTautology := by
    rw [classes, Classes.canonical_counterpart, Clause.isTautology_counterpart]
  by_cases tautology : (s.engine.classes.canonical c).isTautology
  · rw [satisfiable_plain tautology] at run
    rw [satisfiable_plain (same.trans tautology)] at run'
    cases run
    cases run'
    rfl
  · have answer := (satisfiable_eq_ok run).resolve_left fun h => tautology h.1
    have answer' := (satisfiable_eq_ok run').resolve_left fun h => tautology (same ▸ h.1)
    obtain ⟨d, denied, rfl⟩ := answer
    obtain ⟨d', denied', rfl⟩ := answer'
    exact congrArg _ (provable_counterpart_agree (c := .not c) hs ht akin grants grants' unambiguous modelled
      denied denied' sincere sincere')

theorem satisfiable_counterpart (hs : s.Reachable) (reliable : s.world.host.Reliable)
    (quiet : s.world.debug = false) (unambiguous : s.engine.Unambiguous c)
    (modelled : ∀ l ∈ c.leaves, l.Modelled s.engine.program) :
    (satisfiable c s).1.toOption = (satisfiable c.counterpart s).1.toOption := by
  have same : (s.engine.classes.canonical c.counterpart).isTautology =
      (s.engine.classes.canonical c).isTautology := by
    rw [Classes.canonical_counterpart, Clause.isTautology_counterpart]
  by_cases tautology : (s.engine.classes.canonical c).isTautology
  · rw [satisfiable_plain tautology, satisfiable_plain (same.trans tautology)]
  · have plain : (s.engine.classes.canonical c).isTautology = false := by simpa using tautology
    have denied := provable_counterpart (c := .not c) hs reliable quiet unambiguous modelled
    have opposite (r : Except Failure Bool) : (r.map (!·)).toOption = r.toOption.map (!·) := by
      cases r <;> rfl
    rw [satisfiable_asks plain rfl, satisfiable_asks (same.trans plain) rfl, opposite, opposite]
    exact congrArg _ denied

end Inquiry

namespace Operand

theorem expr_gives (p : Program) (v : Operand) : Gives (v.expr p) fun x => ∃ m : Leaf, m.Bare p ∧ ∀ l ∈ x.leaves, l = m := by
  have literal (k : Literal) : ∃ m : Leaf, m.Bare p ∧ ∀ l ∈ (Expr.literal k).leaves, l = m :=
    ⟨p.plainLeaf 0, ⟨rfl, rfl⟩, by simp [Expr.leaves]⟩
  cases v with
  | value v =>
    refine (p.width_gives v).bind fun w hw => .after fun c => ?_
    cases c with
    | some z => exact .pure (literal _)
    | none => exact .pure ⟨⟨.result v [], w, 0⟩, ⟨hw, rfl⟩, fun l hl => List.mem_singleton.1 hl⟩
  | use site =>
    refine (p.width_gives site.value).bind fun w hw => .after fun c => ?_
    cases c with
    | some z => exact .pure (literal _)
    | none => exact .pure ⟨⟨.operand site [], w, 0⟩, ⟨hw, rfl⟩, fun l hl => List.mem_singleton.1 hl⟩
  | literal k => exact .pure (literal k)

end Operand

namespace Engine
variable {e : Engine} {context : Context} {stack : List ValueId} {v : Operand} {x : Expr}

/-- One side of a question. -/
def side (e : Engine) (context : Context) (stack : List ValueId) (v : Operand) : Checked Expr := do
  let x ← e.capture.attachExpr e.program context (← v.expr e.program)
  return x.mapLeaves (Leaf.withStack stack)

theorem side_eq_ok : e.side context stack v = .ok x ↔
    ∃ y, v.expr e.program = .ok y ∧ y.leaves.forM (fun l => discard (e.program.value l.value)) = .ok () ∧
      (y.mapLeaves (e.capture.tag e.program context)).mapLeaves (Leaf.withStack stack) = x := by
  simp only [side, Capture.attachExpr, Checked.bind_eq_ok, Checked.pure_eq, Except.ok.injEq]
  constructor
  · rintro ⟨y, named, _, ⟨_, exist, rfl⟩, rfl⟩
    exact ⟨y, named, exist, rfl⟩
  · rintro ⟨y, named, exist, rfl⟩
    exact ⟨y, named, _, ⟨(), exist, rfl⟩, rfl⟩

/-- In the other context a side is the same up to the exchange of the activations. -/
theorem side_exchanged (h : e.side context stack v = .ok x) :
    e.side (Equiv.swap 1 2 context) stack v = .ok (x.mapLeaves Renaming.exchange.leaf) := by
  obtain ⟨y, named, exist, rfl⟩ := side_eq_ok.1 h
  refine side_eq_ok.2 ⟨y, named, exist, ?_⟩
  simp only [Expr.mapLeaves, Expr.subst_subst]
  refine Expr.subst_congr fun l hl => ?_
  obtain ⟨m, bare, same⟩ := v.expr_gives e.program y named
  rw [same l hl]
  simp only [Expr.subst, bare.tag_exchanged]
  rfl

/-- A side has one leaf at most. Unless its value is fixed, it belongs to the activation of the side. -/
theorem side_leaves (h : e.side context stack v = .ok x) : ∃ m : Leaf, (∀ l ∈ x.leaves, l = m) ∧
    m.Modelled e.program ∧ (m.context = context ∨ e.capture.isFixed e.program m.value = true ∧ m.context = 0) := by
  obtain ⟨y, named, -, rfl⟩ := side_eq_ok.1 h
  obtain ⟨k, bare, same⟩ := v.expr_gives e.program y named
  refine ⟨(e.capture.tag e.program context k).withStack stack, fun l hl => ?_, ?_, ?_⟩
  · simp only [Expr.mapLeaves, Expr.leaves_subst, Expr.leaves, List.mem_flatMap, List.mem_singleton] at hl
    obtain ⟨m, ⟨l, hl, rfl⟩, rfl⟩ := hl
    rw [same l hl]
  · have modelled := bare.modelled
    obtain ⟨ref, width, _⟩ := k
    unfold Capture.tag
    split <;> cases ref <;> exact modelled
  · have default := bare.context_eq
    obtain ⟨ref, width, _⟩ := k
    unfold Capture.tag
    split
    · rename_i fixed
      right
      cases ref <;> exact ⟨fixed, default⟩
    · left
      cases ref <;> rfl

/-- What a side asks for as a parameter, the side in another activation does not ask for as an instruction. -/
theorem nothing_notMem_leafNeeds {m l : Leaf} {i j : Context} {u : ValueId}
    (own : m.context = i ∨ e.capture.isFixed e.program m.value = true ∧ m.context = 0)
    (other : l.context = j ∨ e.capture.isFixed e.program l.value = true ∧ l.context = 0) (ne : i ≠ j) (pos : i ≠ 0)
    (asks : ⟨.argument u, context⟩ ∈ e.subject.leafNeeds (e.capture.isFixed e.program) m) :
    ⟨.nothing u, context⟩ ∉ e.subject.leafNeeds (e.capture.isFixed e.program) l := by
  intro mem
  obtain ⟨rfl, free, rfl, -⟩ := Subject.leafNeeds_of_argument asks
  obtain ⟨t, -, same⟩ := List.mem_map.1 mem
  have shared : l.context = m.context := (Need.mk.inj same).2
  grind

theorem unambiguous_atom {pred : Predicate} {stack₁ stack₂ : List ValueId} {v₁ v₂ : Operand} {l r : Expr}
    (left : e.side 1 stack₁ v₁ = .ok l) (right : e.side 2 stack₂ v₂ = .ok r) : e.Unambiguous (.atom pred l r) := by
  obtain ⟨m, only, -, own⟩ := side_leaves left
  obtain ⟨m', only', -, own'⟩ := side_leaves right
  have leaves {a : Leaf} (ha : a ∈ (Clause.atom pred l r).leaves) : a = m ∨ a = m' := by
    simp only [Clause.leaves, Clause.exprs, List.flatMap_cons, List.flatMap_nil, List.append_nil, List.mem_append] at ha
    exact ha.imp (only a) (only' a)
  intro v context mem mem'
  obtain ⟨a, ha, mem⟩ := List.mem_flatMap.1 mem
  obtain ⟨b, hb, mem'⟩ := List.mem_flatMap.1 mem'
  rcases leaves ha with rfl | rfl <;> rcases leaves hb with rfl | rfl
  · exact Subject.apart_leafNeeds _ _ v context mem mem'
  · exact nothing_notMem_leafNeeds own own' (by decide) (by decide) mem mem'
  · exact nothing_notMem_leafNeeds own' own (by decide) (by decide) mem mem'
  · exact Subject.apart_leafNeeds _ _ v context mem mem'

end Engine

namespace Inquiry
variable {s s' t t' : Situation} {pred : Predicate} {stack₁ stack₂ : List ValueId} {v₁ v₂ : Operand} {c : Clause}

theorem side_run (context : Context) (stack : List ValueId) (v : Operand) (s : Situation) :
    side context stack v s = ((s.engine.side context stack v).mapError .fault, s) := by
  unfold Engine.side
  have own : engine s = (.ok s.engine, s) := rfl
  rw [side, run_bind_ok own]
  cases named : v.expr s.engine.program with
  | error f => rfl
  | ok x =>
    rw [Checked.ok_bind, Checked.ok_bind]
    cases s.engine.capture.attachExpr s.engine.program context x <;> rfl

theorem side_eq_ok {context : Context} {stack : List ValueId} {v : Operand} {x : Expr} :
    side context stack v s = (.ok x, s') ↔ s.engine.side context stack v = .ok x ∧ s = s' := by
  rw [side_run, Prod.mk.injEq]
  cases s.engine.side context stack v <;> simp [Except.mapError]

theorem question_eq_ok : question pred stack₁ v₁ stack₂ v₂ s = (.ok c, s') ↔
    ∃ l r, s.engine.side 1 stack₁ v₁ = .ok l ∧ s.engine.side 2 stack₂ v₂ = .ok r ∧ l.width = r.width ∧
      .atom pred l r = c ∧ s = s' := by
  constructor
  · intro run
    obtain ⟨l, s₁, left, run⟩ := run_bind_eq_ok run
    obtain ⟨r, s₂, right, run⟩ := run_bind_eq_ok run
    obtain ⟨named, rfl⟩ := side_eq_ok.1 left
    obtain ⟨named', rfl⟩ := side_eq_ok.1 right
    by_cases width : l.width = r.width
    · rw [if_neg (not_not.2 width)] at run
      cases run
      exact ⟨l, r, named, named', width, rfl, rfl⟩
    · rw [if_pos width] at run
      cases run
  · rintro ⟨l, r, left, right, width, rfl, rfl⟩
    rw [question, run_bind_ok (side_eq_ok.2 ⟨left, rfl⟩), run_bind_ok (side_eq_ok.2 ⟨right, rfl⟩),
      if_neg (not_not.2 width)]
    rfl

theorem question_mirrored (akin : s.engine.Akin t.engine)
    (run : question pred stack₁ v₁ stack₂ v₂ s = (.ok c, s')) :
    question pred.mirrored stack₂ v₂ stack₁ v₁ t = (.ok c.counterpart, t) := by
  obtain ⟨l, r, left, right, width, rfl, rfl⟩ := question_eq_ok.1 run
  have same (context : Context) (stack : List ValueId) (v : Operand) :
      t.engine.side context stack v = s.engine.side context stack v := by
    rw [akin]
    rfl
  refine question_eq_ok.2 ⟨r.mapLeaves Renaming.exchange.leaf, l.mapLeaves Renaming.exchange.leaf, ?_, ?_, ?_, rfl, rfl⟩
  · have exchanged := Engine.side_exchanged right
    rwa [Equiv.swap_apply_right, ← same] at exchanged
  · have exchanged := Engine.side_exchanged left
    rwa [Equiv.swap_apply_left, ← same] at exchanged
  · rw [Expr.width_renamed, Expr.width_renamed, width]

theorem question_leaves (run : question pred stack₁ v₁ stack₂ v₂ s = (.ok c, s')) :
    s.engine.Unambiguous c ∧ ∀ l ∈ c.leaves, l.Modelled s.engine.program := by
  obtain ⟨l, r, left, right, -, rfl, -⟩ := question_eq_ok.1 run
  refine ⟨Engine.unambiguous_atom left right, ?_⟩
  have leaves : (Clause.atom pred l r).leaves = l.leaves ++ r.leaves := by simp [Clause.leaves, Clause.exprs]
  rw [leaves]
  obtain ⟨m, only, modelled, -⟩ := Engine.side_leaves left
  obtain ⟨m', only', modelled', -⟩ := Engine.side_leaves right
  exact List.forall_mem_append.2 ⟨fun a ha => only a ha ▸ modelled, fun a ha => only' a ha ▸ modelled'⟩

theorem question_both (akin : s.engine.Akin t.engine) (pred : Predicate) (stack₁ : List ValueId) (v₁ : Operand)
    (stack₂ : List ValueId) (v₂ : Operand) :
    (∃ c, question pred stack₁ v₁ stack₂ v₂ s = (.ok c, s) ∧
      question pred.mirrored stack₂ v₂ stack₁ v₁ t = (.ok c.counterpart, t)) ∨
    ∃ f f' s' t', question pred stack₁ v₁ stack₂ v₂ s = (.error f, s') ∧
      question pred.mirrored stack₂ v₂ stack₁ v₁ t = (.error f', t') := by
  rcases run : question pred stack₁ v₁ stack₂ v₂ s with ⟨f | c, s'⟩
  · rcases run' : question pred.mirrored stack₂ v₂ stack₁ v₁ t with ⟨f' | c, t'⟩
    · exact .inr ⟨f, f', s', t', rfl, rfl⟩
    · have asked := question_mirrored (Engine.Akin.symm akin) run'
      rw [Predicate.mirrored_mirrored] at asked
      cases run.symm.trans asked
  · obtain ⟨-, -, -, -, -, -, rfl⟩ := question_eq_ok.1 run
    exact .inl ⟨c, rfl, question_mirrored akin run⟩

/-- Comparisons of values can be asked from either side. Asked of solvers that do not answer falsely, both ways
are answered alike; asked in the same situation of a solver that decides every check, both are answered
alike or neither is answered. -/
theorem comparison_symmetric (hs : s.Reachable) (pred : Predicate) (stack₁ stack₂ : List ValueId) (v₁ v₂ : Operand) :
    (∀ t s' t' a b, t.Reachable → s.engine.Akin t.engine → s.world.host.GrantsScopes →
      t.world.host.GrantsScopes → s'.world.Sincere → t'.world.Sincere →
      (provableOf pred stack₁ v₁ stack₂ v₂ s = (.ok a, s') →
        provableOf pred.mirrored stack₂ v₂ stack₁ v₁ t = (.ok b, t') → a = b) ∧
      (satisfiableOf pred stack₁ v₁ stack₂ v₂ s = (.ok a, s') →
        satisfiableOf pred.mirrored stack₂ v₂ stack₁ v₁ t = (.ok b, t') → a = b)) ∧
    (s.world.host.Reliable → s.world.debug = false →
      (provableOf pred stack₁ v₁ stack₂ v₂ s).1.toOption =
        (provableOf pred.mirrored stack₂ v₂ stack₁ v₁ s).1.toOption ∧
      (satisfiableOf pred stack₁ v₁ stack₂ v₂ s).1.toOption =
        (satisfiableOf pred.mirrored stack₂ v₂ stack₁ v₁ s).1.toOption) := by
  constructor
  · intro t s' t' a b ht akin grants grants' sincere sincere'
    obtain ⟨c, asked, asked'⟩ | ⟨f, f', s₁, t₁, failed, failed'⟩ :=
      question_both akin pred stack₁ v₁ stack₂ v₂
    · obtain ⟨unambiguous, modelled⟩ := question_leaves asked
      rw [provableOf, provableOf, satisfiableOf, satisfiableOf, run_bind_ok asked, run_bind_ok asked',
        run_bind_ok asked, run_bind_ok asked']
      constructor
      · intro run run'
        exact provable_counterpart_agree hs ht akin grants grants' unambiguous modelled run run' sincere sincere'
      · intro run run'
        exact satisfiable_counterpart_agree hs ht akin grants grants' unambiguous modelled run run' sincere sincere'
    · rw [provableOf, satisfiableOf, run_bind_error failed, run_bind_error failed]
      constructor <;> intro run <;> cases run
  · intro reliable quiet
    have akin : s.engine.Akin s.engine := rfl
    rw [provableOf, provableOf, satisfiableOf, satisfiableOf]
    obtain ⟨c, asked, asked'⟩ | ⟨f, f', s₁, t₁, failed, failed'⟩ := question_both akin pred stack₁ v₁ stack₂ v₂
    · obtain ⟨unambiguous, modelled⟩ := question_leaves asked
      rw [run_bind_ok asked, run_bind_ok asked', run_bind_ok asked, run_bind_ok asked']
      exact ⟨provable_counterpart hs reliable quiet unambiguous modelled,
        satisfiable_counterpart hs reliable quiet unambiguous modelled⟩
    · rw [run_bind_error failed, run_bind_error failed', run_bind_error failed, run_bind_error failed']
      exact ⟨rfl, rfl⟩

end Inquiry

/-- Takes every command, and knows whether there is a model. -/
noncomputable def Host.oracle : Host where
  launches _ _ := true
  creates _ := true
  reply before process c :=
    open Classical in
    match c with
    | .checkSat => if HasModel (levels process before) then .atom "sat" else .atom "unsat"
    | _ => .atom "success"

theorem Host.reliable_oracle : Host.oracle.Reliable where
  compliant before process c acknowledged := by cases c <;> first | rfl | exact acknowledged.elim
  decides before process := ⟨fun h => if_pos h, fun h => if_neg h⟩

/-- A function is called with true and with false. -/
def Program.switching : Program where
  values := #[
    { ty := .int 1, kind := .const 1 },
    { ty := .int 1, kind := .const 0 },
    { ty := .int 1, kind := .param 1 0 },
    { ty := .void, kind := .inst 0 (.call (.direct 1) [0]) },
    { ty := .void, kind := .inst 0 (.call (.direct 1) [1]) }]
  blocks := #[
    { func := 0, name := "entry", insts := [3, 4], term := .ret none },
    { func := 1, name := "body", term := .ret none }]
  functions := #[
    { name := "main", params := [], ret := .void, blocks := [0] },
    { name := "switch", params := [2], ret := .void, blocks := [1] }]

/-- The parameter of the function along a call stack. -/
def Leaf.switch (stack : List ValueId) (context : Context) : Leaf :=
  { ref := .result 2 stack, width := boolWidth, context }

def Clause.switched : Clause := .atom .ugt (.leaf (.switch [3] 1)) (.leaf (.switch [4] 2))

/-- The parameter is what the call passes. -/
def Clause.switch (k : Int) (context : Context) : Clause :=
  .atom .eq (.ofInt boolWidth k) (.leaf (.switch [] context))

theorem Clause.narrow_switch (k : Int) (context : Context) : (switch k context).Narrow {} := by
  have spoken : (switch k context).mentions {} = [.const (.ofInt boolWidth k), .leaf (.switch [] context)] := rfl
  intro l hl
  simp only [spoken, List.mem_cons, Mention.const.injEq, reduceCtorEq, List.not_mem_nil, or_false] at hl
  subst hl
  exact (by decide : boolWidth ≤ widestConstant)

theorem Clause.no_model_switched :
    ¬∃ ν : Assignment, ν.Satisfies {} ([switch 1 1, switch 0 2] ++ [.not switched]) := by
  rintro ⟨ν, h⟩
  have passes (k : Int) (context : Context) (accepts : ν.Accepts {} (switch k context)) :
      ν.value (Leaf.switch [] context).solverName = (Literal.ofInt boolWidth k).vec :=
    (Rel.truth?_eq_true.1 (accepts.eval_eq _ List.mem_cons_self)).symm
  have first := passes 1 1 (h _ (by simp))
  have second := passes 0 2 (h _ (by simp))
  have denied : (Formula.not (.rel .bvugt (.name (Leaf.switch [] 1).solverName)
      (.name (Leaf.switch [] 2).solverName))).eval ν = some true :=
    (h (.not switched) (by simp)).eval_eq _ List.mem_cons_self
  simp only [Formula.eval, Term.eval, first, second] at denied
  exact absurd denied (by decide)

/-- What the first call passes is greater than what the second passes, and that can be asked from either side. -/
theorem Inquiry.comparison_symmetric_switching : ∃ survey e s' t', Survey.ofProgram .switching [] = .ok survey ∧
    Engine.ofSubject { program := .switching, survey } { disable := true } [] = (.ok e, []) ∧
    Host.oracle.Reliable ∧
    provableOf .ugt [3] (.value 2) [4] (.value 2) ⟨{ host := .oracle }, e⟩ = (.ok true, s') ∧
    provableOf .ult [4] (.value 2) [3] (.value 2) ⟨{ host := .oracle }, e⟩ = (.ok true, t') := by
  let passed : Clause := .or (.atom .eq (.result 2 boolWidth) (.ofInt boolWidth 1))
    (.atom .eq (.result 2 boolWidth) (.ofInt boolWidth 0))
  have found : (Survey.ofProgram .switching []).toOption.map (fun survey =>
      let s : Subject := { program := .switching, survey }
      let c : Capture := { fixed := [] }
      (s.fixedValues, s.topLevelFacts [], s.loadFacts (c.isFixed .switching), s.onceEdgeFacts [],
        s.libraryFacts (c.isFixed .switching), s.realize c .switched [])) =
      some (.ok [], .ok [passed], .ok [], (.ok [], []), .ok [], (.ok [.switch 1 1, .switch 0 2], [])) := by cbv
  obtain ⟨survey, made, read⟩ := Survey.exists_of_map_eq found
  obtain ⟨fixed, top, loads, edges, library, realize⟩ := by simpa only [Prod.mk.injEq] using read
  have sorted : Clause.sort ([passed] ++ [] ++ [] ++ []) = .ok [passed] :=
    Clause.sort_eq_ok (by decide +kernel) (.refl _) (by decide +kernel) (by decide +kernel)
  have opened := Engine.ofSubject_bare fixed top loads edges library sorted
  let first : Situation := ⟨{ host := .oracle }, .bare { program := .switching, survey } []⟩
  have reachable : first.Reachable := .made _ opened
  have realizes : first.engine.Realizes .switched [.switch 1 1, .switch 0 2] := ⟨[], [], run_bind_ok realize⟩
  have spoken : (first.engine.classes.canonical .switched).mentions first.engine.config.guards =
    [.leaf (.switch [3] 1), .leaf (.switch [4] 2)] := rfl
  have admits : first.Admits .switched :=
    { folds := ⟨none, rfl⟩
      realizes := ⟨_, realizes, by simpa using ⟨Clause.narrow_switch 1 1, Clause.narrow_switch 0 2⟩⟩
      narrow := fun k hk => by simp [spoken] at hk
      solver := .inr ⟨rfl, by rintro _ ⟨⟩, rfl, by rintro _ ⟨⟩, ⟨fun _ => ⟨1, 0#1⟩, fun _ => Nat.one_pos⟩,
        by rintro _ ⟨⟩⟩ }
  obtain ⟨b, s', run⟩ := (provable_ok_iff reachable.coherent Host.reliable_oracle rfl).2 (.inr admits)
  have asked : question .ugt [3] (.value 2) [4] (.value 2) first = (.ok .switched, first) :=
    question_eq_ok.2 ⟨_, _, rfl, rfl, rfl, rfl, rfl⟩
  have modelled := (question_leaves (s := first) asked).2
  have answer : b = true := (provable_iff reachable.coherent Host.reliable_oracle.grants modelled run
    (World.sincere_of_reliable ((later_of_provable reachable.coherent run).host_eq ▸ Host.reliable_oracle))).2
      (.inr (.inr ⟨_, realizes, Clause.no_model_switched⟩))
  subst answer
  have same := ((comparison_symmetric reachable .ugt [3] [4] (.value 2) (.value 2)).2 Host.reliable_oracle rfl).1
  rw [provableOf, run_bind_ok asked, run] at same
  rcases run' : provableOf .ult [4] (.value 2) [3] (.value 2) first with ⟨f | b, t'⟩
  · cases same.trans (congrArg (·.1.toOption) run')
  · cases same.trans (congrArg (·.1.toOption) run')
    exact ⟨survey, first.engine, s', t', made, opened, Host.reliable_oracle, (run_bind_ok asked).trans run, run'⟩

end SsaFacts
