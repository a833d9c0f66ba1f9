import SsaFacts.Proofs.Constants

/-! Discovery of constants by an engine, in every situation that it can come to. -/
namespace SsaFacts

open Smt

theorem Program.leaf_plain (p : Program) (v : ValueId) :
    Gives (p.leaf v) fun x => p.isConstant v = false → x = .leaf (p.plainLeaf v) := by
  refine (p.width_gives v).bind fun w hw => (p.const?_gives v).bind fun c hc => ?_
  subst hw
  cases c with
  | some z =>
    refine .pure fun named => ?_
    rw [named] at hc
    cases hc
  | none => exact .pure fun _ => rfl

theorem Program.not_forced_of_unmentioned {p : Program} {g : Guards} {cs : List Clause} {v : ValueId}
    {k : Literal} (stated : ∀ c ∈ cs, c.Stated p) (model : ∃ ν : Assignment, ν.Satisfies g cs)
    (unmentioned : ¬∃ c ∈ cs, p.plainLeaf v ∈ c.leaves) : ¬p.Forced g cs v k := by
  obtain ⟨ν, hν⟩ := model
  intro forced
  let μ : Assignment := {
    value := fun n => if n = (p.plainLeaf v).solverName then ⟨k.width + 1, 0⟩ else ν.value n
    nonempty := fun n => by
      split
      · exact Nat.succ_pos _
      · exact ν.nonempty n }
  have other : ∀ c ∈ cs, ∀ l ∈ c.leaves, μ.value l.solverName = ν.value l.solverName := by
    intro c hc l hl
    refine if_neg fun name => unmentioned ⟨c, hc, ?_⟩
    obtain ⟨u, -, rfl⟩ := (stated c hc).leaf_eq hl
    rwa [← Program.plainLeaf_inj name]
  have satisfied : μ.Satisfies g cs := by
    intro c hc
    refine ⟨fun l hl => ?_, fun f hf => ?_⟩
    · rw [Assignment.env, other c hc l hl]
      exact (hν c hc).width_eq l hl
    · rw [← (hν c hc).eval_eq f hf]
      refine Formula.eval_congr fun n hn => ?_
      obtain ⟨l, hl, rfl⟩ := Clause.names_formulas hf hn
      exact other c hc l hl
  have value : μ.env (p.plainLeaf v) = ⟨k.width + 1, 0⟩ := if_pos rfl
  have widths := congrArg Vec.width (value.symm.trans (forced μ satisfied))
  exact Nat.succ_ne_self k.width widths

namespace Engine
variable {e : Engine} {v : ValueId} {k : Literal}

theorem literalOf?_eq_some : e.literalOf? v = some k ↔ e.classes.root (.value v) = .literal k := by
  unfold literalOf?
  split <;> simp_all

theorem mem_knownConstants :
    (v, k) ∈ e.knownConstants ↔ v ∈ e.capture.fixed ∧ e.classes.root (.value v) = .literal k := by
  simp [knownConstants, literalOf?_eq_some]

theorem mentions_iff (stated : ∀ c ∈ e.facts, c.Stated e.program) :
    e.mentions v ↔ ∃ c ∈ e.facts, e.program.plainLeaf v ∈ c.leaves := by
  simp only [mentions, List.any_eq_true, decide_eq_true_eq]
  constructor
  · rintro ⟨c, hc, l, hl, rfl⟩
    obtain ⟨u, -, rfl⟩ := (stated c hc).leaf_eq hl
    exact ⟨c, hc, hl⟩
  · rintro ⟨c, hc, hl⟩
    exact ⟨c, hc, _, hl, rfl⟩

theorem mem_candidates : v ∈ e.candidates ↔ v ∈ e.capture.fixed ∧ e.program.isConstant v = false ∧
    e.classes.root (.value v) = .value v ∧ e.mentions v := by
  simp [candidates, and_assoc]

end Engine

namespace Inquiry
variable {s : Situation}

theorem candidates_run (e : Engine) (s : Situation) :
    (∃ f, (e.candidates.mapM fun v => return (v, ← Talk.ofChecked (e.program.leaf v)) : Inquiry _) s =
        (.error f, s)) ∨
      (e.candidates.mapM fun v => return (v, ← Talk.ofChecked (e.program.leaf v)) : Inquiry _) s =
        (.ok (e.candidates.map fun v => (v, .leaf (e.program.plainLeaf v))), s) := by
  let pair (v : ValueId) : Except Failure (ValueId × Expr) :=
    ((e.program.leaf v).mapError Failure.fault).map fun x => (v, x)
  have step (v : ValueId) (s : Situation) :
      (do return (v, ← Talk.ofChecked (e.program.leaf v)) : Inquiry (ValueId × Expr)) s = (pair v, s) := by
    show _ = (((e.program.leaf v).mapError Failure.fault).map fun x => (v, x), s)
    cases e.program.leaf v <;> rfl
  rw [run_mapM_const step]
  cases read : e.candidates.mapM pair with
  | error f => exact .inl ⟨f, rfl⟩
  | ok xs =>
    have named : ∀ v ∈ e.candidates, e.program.isConstant v = false :=
      fun v hv => (Engine.mem_candidates.1 hv).2.1
    have plain {v : ValueId} {x : ValueId × Expr} (named : e.program.isConstant v = false)
        (h : pair v = .ok x) : x = (v, .leaf (e.program.plainLeaf v)) := by
      dsimp only [pair] at h
      cases hx : e.program.leaf v with
      | error f =>
        rw [hx] at h
        cases h
      | ok y =>
        rw [hx] at h
        cases h
        rw [e.program.leaf_plain v y hx named]
    suffices eq : xs = e.candidates.map fun v => (v, .leaf (e.program.plainLeaf v)) by
      rw [eq]
      exact .inr rfl
    have each := forall₂_of_mapM_eq_ok read
    clear read
    generalize e.candidates = vs at named each ⊢
    induction each with
    | nil => rfl
    | cons first _ ih =>
      obtain ⟨named, later⟩ := List.forall_mem_cons.1 named
      rw [List.map_cons, plain named first, ih later]

theorem mentioned_candidates (coherent : s.Coherent) :
    ∀ v ∈ (s.engine.candidates.map fun v => (v, Expr.leaf (s.engine.program.plainLeaf v))).map Prod.fst,
      ∃ c ∈ s.engine.facts, s.engine.program.plainLeaf v ∈ c.leaves := by
  intro v hv
  simp only [List.map_map, List.mem_map, Function.comp_apply, exists_eq_right] at hv
  exact (Engine.mentions_iff coherent.stated).1 (Engine.mem_candidates.1 hv).2.2.2

/-- How the search for constants goes: it fails and leaves the engine coherent, or a solver that holds the
facts answers it and the constants are bound. -/
theorem identifyConstants_run (coherent : s.Coherent) :
    (∃ f s', identifyConstants s = (.error f, s') ∧ s'.Coherent) ∨
      ∃ (t t' : Session) (out : List (ValueId × Literal)) (classes : Classes) (w : World),
        s.world.Later t.world ∧ t.solver.config = s.engine.config ∧ t.Holds s.engine.facts ∧
        Dialogue.constants (s.engine.candidates.map fun v => (v, .leaf (s.engine.program.plainLeaf v))) t =
          (.ok out, t') ∧
        Situation.Coherent ⟨t'.world, { s.engine with solver := some t'.solver }⟩ ∧
        Classes.JoinsAll s.engine.classes (out.map fun x => (.value x.1, .literal x.2)) classes ∧
        t'.world.Silent w ∧
        identifyConstants s = (.ok ({ s.engine with classes }).knownConstants,
          ⟨w, { s.engine with classes, solver := some t'.solver }⟩) := by
  let found := s.engine.candidates.map fun v => (v, Expr.leaf (s.engine.program.plainLeaf v))
  have own : engine s = (.ok s.engine, s) := rfl
  rw [identifyConstants, run_bind_ok own]
  rcases candidates_run s.engine s with ⟨f, failed⟩ | read
  · rw [run_bind_error failed]
    exact .inl ⟨f, s, rfl, coherent⟩
  rw [run_bind_ok read]
  rcases withSolver_run coherent (Dialogue.constants found) with
    ⟨t, later, config, holds, run⟩ | ⟨none, f, w, run⟩
  swap
  · rw [run_bind_error run]
    refine .inl ⟨f, _, rfl, coherent.of_world fun σ hσ => ?_⟩
    rw [none] at hσ
    cases hσ
  have leaves : ∀ x ∈ found, x.2 = .leaf (s.engine.program.plainLeaf x.1) := by
    intro x hx
    obtain ⟨v, -, rfl⟩ := List.mem_map.1 hx
    rfl
  have resumes := Dialogue.constants_resumes leaves (mentioned_candidates coherent) holds
  have kept : Situation.Coherent ⟨(Dialogue.constants found t).2.world,
      { s.engine with solver := some (Dialogue.constants found t).2.solver }⟩ := by
    refine ⟨coherent.made, coherent.rooted, coherent.uniform, coherent.listed, ?_⟩
    rintro _ ⟨⟩
    exact ⟨resumes.config_eq.trans config, resumes.holds holds⟩
  rcases answered : Dialogue.constants found t with ⟨f | out, t'⟩ <;> rw [answered] at run kept
  · rw [run_bind_error run]
    exact .inl ⟨f, _, rfl, kept⟩
  rw [run_bind_ok run]
  let bind : Noted Classes := out.foldlM
    (fun classes x => classes.identify (.value x.1) (.literal x.2)) s.engine.classes
  rcases bound : bind t'.world.notices with ⟨f | classes, ns⟩
  · have noted : Talk.ofNoted bind t'.world = (.error (.fault f), { t'.world with notices := ns }) :=
      Talk.ofNoted_run bound
    rw [run_bind_error (lift_run noted)]
    exact .inl ⟨_, _, rfl, kept.of_world fun _ _ => Session.resumes_of_silent ⟨rfl, rfl⟩⟩
  · have noted : Talk.ofNoted bind t'.world = (.ok classes, { t'.world with notices := ns }) :=
      Talk.ofNoted_run bound
    rw [run_bind_ok (lift_run noted)]
    have joined := Classes.joinsAll_of_identify coherent.rooted bound
    exact .inr ⟨t, t', out, classes, { t'.world with notices := ns }, later, config, holds, answered, kept,
      joined, ⟨rfl, rfl⟩, rfl⟩

/-- Bound constants are literals at the width of the values that they are bound to. -/
theorem keeps_identifyConstants : Keeps Situation.Sound identifyConstants := by
  intro s coherent
  rcases identifyConstants_run coherent with ⟨f, s', run, kept⟩ |
    ⟨t, t', out, classes, w, -, config, holds, answered, kept, joined, silent, run⟩
  · rw [run]
    exact kept
  rw [run]
  have found : ∀ x ∈ out, x.1 ∈ s.engine.candidates ∧ x.2.width = s.engine.program.modelWidth x.1 := by
    intro x hx
    obtain ⟨e, mem, width⟩ := Dialogue.constants_subset answered x hx
    obtain ⟨v, hv, eq⟩ := List.mem_map.1 mem
    cases eq
    exact ⟨hv, width⟩
  have pair {a b : Node} (hab : (a, b) ∈ out.map fun x => (Node.value x.1, Node.literal x.2)) :
      ∃ v l, a = .value v ∧ b = .literal l ∧ v ∈ s.engine.candidates ∧
        l.width = s.engine.program.modelWidth v := by
    obtain ⟨x, hx, eq⟩ := List.mem_map.1 hab
    cases eq
    exact ⟨x.1, x.2, rfl, rfl, found x hx⟩
  refine ⟨coherent.made, joined.rooted, ?_, ?_, ?_⟩
  · refine joined.respects (Node.equivalence_alike _) (fun a b hab => ?_) coherent.uniform
    obtain ⟨v, l, rfl, rfl, hv, width⟩ := pair hab
    exact .inr ⟨(Engine.mem_candidates.1 hv).2.1, trivial, width.symm⟩
  · refine joined.respects (Node.equivalence_listed _) (fun a b hab => ?_) coherent.listed
    obtain ⟨v, l, rfl, rfl, hv, -⟩ := pair hab
    exact .inr ⟨(Engine.mem_candidates.1 hv).1, trivial⟩
  · rintro _ ⟨⟩
    obtain ⟨config, holds⟩ := kept.holds t'.solver rfl
    exact ⟨config, (Session.resumes_of_silent silent).holds holds⟩

inductive Operation : {α : Type} → Inquiry α → Prop
  | provable (c : Clause) : Operation (provable c)
  | satisfiable (c : Clause) : Operation (satisfiable c)
  | provableOf (pred : Predicate) (stack₁ : List ValueId) (v₁ : Operand) (stack₂ : List ValueId)
      (v₂ : Operand) : Operation (provableOf pred stack₁ v₁ stack₂ v₂)
  | satisfiableOf (pred : Predicate) (stack₁ : List ValueId) (v₁ : Operand) (stack₂ : List ValueId)
      (v₂ : Operand) : Operation (satisfiableOf pred stack₁ v₁ stack₂ v₂)
  | identifyConstants : Operation identifyConstants
  | checkConsistency : Operation checkConsistency
  | recalculate : Operation recalculate
  | close : Operation close

theorem Operation.keeps {α : Type} {x : Inquiry α} (h : Operation x) : Keeps Situation.Sound x := by
  cases h with
  | provable c => exact asks_sound.provable c
  | satisfiable c => exact asks_sound.satisfiable c
  | provableOf pred stack₁ v₁ stack₂ v₂ => exact asks_sound.provableOf pred stack₁ v₁ stack₂ v₂
  | satisfiableOf pred stack₁ v₁ stack₂ v₂ => exact asks_sound.satisfiableOf pred stack₁ v₁ stack₂ v₂
  | identifyConstants => exact keeps_identifyConstants
  | checkConsistency => exact keeps_checkConsistency
  | recalculate => exact keeps_recalculate
  | close => exact keeps_close

end Inquiry

/-- The situations that an engine can come to: it is made from a program, it is asked, and meanwhile
other processes are spoken to. -/
inductive Situation.Reachable : Situation → Prop
  | made {subject : Subject} {config : Config} {e : Engine} {ns ns' : List Notice} (w : World)
      (run : Engine.ofSubject subject config ns = (.ok e, ns')) : Reachable ⟨w, e⟩
  | asked {s : Situation} {α : Type} {x : Inquiry α} (h : s.Reachable) (op : Inquiry.Operation x) :
      Reachable (x s).2
  | elsewhere {s : Situation} {w : World} {added : List Entry} (h : s.Reachable)
      (host_eq : w.host = s.world.host) (history_eq : w.history = added ++ s.world.history)
      (apart : ∀ σ ∈ s.engine.solver, ∀ e ∈ added, e.process ≠ σ.process) : Reachable ⟨w, s.engine⟩

theorem Situation.Reachable.coherent {s : Situation} (h : s.Reachable) : s.Coherent := by
  induction h with
  | made w run => exact coherent_ofSubject run w
  | asked _ op ih => exact op.keeps _ ih
  | @elsewhere s w added _ host_eq history_eq apart ih =>
    refine ih.of_world fun σ hσ => ?_
    have later : s.world.Later w := ⟨host_eq, history_eq ▸ List.suffix_append _ _⟩
    have same : Smt.levels σ.process w.history = Smt.levels σ.process s.world.history := by
      rw [history_eq, levels_append (apart σ hσ)]
    exact ⟨rfl, rfl, later, fun ν => by rw [Session.levels, Session.levels, same], fun _ h => h,
      fun _ => ⟨rfl, same⟩⟩

/-- Among the values that represent fixed ones, only candidates can be forced: a value that the facts do
not mention is free. -/
theorem Situation.Coherent.mem_candidates_of_forced {s : Situation} (h : s.Coherent) {v r : ValueId}
    {k : Literal} (model : ∃ ν : Assignment, ν.Satisfies s.engine.config.guards s.engine.facts)
    (hv : v ∈ s.engine.capture.fixed) (hr : s.engine.classes.root (.value v) = .value r)
    (forced : s.engine.program.Forced s.engine.config.guards s.engine.facts r k) :
    r ∈ s.engine.candidates := by
  have mentioned : ∃ c ∈ s.engine.facts, s.engine.program.plainLeaf r ∈ c.leaves := by
    by_contra unmentioned
    exact Program.not_forced_of_unmentioned h.stated model unmentioned forced
  have named : s.engine.program.isConstant r = false := by
    obtain ⟨c, hc, hl⟩ := mentioned
    obtain ⟨u, named, eq⟩ := (h.stated c hc).leaf_eq hl
    rwa [Program.plainLeaf_inj (congrArg Leaf.solverName eq)]
  have top : s.engine.classes.root (.value r) = .value r := by
    rw [← hr, h.rooted.root_root]
  exact Engine.mem_candidates.2
    ⟨h.root_mem hv hr, named, top, (Engine.mentions_iff h.stated).2 mentioned⟩

/-- With a truthful solver the constants that are found are exactly those that every model of the facts
agrees on. For each fixed value, the constants are the literal that represents it, or the one literal that
all models give to the value that represents it. -/
theorem Inquiry.mem_identifyConstants_iff {s s' : Situation} {result : List (ValueId × Literal)}
    (reachable : s.Reachable) (run : identifyConstants s = (.ok result, s')) (honest : s'.world.Honest)
    {v : ValueId} (hv : v ∈ s.engine.capture.fixed) (k : Literal) :
    (v, k) ∈ result ↔ s.engine.classes.root (.value v) = .literal k ∨
      ∃ r, s.engine.classes.root (.value v) = .value r ∧
        ∀ ν : Assignment, ν.Satisfies s.engine.config.guards s.engine.facts →
          ν.env (s.engine.program.plainLeaf r) = k.vec := by
  have coherent := reachable.coherent
  rcases identifyConstants_run coherent with ⟨f, s', failed, -⟩ |
    ⟨t, t', out, classes, w, -, config, holds, answered, -, joined, silent, found⟩
  · rw [failed] at run
    cases run
  rw [found] at run
  cases run
  have leaves : ∀ x ∈ s.engine.candidates.map fun v => (v, Expr.leaf (s.engine.program.plainLeaf v)),
      x.2 = .leaf (s.engine.program.plainLeaf x.1) := by
    intro x hx
    obtain ⟨v, -, rfl⟩ := List.mem_map.1 hx
    rfl
  obtain ⟨model, constants⟩ := Dialogue.constants_ok leaves (mentioned_candidates coherent) holds
    (Clause.typed_of_stated coherent.stated) answered (silent.later.honest honest)
  rw [config] at model constants
  have found (v : ValueId) (k : Literal) : (v, k) ∈ out ↔ v ∈ s.engine.candidates ∧
      s.engine.program.Forced s.engine.config.guards s.engine.facts v k := by
    simp [constants]
  have free : ∀ x ∈ out, s.engine.classes.root (.value x.1) = .value x.1 ∨
      s.engine.classes.root (.value x.1) = .literal x.2 := by
    intro x hx
    exact .inl (Engine.mem_candidates.1 ((found x.1 x.2).1 hx).1).2.2.1
  have functional : ∀ v k l, (v, k) ∈ out → (v, l) ∈ out → k = l := by
    intro v k l hk hl
    obtain ⟨ν, hν⟩ := model
    exact Literal.vec_injective
      ((((found v k).1 hk).2 ν hν).symm.trans (((found v l).1 hl).2 ν hν))
  rw [Engine.mem_knownConstants, and_iff_right hv,
    joined.root_eq_literal_iff coherent.rooted free functional]
  refine or_congr_right (exists_congr fun r => and_congr_right fun hr => ?_)
  rw [found]
  exact ⟨fun h => h.2, fun forced => ⟨coherent.mem_candidates_of_forced model hv hr forced, forced⟩⟩

/-- An input and 1 add up to what is marked as equal to 5. -/
def Subject.offset : Subject :=
  .straightLine [1, 5] [.call (.direct 2) [], .binary .add 2 0, .call (.direct 1) [3, 1]]

/-- What is asserted when the input of the program is asked for. -/
def Smt.Formula.offset : Formula :=
  .rel .eq (.const (.ofInt 32 5)) (.app .bvadd (.name "x2") (.const (.ofInt 32 1)))

/-- Answers what is asked about the input. -/
def Host.offset : Host where
  launches _ _ := true
  creates _ := true
  reply history _ c :=
    match c, history with
    | .checkSat, .sent _ (.assert (.not _)) :: _ => .atom "unsat"
    | .checkSat, _ => .atom "sat"
    | .getValue _, _ => .list [.list [.atom "x2", .atom "#x00000004"]]
    | _, _ => .atom "success"

theorem Smt.Formula.offset_eval {ν : Assignment} (width : (ν.value "x2").width = 32) :
    Formula.offset.eval ν = some true ↔ ν.value "x2" = (Literal.ofInt 32 4).vec := by
  rcases value : ν.value "x2" with ⟨w, x⟩
  rw [value] at width
  cases width
  have five : (Literal.ofInt 32 5).vec = ⟨32, 5#32⟩ := rfl
  have four : (Literal.ofInt 32 4).vec = ⟨32, 4#32⟩ := rfl
  have one : (Literal.ofInt 32 1).vec = ⟨32, 1#32⟩ := rfl
  simp [offset, eval, Term.eval, value, five, four, one, Fn.apply, Rel.test]
  bv_omega

/-- All that is said while the constants of the program are looked for, latest first. -/
def Host.talk : List Entry := [.sent 0 .pop, .sent 0 .checkSat,
  .sent 0 (.assert (.not (.rel .eq (.name "x2") (.const (.ofInt 32 4))))), .sent 0 .push,
  .sent 0 (.getValue [.name "x2"]), .sent 0 .checkSat, .sent 0 .checkSat, .sent 0 (.assert .offset),
  .sent 0 (.declare "x2" 32), .sent 0 (.enable "produce-models"), .sent 0 (.enable "produce-models"),
  .sent 0 (.enable "print-success"), .started 0]

/-- What the solver was told about the input. -/
def Smt.Level.offset : Level := { declared := [("x2", 32)], asserted := [.offset] }

theorem Smt.Assignment.models_offset {ν : Assignment} :
    ν.Models [.offset] ↔ ν.value "x2" = (Literal.ofInt 32 4).vec := by
  constructor
  · intro h
    have met := h .offset (by simp)
    exact (Formula.offset_eval (met.width_eq ("x2", 32) (by simp [Level.offset]))).1
      (met.eval_eq .offset (by simp [Level.offset]))
  · intro h l hl
    cases List.mem_singleton.1 hl
    have width : (ν.value "x2").width = 32 := by rw [h]; rfl
    exact ⟨by simpa [Level.offset] using width, by simpa [Level.offset] using (Formula.offset_eval width).2 h⟩

theorem Host.honest_talk : Host.offset.Honest talk := by
  let four : Assignment := ⟨fun _ => ⟨32, 4#32⟩, fun _ => by decide⟩
  let told : Level := .offset
  have satisfied : four.Models [told] := Assignment.models_offset.2 rfl
  have consistent : HasModel [told] := ⟨four, satisfied⟩
  have departed : ¬HasModel [{ asserted := [.not (.rel .eq (.name "x2") (.const (.ofInt 32 4)))] }, told] := by
    rintro ⟨ν, h⟩
    have value := Assignment.models_offset.1 fun l hl => h l (List.mem_cons_of_mem _ hl)
    have departs := (h _ List.mem_cons_self).eval_eq _ List.mem_cons_self
    simp only [Formula.eval, Term.eval, value] at departs
    exact absurd departs (by decide)
  have listed : Lists four (.name "x2") (.list [.atom "x2", .atom "#x00000004"]) := by
    refine ⟨⟨32, 4#32⟩, _, _, rfl, ?_, rfl⟩
    have spelled : Spells 16 ['0', '0', '0', '0', '0', '0', '0', '4'] 4 :=
      ⟨[0, 0, 0, 0, 0, 0, 0, 4], by simp, by decide⟩
    exact @Numeral.hexadecimal ['0', '0', '0', '0', '0', '0', '0', '4'] ⟨32, 4#32⟩ rfl spelled
  have opening : Host.offset.Honest (talk.drop 7) := by simp [talk, Honest, Truthful]
  have loaded : Host.offset.Honest (talk.drop 6) :=
    ⟨opening, fun _ => rfl, fun none => absurd consistent none⟩
  have checked : Host.offset.Honest (talk.drop 5) :=
    ⟨loaded, fun _ => rfl, fun none => absurd consistent none⟩
  have valued : Host.offset.Honest (talk.drop 4) :=
    ⟨checked, fun _ _ => ⟨four, satisfied, _, rfl, .cons listed .nil⟩⟩
  have departing : Host.offset.Honest (talk.drop 2) := ⟨⟨valued, trivial⟩, trivial⟩
  have confirmed : Host.offset.Honest (talk.drop 1) :=
    ⟨departing, fun some => absurd some departed, fun _ => rfl⟩
  exact ⟨confirmed, trivial⟩

/-- The engine of the program. -/
def Engine.offset : Engine where
  subject := .offset
  config := {}
  capture := {
    fixed := [2, 3, 4]
    facts := [.atom .eq (.result 3 32) (.ofInt 32 5),
      .atom .eq (.result 3 32) (.binary .add (.result 2 32) (.ofInt 32 1))] }
  classes := { parents := [(3, .literal (.ofInt 32 5))] }
  facts := [.atom .eq (.ofInt 32 5) (.binary .add (.result 2 32) (.ofInt 32 1))]

theorem Engine.ofSubject_offset : ofSubject .offset {} [] = (.ok offset, []) := by
  let sum : Clause := .atom .eq (.result 3 32) (.binary .add (.result 2 32) (.ofInt 32 1))
  let five : Clause := .atom .eq (.result 3 32) (.ofInt 32 5)
  have sorted : Clause.sort [sum, five] = .ok [five, sum] :=
    Clause.sort_eq_ok (by decide +kernel) (.swap _ _ _) (by decide +kernel) (by decide +kernel)
  have edges : Subject.offset.onceEdgeFacts [] = (.ok [five], []) := by
    with_unfolding_all rfl
  exact ofSubject_of_capture (Subject.capture_eq rfl rfl rfl edges rfl sorted) rfl rfl

/-- The solver that holds the facts of the program. -/
def Solver.offset : Solver := { config := {}, process := 0, declared := ["x2"], scopes := [["x2"]] }

theorem Inquiry.start_offset : start ⟨{ host := .offset }, .offset⟩ =
    (.ok .offset, ⟨{ host := .offset, history := Host.talk.drop 6, leased := true }, .offset⟩) := by
  with_unfolding_all rfl

theorem Inquiry.identifyConstants_offset : identifyConstants ⟨{ host := .offset }, .offset⟩ =
    (.ok [(2, .ofInt 32 4), (3, .ofInt 32 5)], ⟨{ host := .offset, history := Host.talk, leased := true },
      { Engine.offset with
        classes := { parents := [(2, .literal (.ofInt 32 4)), (3, .literal (.ofInt 32 5))] }
        solver := some .offset }⟩) := by
  let world (n : Nat) : World := { host := .offset, history := Host.talk.drop n, leased := true }
  let solver : Solver := .offset
  have checked : Dialogue.check ⟨world 6, solver⟩ = (.ok .sat, ⟨world 5, solver⟩) := rfl
  have valued : Dialogue.modelValues [.result 2 32] ⟨world 5, solver⟩ =
      (.ok [.ofInt 32 4], ⟨world 4, solver⟩) := by
    with_unfolding_all rfl
  have confirmed : Dialogue.inScope (Dialogue.refute ⟨2, .result 2 32, .ofInt 32 4⟩ [])
      ⟨world 4, solver⟩ = (.ok none, ⟨world 0, solver⟩) := rfl
  have answered : Dialogue.constants [(2, .result 2 32)] ⟨world 6, solver⟩ =
      (.ok [(2, .ofInt 32 4)], ⟨world 0, solver⟩) := by
    rw [Dialogue.constants, run_bind_ok checked]
    exact (run_bind_ok valued).trans (run_bind_ok confirmed)
  have own : engine ⟨{ host := .offset }, .offset⟩ = (.ok .offset, ⟨{ host := .offset }, .offset⟩) := rfl
  have held : withSolver (Dialogue.constants [(2, .result 2 32)]) ⟨{ host := .offset }, .offset⟩ =
      (.ok [(2, .ofInt 32 4)], ⟨world 0, { Engine.offset with solver := some solver }⟩) :=
    withSolver_of_none rfl start_offset answered
  have read : (Engine.offset.candidates.mapM fun v =>
      return (v, ← Talk.ofChecked (Engine.offset.program.leaf v)) : Inquiry _) ⟨{ host := .offset }, .offset⟩ =
        (.ok [(2, .result 2 32)], ⟨{ host := .offset }, .offset⟩) := rfl
  rw [identifyConstants, run_bind_ok own, run_bind_ok read, run_bind_ok held]
  rfl

theorem Inquiry.mem_identifyConstants_offset :
    ∃ s', identifyConstants ⟨{ host := .offset }, .offset⟩ =
        (.ok [(2, .ofInt 32 4), (3, .ofInt 32 5)], s') ∧ s'.world.Honest ∧
      ∀ k, (2, k) ∈ [(2, .ofInt 32 4), (3, .ofInt 32 5)] ↔
        Engine.offset.classes.root (.value 2) = .literal k ∨
          ∃ r, Engine.offset.classes.root (.value 2) = .value r ∧
            ∀ ν : Assignment, ν.Satisfies {} Engine.offset.facts →
              ν.env (Engine.offset.program.plainLeaf r) = k.vec := by
  exact ⟨_, identifyConstants_offset, Host.honest_talk, mem_identifyConstants_iff
    (.made _ Engine.ofSubject_offset) identifyConstants_offset Host.honest_talk (by decide)⟩

end SsaFacts
