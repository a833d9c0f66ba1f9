import SsaFacts.Proofs.Consistency
import SsaFacts.Proofs.Surveys
import SsaFacts.Proofs.Verdicts

/-! What an engine that keeps no facts can prove. Its solver holds nothing, so an answer rests on the
clause and on the facts that are realized for it; where none are realized, only a clause that is true under
every assignment is provable. -/
namespace SsaFacts

open Smt

def World.Asserts (P : Formula → Prop) (w w' : World) : Prop :=
  ∃ added, w'.history = added ++ w.history ∧ ∀ p f, .sent p (.assert f) ∈ added → P f

instance World.isPreorder_asserts (P : Formula → Prop) : IsPreorder World (Asserts P) where
  refl _ := ⟨[], rfl, by simp⟩
  trans := by
    rintro u v w ⟨added, eq, told⟩ ⟨added', eq', told'⟩
    refine ⟨added' ++ added, by rw [eq', eq, List.append_assoc], fun p f hf => ?_⟩
    rcases List.mem_append.1 hf with hf | hf
    · exact told' p f hf
    · exact told p f hf

/-- The formulas that were asserted in between are as described, if they are stated under the given side
conditions. -/
def Session.Asserts (g : Guards) (P : Formula → Prop) (s s' : Session) : Prop :=
  s.solver.config.guards = g → s'.solver.config.guards = g ∧ s.world.Asserts P s'.world

instance Session.isPreorder_asserts (g : Guards) (P : Formula → Prop) :
    IsPreorder Session (Asserts g P) where
  refl s h := ⟨h, refl_of (World.Asserts P) s.world⟩
  trans _ _ _ h h' := fun start => ⟨(h' (h start).1).1,
    trans_of (World.Asserts P) (h start).2 (h' (h start).1).2⟩

namespace World
variable {P Q : Formula → Prop} {w w' : World}

theorem Asserts.mono (h : w.Asserts P w') (imp : ∀ f, P f → Q f) : w.Asserts Q w' := by
  obtain ⟨added, eq, told⟩ := h
  exact ⟨added, eq, fun p f hf => imp f (told p f hf)⟩

theorem Silent.asserts (h : w.Silent w') : w.Asserts P w' := ⟨[], h.history_eq, by simp⟩

theorem asserts_told {c : Command} (p : Nat) (h : ∀ f, c = .assert f → P f) : w.Asserts P (w.told p c) := by
  refine ⟨[.sent p c], rfl, fun q f hf => h f ?_⟩
  obtain ⟨-, rfl⟩ : q = p ∧ Command.assert f = c := by simpa using hf
  rfl

end World

namespace Talk
variable {P : Formula → Prop}

theorem asserts_acknowledge {c : Command} (p : Nat) (h : ∀ f, c = .assert f → P f) :
    Keeps (World.Asserts P) (acknowledge p c) := by
  intro w
  rcases acknowledge_run p c w with run | ⟨reply, run⟩ <;>
    · rw [run]
      exact World.asserts_told p h

theorem asserts_launch (config : Config) : Keeps (World.Asserts P) (launch config) := by
  have created : Keeps (World.Asserts P) (createReplay config) := by
    intro w
    rcases createReplay_run config w with ⟨replay, run⟩ | run
    · rw [run]
      exact ⟨[], rfl, by simp⟩
    · rw [run]
      exact refl_of (World.Asserts P) w
  have spawned : Keeps (World.Asserts P) (spawn config) := by
    intro w
    rcases spawn_run config w with ⟨p, run⟩ | run
    · rw [run]
      exact ⟨[.started p], rfl, by simp⟩
    · rw [run]
      exact refl_of (World.Asserts P) w
  refine created.bind fun _ => spawned.bind fun p => ?_
  refine (asserts_acknowledge p nofun).bind fun _ => (asserts_acknowledge p nofun).bind fun _ => ?_
  exact (asserts_acknowledge p nofun).bind fun _ => .pure p

theorem asserts_acquire (config : Config) : Keeps (World.Asserts P) (Solver.acquire config) := by
  have lease (b : Bool) : Keeps (World.Asserts P) (update fun w => { w with leased := b }) :=
    fun w => ⟨[], rfl, by simp⟩
  intro w
  have seen : world w = (.ok w, w) := rfl
  rw [Solver.acquire, run_bind_ok seen]
  split
  · exact refl_of (World.Asserts P) w
  refine (?_ : Keeps (World.Asserts P) _) w
  refine (lease true).bind fun _ => Keeps.bind ?_ fun process => .pure _
  exact (asserts_launch config).tryCatch fun e => (lease false).bind fun _ => .throw e

end Talk

namespace Dialogue
variable {g : Guards} {P : Formula → Prop}

theorem asserts_setSolver {f : Solver → Solver} (h : ∀ σ, (f σ).config = σ.config) :
    Keeps (Session.Asserts g P) (setSolver f) := by
  intro s start
  exact ⟨(congrArg Config.guards (h s.solver)).trans start, refl_of (World.Asserts P) s.world⟩

theorem asserts_acknowledge {c : Command} (h : ∀ f, c = .assert f → P f) :
    Keeps (Session.Asserts g P) (acknowledge c) := by
  intro s start
  rcases acknowledge_run c s with run | ⟨reply, run⟩ <;>
    · rw [run]
      exact ⟨start, World.asserts_told _ h⟩

theorem quiet_asserts : Quiet (Keeps (Session.Asserts g P)) where
  toPlain := .of_silent (fun h s start => ⟨start, (h s.world).asserts⟩)
    (fun n w => by
      refine Keeps.bind (.of_eq fun _ => rfl) fun solver => ?_
      split
      · exact .pure ()
      · exact (asserts_acknowledge nofun).bind fun _ => asserts_setSolver fun _ => rfl)
    fun _ start => ⟨start, World.asserts_told _ nofun⟩
  getValue _ _ start := ⟨start, World.asserts_told _ nofun⟩

theorem asserts_assert {c : Clause} (h : ∀ f ∈ c.formulas g, P f) :
    Keeps (Session.Asserts g P) (assert c) := by
  intro s start
  have solver : solver s = (.ok s.solver, s) := rfl
  rw [assert, run_bind_ok solver, start]
  have prepared : Keeps (Session.Asserts g P) ((c.mentions g).forM prepare) :=
    .forM fun m _ => quiet_asserts.prepare m
  have formulas : Keeps (Session.Asserts g P) ((c.formulas g).forM fun f => acknowledge (.assert f)) := by
    refine .forM fun f hf => asserts_acknowledge ?_
    rintro _ ⟨⟩
    exact h f hf
  exact (prepared.bind fun _ => formulas) s start

theorem asserts_inScope {α : Type} {body : Dialogue α} (hbody : Keeps (Session.Asserts g P) body) :
    Keeps (Session.Asserts g P) (inScope body) := by
  have pushed : Keeps (Session.Asserts g P) push :=
    (asserts_acknowledge nofun).bind fun _ => asserts_setSolver fun _ => rfl
  have popped : Keeps (Session.Asserts g P) pop := by
    refine (asserts_acknowledge nofun).bind fun _ => asserts_setSolver fun σ => ?_
    split <;> rfl
  exact keeps_scope pushed (keeps_close popped quiet_asserts.noted) hbody

/-- Deciding a clause asserts the facts and its negation, and nothing else. -/
theorem asserts_decideClause {facts : List Clause} {c question : Clause}
    (known : ∀ d ∈ facts, ∀ f ∈ d.formulas g, P f) (denied : ∀ f ∈ (Clause.not c).formulas g, P f) :
    Keeps (Session.Asserts g P) (decideClause facts c question) := by
  have told : Keeps (Session.Asserts g P) (assertAll facts) := .forM fun d hd => asserts_assert (known d hd)
  rw [decideClause_eq]
  exact asserts_inScope <|
    keeps_decision quiet_asserts.toPlain told (asserts_assert denied) fun _ _ _ _ => quiet_asserts.reads c

end Dialogue

theorem Subject.capture_disabled {s : Subject} {c : Capture} {ns ns' : List Notice}
    (run : s.capture true ns = (.ok c, ns')) : c.facts = [] := by
  obtain ⟨fixed, ns₁, -, run⟩ := run_bind_eq_ok run
  obtain ⟨top, ns₂, -, run⟩ := run_bind_eq_ok run
  obtain ⟨loads, ns₃, -, run⟩ := run_bind_eq_ok run
  obtain ⟨edges, ns₄, -, run⟩ := run_bind_eq_ok run
  obtain ⟨library, ns₅, -, run⟩ := run_bind_eq_ok run
  obtain ⟨sorted, ns₆, -, run⟩ := run_bind_eq_ok run
  cases run
  rfl

theorem Situation.Coherent.facts_of_disabled {s : Situation} (coherent : s.Coherent)
    (disabled : s.engine.config.disable = true) : s.engine.facts = [] := by
  obtain ⟨e, ns, ns', made, -, facts⟩ := coherent.made
  obtain ⟨capture, ns₁, captured, rest⟩ := run_bind_eq_ok made
  rw [disabled] at captured
  have none := Subject.capture_disabled captured
  obtain ⟨classes, ns₂, -, rest⟩ := run_bind_eq_ok rest
  obtain ⟨reduced, ns₃, reduce, rest⟩ := run_bind_eq_ok rest
  rw [none] at reduce
  cases reduce
  cases rest
  exact facts

namespace Inquiry
variable {s s' : Situation} {P : Formula → Prop}

theorem asserts_start {σ : Solver} (facts : s.engine.facts = []) (run : start s = (.ok σ, s')) :
    s.world.Asserts P s'.world ∧ σ.config = s.engine.config ∧ s'.engine = s.engine := by
  obtain ⟨t₀, t, acquired, -, config, -, loaded, rfl, rfl⟩ := start_eq_ok run
  have begun : s.world.Asserts P t₀.world := (Talk.asserts_acquire s.engine.config).run acquired
  obtain ⟨u, asserted, checked⟩ := Dialogue.load_eq_ok loaded
  rw [facts] at asserted
  cases asserted
  obtain rfl : t = Session.told .checkSat t₀ := by rw [← Dialogue.check_run, checked]
  have asked : t₀.world.Asserts P (t₀.world.told t₀.solver.process .checkSat) := World.asserts_told _ nofun
  exact ⟨trans_of (World.Asserts P) begun asked, config, rfl⟩

/-- An engine without facts asserts what it is asked about, and nothing else. -/
theorem asserts_withSolver {α : Type} {d : Dialogue α} {a : α} (coherent : s.Coherent)
    (facts : s.engine.facts = []) (hd : Keeps (Session.Asserts s.engine.config.guards P) d)
    (run : withSolver d s = (.ok a, s')) : s.world.Asserts P s'.world := by
  cases held : s.engine.solver with
  | some σ =>
    rw [withSolver_of_some held (d := d) rfl] at run
    obtain ⟨-, rfl⟩ := Prod.mk.inj run
    exact (hd ⟨s.world, σ⟩ (congrArg Config.guards (coherent.holds σ held).1)).2
  | none =>
    rcases started : start s with ⟨f | σ, s₁⟩
    · cases (withSolver_of_failure held started).symm.trans run
    · obtain ⟨begun, config, same⟩ := asserts_start (P := P) facts started
      obtain ⟨w, e⟩ := s₁
      obtain rfl : e = s.engine := same
      rw [withSolver_of_none (d := d) (t := ⟨w, σ⟩) held started rfl] at run
      obtain ⟨-, rfl⟩ := Prod.mk.inj run
      exact trans_of (World.Asserts P) begun (hd ⟨w, σ⟩ (congrArg Config.guards config)).2

end Inquiry

theorem Clause.denote_of_tautology {δ : ZeroDivision} {ρ : Leaf → Vec} {c : Clause} (h : c.isTautology) :
    c.denote δ ρ = true := by
  cases c with
  | not c | and a b | or a b | xor a b => cases h
  | atom pred l r =>
    obtain ⟨reflexive, rfl⟩ : pred.isReflexive = true ∧ l = r := by simpa [isTautology] using h
    rw [denote, Predicate.truth, Vec.fit_self, Predicate.test_self, reflexive]

theorem Clause.Faithful.not {c : Clause} (h : c.Faithful) : (Clause.not c).Faithful :=
  ⟨h.sorted, h.fits, h.amounts, h.small⟩

/-- The formula is asserted when the clause is asked about: for its negation or for a fact that the question
needs. -/
def Engine.Poses (e : Engine) (c : Clause) (f : Formula) : Prop :=
  f ∈ (Clause.not (e.classes.canonical c)).formulas e.config.guards ∨
    ∃ facts, e.Realizes c facts ∧ ∃ d ∈ facts, f ∈ d.formulas e.config.guards

namespace Inquiry
variable {s s' : Situation} {c : Clause}

theorem asserts_provable (coherent : s.Coherent) (none : s.engine.facts = [])
    (run : provable c s = (.ok true, s')) : s.world.Asserts (s.engine.Poses c) s'.world := by
  rcases provable_eq_ok run with ⟨-, -, rfl⟩ | ⟨-, -, facts, ns, realized, asked⟩
  · exact refl_of (World.Asserts _) s'.world
  · have silent : s.world.Silent { s.world with notices := ns } := ⟨rfl, rfl⟩
    have coherent : Situation.Coherent ⟨{ s.world with notices := ns }, s.engine⟩ :=
      coherent.of_world fun _ _ => Session.resumes_of_silent silent
    have posed : Keeps (Session.Asserts s.engine.config.guards (s.engine.Poses c))
        (Dialogue.decideClause facts (s.engine.classes.canonical c) c) :=
      Dialogue.asserts_decideClause (fun d hd f hf => .inr ⟨facts, ⟨_, _, realized⟩, d, hd, hf⟩)
        fun f hf => .inl hf
    have told := asserts_withSolver coherent none posed asked
    exact trans_of (World.Asserts _) silent.asserts told

theorem denote_of_provable (coherent : s.Coherent) (none : s.engine.facts = [])
    (faithful : (s.engine.classes.canonical c).Faithful) (run : provable c s = (.ok true, s'))
    (sincere : s'.world.Sincere) {ν : Assignment}
    (keeps : ν.Keeps s.engine.config.guards (s.engine.classes.canonical c))
    (satisfies : ∀ facts, s.engine.Realizes c facts → ν.Satisfies s.engine.config.guards facts) :
    (s.engine.classes.canonical c).denote zeroDivision ν.env = true := by
  rcases provable_cases coherent run with ⟨-, tautology | simplify, -⟩ |
    ⟨-, -, facts, ns, t, t', realized, -, config, holds, decided, world⟩
  · exact Clause.denote_of_tautology tautology
  · exact Clause.denote_of_simplify faithful.sorted simplify
  · have noModel := Dialogue.no_model_of_decideClause holds decided (world ▸ sincere)
    by_contra isFalse
    -- the assignment would meet all that was asserted
    refine noModel ⟨ν, fun d hd => ?_⟩
    rw [config]
    rcases List.mem_append.1 hd with hd | hd
    · rw [none, List.nil_append] at hd
      exact satisfies facts ⟨_, _, realized⟩ d hd
    · rw [List.mem_singleton.1 hd]
      refine faithful.not.accepts_iff.2 ⟨⟨keeps.width_eq, keeps.guarded⟩, ?_⟩
      simpa [Clause.denote] using isFalse

/-- Let an engine keep no facts, and let no check be answered falsely. A clause that it proves is true under
every assignment that meets the side conditions of the clause and the facts realized for it, and only these
facts and the negation of the clause are asserted meanwhile. So where no facts are realized, the clause is
true under every assignment that meets its side conditions, and only its negation is asserted. -/
theorem provable_disabled (reachable : s.Reachable) (disabled : s.engine.config.disable = true)
    (faithful : (s.engine.classes.canonical c).Faithful) (run : provable c s = (.ok true, s'))
    (sincere : s'.world.Sincere) :
    let g := s.engine.config.guards
    let canonical := s.engine.classes.canonical c
    (s.world.Asserts (s.engine.Poses c) s'.world ∧
      ∀ ν : Assignment, ν.Keeps g canonical → (∀ facts, s.engine.Realizes c facts → ν.Satisfies g facts) →
        canonical.denote zeroDivision ν.env = true) ∧
    (s.engine.Realizes c [] → s.world.Asserts (· ∈ (Clause.not canonical).formulas g) s'.world ∧
      ∀ ν : Assignment, ν.Keeps g canonical → canonical.denote zeroDivision ν.env = true) := by
  have coherent := reachable.coherent
  have none := coherent.facts_of_disabled disabled
  have posed := asserts_provable coherent none run
  refine ⟨⟨posed, fun ν => denote_of_provable coherent none faithful run sincere⟩, fun empty => ⟨?_, ?_⟩⟩
  · refine posed.mono fun f hf => hf.resolve_right ?_
    rintro ⟨facts, realizes, d, hd, -⟩
    rw [realizes.unique empty] at hd
    cases hd
  · intro ν keeps
    refine denote_of_provable coherent none faithful run sincere keeps fun facts realizes => ?_
    rw [realizes.unique empty]
    exact nofun

end Inquiry

def Engine.bare (subject : Subject) (fixed : List ValueId) : Engine where
  subject
  config := { disable := true }
  capture := { fixed, facts := [] }
  classes := .empty
  facts := []

theorem Engine.ofSubject_bare {s : Subject} {fixed : List ValueId} {top loads edges library sorted : List Clause}
    {ns ns' : List Notice} (hfixed : s.fixedValues = .ok fixed) (htop : s.topLevelFacts fixed = .ok top)
    (hloads : s.loadFacts (Capture.isFixed { fixed } s.program) = .ok loads)
    (hedges : s.onceEdgeFacts ns = (.ok edges, ns'))
    (hlibrary : s.libraryFacts (Capture.isFixed { fixed } s.program) = .ok library)
    (hsorted : Clause.sort (top ++ loads ++ edges ++ library) = .ok sorted) :
    ofSubject s { disable := true } ns = (.ok (bare s fixed), ns') :=
  ofSubject_of_capture (Subject.capture_run hfixed htop hloads hedges hlibrary hsorted) rfl rfl

def Subject.twoInputs : Subject := .straightLine [] [.call (.direct 2) [], .call (.direct 2) []]

def Clause.sumCommutes : Clause :=
  let first := .result 0 wordWidth
  let second := .result 1 wordWidth
  .atom .eq (.binary .add first second) (.binary .add second first)

/-- What is said when it is asked about, latest first. -/
def Host.sumCommutes : List Entry := [.sent 0 .pop, .sent 0 .checkSat,
  .sent 0 (.assert (.not (.rel .eq (.app .bvadd (.name "x0") (.name "x1")) (.app .bvadd (.name "x1") (.name "x0"))))),
  .sent 0 (.declare "x1" 32), .sent 0 (.declare "x0" 32), .sent 0 .push]

theorem Host.sincere_sumCommutes : Host.denying.Sincere (sumCommutes ++ opening) := by
  intro before process asked
  simp [sumCommutes, opening, List.suffix_cons_iff] at asked
  rcases asked with ⟨rfl, rfl⟩ | ⟨rfl, rfl⟩
  · refine ⟨fun sat => absurd sat (by simp [denying]), ?_⟩
    rintro - ⟨ν, h⟩
    have met := h _ List.mem_cons_self
    obtain ⟨x, hx⟩ := Vec.exists_bits (met.width_eq ("x0", 32) (by simp))
    obtain ⟨y, hy⟩ := Vec.exists_bits (met.width_eq ("x1", 32) (by simp))
    have denied := met.eval_eq _ List.mem_cons_self
    simp [Formula.eval, Term.eval, hx, hy, Fn.apply, Rel.test] at denied
    exact denied (BitVec.add_comm x y)
  · have sat : denying.reply (opening.drop 1) 0 .checkSat = .atom "sat" := rfl
    exact ⟨fun _ => hasModel_empty, fun unsat => absurd (sat.symm.trans unsat) (by simp)⟩

theorem Engine.ofSubject_twoInputs :
    ofSubject .twoInputs { disable := true } [] = (.ok (bare .twoInputs [0, 1]), []) := by
  have sorted : Clause.sort ([] ++ [] ++ [] ++ []) = .ok [] := by simp [Clause.sort]
  have edges : Subject.twoInputs.onceEdgeFacts [] = (.ok [], []) := by
    with_unfolding_all rfl
  exact ofSubject_bare rfl rfl rfl edges rfl sorted

theorem Clause.faithful_sumCommutes : Clause.sumCommutes.Faithful := by
  have input (v : ValueId) (h : v = 0 ∨ v = 1) :
      (Expr.result v wordWidth).Stated Subject.twoInputs.program ∧ (Expr.result v wordWidth).width = wordWidth := by
    rcases h with rfl | rfl <;> exact ⟨⟨_, rfl, rfl⟩, rfl⟩
  have first := input 0 (.inl rfl)
  have second := input 1 (.inr rfl)
  have stated : Clause.sumCommutes.Stated Subject.twoInputs.program :=
    ⟨⟨first.1, second.1, rfl⟩, ⟨second.1, first.1, rfl⟩, rfl⟩
  exact stated.faithful (by
    simp [AmountsInRange, sumCommutes, exprs, Expr.AmountsInRange, Expr.result])

theorem Inquiry.provable_disabled_sum : ∃ s' : Situation,
    provable .sumCommutes ⟨{ host := .denying }, .bare .twoInputs [0, 1]⟩ = (.ok true, s') ∧
      s'.world.Sincere ∧ (Engine.bare .twoInputs [0, 1]).Realizes .sumCommutes [] ∧
      ({ host := .denying } : World).Asserts (· ∈ (Clause.not .sumCommutes).formulas {}) s'.world ∧
      ∀ ν : Assignment, ν.Keeps {} .sumCommutes → Clause.sumCommutes.denote zeroDivision ν.env = true := by
  let engine := Engine.bare .twoInputs [0, 1]
  let first : Situation := ⟨{ host := .denying }, engine⟩
  let last : World := { host := .denying, history := Host.sumCommutes ++ Host.opening, leased := true }
  have realized : engine.realized .sumCommutes [] = (.ok [], []) := by cbv
  have simplify : (first.engine.classes.canonical .sumCommutes).simplify = .ok none := rfl
  have decided (history : List Entry) : Dialogue.decideClause [] .sumCommutes .sumCommutes
      ⟨{ host := .denying, history, leased := true }, .idle { disable := true }⟩ =
        (.ok true, ⟨{ host := .denying, history := Host.sumCommutes ++ history, leased := true },
          .idle { disable := true }⟩) := by cbv
  have run : provable .sumCommutes first =
      (.ok true, ⟨last, { engine with solver := some (.idle { disable := true }) }⟩) := by
    rw [provable_asks (s := first) rfl rfl simplify (by simp) realized]
    exact withSolver_of_none rfl (start_denying rfl rfl rfl) (decided _)
  have reachable : first.Reachable := .made _ Engine.ofSubject_twoInputs
  have realizes : engine.Realizes .sumCommutes [] := ⟨_, _, realized⟩
  have faithful : (first.engine.classes.canonical .sumCommutes).Faithful := Clause.faithful_sumCommutes
  obtain ⟨told, isTrue⟩ :=
    (provable_disabled reachable rfl faithful run Host.sincere_sumCommutes).2 realizes
  exact ⟨_, run, Host.sincere_sumCommutes, realizes, told, isTrue⟩

/-- A parameter is read where it was found to be true. -/
def Program.sheltered : Program where
  values := #[{ ty := .int 1, kind := .param 0 0 }, { ty := .int 1, kind := .inst 1 (.binary .xor 0 0) }]
  blocks := #[
    { func := 0, name := "entry", term := .condBr 0 1 2 },
    { func := 0, name := "then", insts := [1], term := .br 2 },
    { func := 0, name := "exit", term := .ret none }]
  functions := #[{ name := "main", params := [0], ret := .void, blocks := [0, 1, 2] }]

def Clause.shelteredTrue : Clause :=
  .atom .eq (.leaf { ref := .operand ⟨1, 0, 0⟩ [], width := boolWidth, context := 0 }) (.literal (.bool true))

/-- What is said when it is asked whether it is true there, latest first. -/
def Host.sheltered : List Entry := [.sent 0 .pop, .sent 0 .checkSat,
  .sent 0 (.assert (.not (.rel .eq (.name "x0") (.const (.bool true))))),
  .sent 0 (.assert (.rel .eq (.name "x0") (.const (.bool true)))), .sent 0 (.declare "x0" 1), .sent 0 .push]

theorem Host.sincere_sheltered : Host.denying.Sincere (sheltered ++ opening) := by
  intro before process asked
  simp [sheltered, opening, List.suffix_cons_iff] at asked
  rcases asked with ⟨rfl, rfl⟩ | ⟨rfl, rfl⟩
  · refine ⟨fun sat => absurd sat (by simp [denying]), ?_⟩
    rintro - ⟨ν, h⟩
    have met := h _ List.mem_cons_self
    have isTrue := met.eval_eq (.rel .eq (.name "x0") (.const (.bool true))) (by simp)
    have isFalse := met.eval_eq _ List.mem_cons_self
    rw [eval_not isTrue] at isFalse
    cases isFalse
  · have sat : denying.reply (opening.drop 1) 0 .checkSat = .atom "sat" := rfl
    exact ⟨fun _ => hasModel_empty, fun unsat => absurd (sat.symm.trans unsat) (by simp)⟩

/-- Of the program no facts are kept, and yet the parameter is proved to be true there: that it was found to
be true is realized for the question. -/
theorem Inquiry.provable_disabled_sheltered : ∃ survey e s', Survey.ofProgram .sheltered [] = .ok survey ∧
    Engine.ofSubject { program := .sheltered, survey } { disable := true } [] = (.ok e, []) ∧
    provable .shelteredTrue ⟨{ host := .denying }, e⟩ = (.ok true, s') ∧ s'.world.Sincere ∧
    .sent 0 (.assert (.rel .eq (.name "x0") (.const (.bool true)))) ∈ s'.world.history ∧
    ∃ ν : Assignment, ν.Keeps {} (e.classes.canonical .shelteredTrue) ∧
      (e.classes.canonical .shelteredTrue).denote zeroDivision ν.env = false := by
  let entered : Clause := .atom .eq (.result 0 boolWidth) (.literal (.bool true))
  let computed : Clause :=
    .atom .eq (.result 1 boolWidth) (.binary .xor (.result 0 boolWidth) (.result 0 boolWidth))
  have found : (Survey.ofProgram .sheltered []).toOption.map (fun survey =>
      let s : Subject := { program := .sheltered, survey }
      let c : Capture := { fixed := [0, 1] }
      (s.fixedValues, s.topLevelFacts [0, 1], s.loadFacts (c.isFixed .sheltered), s.onceEdgeFacts [],
        s.libraryFacts (c.isFixed .sheltered), s.realize c .shelteredTrue [])) =
      some (.ok [0, 1], .ok [computed], .ok [], (.ok [], []), .ok [], (.ok [entered], [])) := by cbv
  obtain ⟨survey, made, read⟩ := Survey.exists_of_map_eq found
  obtain ⟨fixed, top, loads, edges, library, realize⟩ := by simpa only [Prod.mk.injEq] using read
  have sorted : Clause.sort ([computed] ++ [] ++ [] ++ []) = .ok [computed] :=
    Clause.sort_eq_ok (by decide +kernel) (.refl _) (by decide +kernel) (by decide +kernel)
  let engine := Engine.bare { program := .sheltered, survey } [0, 1]
  let first : Situation := ⟨{ host := .denying }, engine⟩
  have opened := Engine.ofSubject_bare fixed top loads edges library sorted
  have realized : engine.realized .shelteredTrue [] = (.ok [entered], []) := by
    rw [Engine.realized]
    exact run_bind_ok realize
  have simplify : (first.engine.classes.canonical .shelteredTrue).simplify = .ok none := rfl
  have decided (history : List Entry) : Dialogue.decideClause [entered] entered .shelteredTrue
      ⟨{ host := .denying, history, leased := true }, .idle { disable := true }⟩ =
        (.ok true, ⟨{ host := .denying, history := Host.sheltered ++ history, leased := true },
          .idle { disable := true }⟩) := by cbv
  have run : provable .shelteredTrue first = (.ok true,
      ⟨{ host := .denying, history := Host.sheltered ++ Host.opening, leased := true },
        { engine with solver := some (.idle { disable := true }) }⟩) := by
    rw [provable_asks (s := first) rfl rfl simplify (by simp) realized]
    exact withSolver_of_none rfl (start_denying rfl rfl rfl) (decided _)
  refine ⟨survey, engine, _, made, opened, run, Host.sincere_sheltered, by simp [Host.sheltered],
    ⟨fun _ => ⟨1, 0#1⟩, fun _ => Nat.one_pos⟩, ⟨fun l hl => ?_, Clause.guarded_default _⟩, rfl⟩
  have leaves : (engine.classes.canonical .shelteredTrue).leaves = [⟨.result 0 [], boolWidth, 0⟩] := rfl
  rw [leaves, List.mem_singleton] at hl
  rw [hl]
  rfl

end SsaFacts
