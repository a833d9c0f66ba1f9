import SsaFacts.Proofs.Discovery
import SsaFacts.Proofs.Remarks

/-! What an answer to a question tells. A solver that does not answer a check falsely decides by whether
there is a model, so the answer depends on the engine and the clause alone, whatever was asked before. -/
namespace SsaFacts

open Smt

structure Smt.Sincere (ls : List Level) (reply : Sexp) : Prop where
  sat : reply = .atom "sat" → HasModel ls
  unsat : reply = .atom "unsat" → ¬HasModel ls

theorem Smt.hasModel_empty : HasModel [{}] := by
  refine ⟨⟨fun _ => ⟨1, 0#1⟩, fun _ => Nat.one_pos⟩, fun l hl => ?_⟩
  rw [List.mem_singleton.1 hl]
  exact Assignment.meets_empty _

/-- No check was answered falsely. -/
def Host.Sincere (h : Host) (history : List Entry) : Prop :=
  ∀ before process, .sent process .checkSat :: before <:+ history →
    Smt.Sincere (levels process before) (h.reply before process .checkSat)

def World.Sincere (w : World) : Prop := w.host.Sincere w.history

theorem World.Later.sincere {w w' : World} (h : w.Later w') (sincere : w'.Sincere) : w.Sincere := by
  intro before process asked
  rw [← h.host_eq]
  exact sincere before process (asked.trans h.suffix)

/-- Sessions that were told the same: they have the same models and know the same names. -/
structure Session.Twin (s t : Session) : Prop where
  config_eq : t.solver.config = s.solver.config
  declared : ∀ n, n ∈ t.solver.declared ↔ n ∈ s.solver.declared
  models : ∀ ν : Assignment, ν.Models t.levels ↔ ν.Models s.levels

namespace Session
variable {s t : Session}

theorem Twin.hasModel (twin : s.Twin t) : HasModel t.levels ↔ HasModel s.levels :=
  exists_congr twin.models

theorem Twin.opened (twin : s.Twin t) : s.opened.Twin t.opened where
  config_eq := twin.config_eq
  declared := twin.declared
  models ν := by
    have pushed (s : Session) : s.opened.levels = Command.push.apply s.levels := levels_told .push s
    rw [pushed, pushed, Assignment.models_push, Assignment.models_push, twin.models]

theorem Twin.told_assert (twin : s.Twin t) (f : Formula) : (s.told (.assert f)).Twin (t.told (.assert f)) where
  config_eq := twin.config_eq
  declared := twin.declared
  models ν := by
    rw [levels_told, levels_told, Assignment.models_assert t.levels_ne_nil,
      Assignment.models_assert s.levels_ne_nil, twin.models]

theorem Twin.declared_named (twin : s.Twin t) (n : String) (w : Nat) :
    ((s.told (.declare n w)).named n).Twin ((t.told (.declare n w)).named n) where
  config_eq := twin.config_eq
  declared m := by simp [named, told, twin.declared]
  models ν := by
    rw [levels_named, levels_named, levels_told, levels_told, Assignment.models_declare t.levels_ne_nil,
      Assignment.models_declare s.levels_ne_nil, twin.models]

theorem twin_of_holds {cs : List Clause} (hs : s.Holds cs) (ht : t.Holds cs)
    (config_eq : t.solver.config = s.solver.config) (grants : s.world.host.GrantsScopes)
    (grants' : t.world.host.GrantsScopes) : s.Twin t where
  config_eq := config_eq
  declared n := by
    obtain ⟨ns, ground, names⟩ := hs.grounded grants
    obtain ⟨ns', ground', names'⟩ := ht.grounded grants'
    rw [ground.declared_eq, ground'.declared_eq, names, names']
  models ν := by rw [hs.models, ht.models, config_eq]

end Session

def Session.Upholds (ν : Assignment) (g : Guards) (s s' : Session) : Prop :=
  s.solver.config.guards = g ∧ ν.Models s.levels → s'.solver.config.guards = g ∧ ν.Models s'.levels

instance Session.isPreorder_upholds (ν : Assignment) (g : Guards) : IsPreorder Session (Upholds ν g) where
  refl _ h := h
  trans _ _ _ h h' := fun told => h' (h told)

namespace Dialogue
variable {s s' t t' : Session}

/-- Sessions that were told the same are told the same again, unless it fails. -/
def Parallel (d : Dialogue Unit) : Prop :=
  ∀ s t s' t', s.Twin t → d s = (.ok (), s') → d t = (.ok (), t') → s'.Twin t'

theorem parallel_forM {α : Type} {f : α → Dialogue Unit} {xs : List α} (hf : ∀ a ∈ xs, Parallel (f a)) :
    Parallel (xs.forM f) := by
  induction xs with
  | nil =>
    intro s t s' t' twin run run'
    cases run
    cases run'
    exact twin
  | cons a rest ih =>
    intro s t s' t' twin run run'
    obtain ⟨_, u, first, others⟩ := run_bind_eq_ok run
    obtain ⟨_, u', first', others'⟩ := run_bind_eq_ok run'
    have twin := hf a (by simp) s t u u' twin first first'
    exact ih (fun b hb => hf b (by simp [hb])) u u' s' t' twin others others'

theorem parallel_declare (n : String) (w : Nat) : Parallel (declare n w) := by
  intro s t s' t' twin run run'
  rcases declare_eq_ok run with ⟨mem, rfl⟩ | ⟨fresh, rfl⟩ <;>
    rcases declare_eq_ok run' with ⟨mem', rfl⟩ | ⟨fresh', rfl⟩
  · exact twin
  · exact absurd ((twin.declared n).2 mem) fresh'
  · exact absurd ((twin.declared n).1 mem') fresh
  · exact twin.declared_named n w

theorem parallel_prepare (m : Mention) : Parallel (prepare m) := by
  cases m with
  | leaf l => exact parallel_declare _ _
  | const l =>
    intro s t s' t' twin run run'
    by_cases narrow : l.width ≤ widestConstant
    · rw [prepare, if_pos narrow] at run run'
      cases run
      cases run'
      exact twin
    · rw [prepare, if_neg narrow] at run
      cases run

theorem parallel_assertFormula (f : Formula) : Parallel (acknowledge (.assert f)) := by
  intro s t s' t' twin run run'
  rw [acknowledge_eq_ok run, acknowledge_eq_ok run']
  exact twin.told_assert f

theorem parallel_assert (c : Clause) : Parallel (assert c) := by
  intro s t s' t' twin run run'
  have solver (s : Session) : solver s = (.ok s.solver, s) := rfl
  rw [assert, run_bind_ok (solver s)] at run
  rw [assert, run_bind_ok (solver t), twin.config_eq] at run'
  obtain ⟨_, u, prepared, asserted⟩ := run_bind_eq_ok run
  obtain ⟨_, u', prepared', asserted'⟩ := run_bind_eq_ok run'
  have twin := parallel_forM (fun m _ => parallel_prepare m) s t u u' twin prepared prepared'
  have formulas : Parallel ((c.formulas s.solver.config.guards).forM fun f => acknowledge (.assert f)) :=
    parallel_forM fun f _ => parallel_assertFormula f
  exact formulas u u' s' t' twin asserted asserted'

theorem parallel_assertAll (cs : List Clause) : Parallel (assertAll cs) :=
  parallel_forM fun c _ => parallel_assert c

theorem upholds_told {ν : Assignment} {g : Guards} {c : Command}
    (kept : ν.Models s.levels → ν.Models (c.apply s.levels)) : Session.Upholds ν g s (s.told c) := by
  rintro ⟨guards, models⟩
  refine ⟨guards, ?_⟩
  rw [Session.levels_told]
  exact kept models

theorem upholds_acknowledge {ν : Assignment} {g : Guards} {c : Command}
    (kept : ∀ ls ≠ [], ν.Models ls → ν.Models (c.apply ls)) :
    Keeps (Session.Upholds ν g) (acknowledge c) := by
  intro s
  rcases acknowledge_run c s with h | ⟨reply, h⟩ <;>
    · rw [h]
      exact upholds_told (kept _ s.levels_ne_nil)

theorem upholds_prepare {ν : Assignment} {g : Guards} {m : Mention} (fits : m.Fits ν) :
    Keeps (Session.Upholds ν g) (prepare m) := by
  cases m with
  | leaf l =>
    intro s
    have told : Session.Upholds ν g s (s.told (.declare l.solverName l.width)) :=
      upholds_told fun models => (Assignment.models_declare s.levels_ne_nil).2 ⟨models, fits⟩
    by_cases mem : l.solverName ∈ s.solver.declared
    · rw [prepare, declare_of_mem mem]
      exact refl_of (Session.Upholds ν g) s
    · rcases declare_of_not_mem (w := l.width) mem with h | ⟨reply, h⟩ <;>
        · rw [prepare, h]
          exact told
  | const l =>
    rw [prepare]
    split
    · exact .pure ()
    · exact .throw _

theorem upholds_assert {ν : Assignment} {g : Guards} {c : Clause} (accepts : ν.Accepts g c) :
    Keeps (Session.Upholds ν g) (assert c) := by
  intro s told
  have solver : solver s = (.ok s.solver, s) := rfl
  rw [assert, run_bind_ok solver, told.1]
  have fits : ∀ m ∈ c.mentions g, m.Fits ν := by
    intro m hm
    cases m with
    | leaf l => exact accepts.width_eq l (Clause.leaf_mem_mentions.1 hm)
    | const l => trivial
  have formulas : Keeps (Session.Upholds ν g)
      ((c.formulas g).forM fun f => acknowledge (.assert f)) := by
    refine .forM fun f hf => upholds_acknowledge fun ls hls models => ?_
    exact (Assignment.models_assert hls).2 ⟨models, accepts.eval_eq f hf⟩
  exact (Keeps.forM fun m hm => upholds_prepare (fits m hm)).bind (fun _ => formulas) s told

theorem upholds_assertAll {ν : Assignment} {g : Guards} {cs : List Clause} (satisfies : ν.Satisfies g cs) :
    Keeps (Session.Upholds ν g) (assertAll cs) :=
  .forM fun c hc => upholds_assert (satisfies c hc)

theorem check_sincere {r : Response} (run : check s = (.ok r, s')) (sincere : s'.world.Sincere) :
    (r = .sat → HasModel s.levels) ∧ (r = .unsat → ¬HasModel s.levels) := by
  have told : s' = s.told .checkSat := by rw [← check_run, run]
  subst told
  have sent : send .checkSat s =
    (.ok (s.world.host.reply s.world.history s.solver.process .checkSat), s.told .checkSat) := rfl
  have answered : Smt.Sincere s.levels (s.world.host.reply s.world.history s.solver.process .checkSat) :=
    sincere s.world.history s.solver.process List.suffix_rfl
  rw [check, run_bind_ok sent] at run
  generalize s.world.host.reply s.world.history s.solver.process .checkSat = reply at answered run
  split at run <;> cases run
  · exact ⟨fun _ => answered.sat rfl, by simp⟩
  · exact ⟨by simp, fun _ => answered.unsat rfl⟩
  · simp

/-- A clause is held to be true if it cannot be false where the facts hold. -/
theorem decideClause_ok {facts : List Clause} {c question : Clause} {b : Bool}
    (run : decideClause facts c question s = (.ok b, s')) (sincere : s'.world.Sincere) :
    ∃ u v, assertAll facts s.opened = (.ok (), u) ∧ assert (.not c) u = (.ok (), v) ∧
      (b = true ↔ ¬HasModel v.levels) := by
  rw [decideClause_eq] at run
  obtain ⟨_, ran, -, later⟩ := inScope_eq_ok (extends_decision facts c question) run
  obtain ⟨u, v, v', r, asserted, negated, checked, ended, decided⟩ := decision_eq_ok ran
  obtain ⟨model, none⟩ := check_sincere checked (ended.sincere (later.sincere sincere))
  refine ⟨u, v, asserted, negated, ?_⟩
  rcases decided with ⟨rfl, rfl⟩ | ⟨rfl, rfl⟩
  · simpa using none rfl
  · simpa using model rfl

/-- A clause that is held to be true is not false in any model of the facts. -/
theorem no_model_of_decideClause {known facts : List Clause} {c question : Clause} (holds : s.Holds known)
    (run : decideClause facts c question s = (.ok true, s')) (sincere : s'.world.Sincere) :
    ¬∃ ν : Assignment, ν.Satisfies s.solver.config.guards (known ++ facts ++ [.not c]) := by
  rintro ⟨ν, satisfies⟩
  obtain ⟨u, v, asserted, negated, decided⟩ := decideClause_ok run sincere
  have models : ν.Models s.levels := (holds.models ν).2 fun d hd => satisfies d (by simp [hd])
  have opened : ν.Models s.opened.levels := by
    have pushed : s.opened.levels = Command.push.apply s.levels := Session.levels_told .push s
    rw [pushed]
    exact Assignment.models_push.2 models
  have given := (upholds_assertAll fun d hd => satisfies d (by simp [hd])).run asserted ⟨rfl, opened⟩
  have denied := (upholds_assert (satisfies (.not c) (by simp))).run negated given
  exact decided.1 rfl ⟨ν, denied.2⟩

theorem decideClause_agree {facts : List Clause} {c question question' : Clause} {a b : Bool}
    (twin : s.Twin t) (run : decideClause facts c question s = (.ok a, s'))
    (run' : decideClause facts c question' t = (.ok b, t')) (sincere : s'.world.Sincere)
    (sincere' : t'.world.Sincere) : a = b := by
  obtain ⟨u, v, asserted, negated, decided⟩ := decideClause_ok run sincere
  obtain ⟨u', v', asserted', negated', decided'⟩ := decideClause_ok run' sincere'
  have twin := parallel_assertAll facts _ _ u u' twin.opened asserted asserted'
  have twin := parallel_assert (.not c) u u' v v' twin negated negated'
  rw [Bool.eq_iff_iff, decided, decided', twin.hasModel]

end Dialogue

/-- The facts that a question needs do not depend on what was remarked before. -/
theorem Engine.oblivious_realized (e : Engine) (c : Clause) : Oblivious (e.realized c) :=
  (e.subject.oblivious_realize _ _).bind fun _ => .lift _

def Engine.Realizes (e : Engine) (c : Clause) (facts : List Clause) : Prop :=
  ∃ ns ns', e.realized c ns = (.ok facts, ns')

theorem Engine.Realizes.unique {e : Engine} {c : Clause} {facts facts' : List Clause}
    (h : e.Realizes c facts) (h' : e.Realizes c facts') : facts = facts' := by
  obtain ⟨ns, ns', run⟩ := h
  obtain ⟨ms, ms', run'⟩ := h'
  obtain ⟨_, again⟩ := (e.oblivious_realized c).run_eq run ms
  cases again.symm.trans run'
  rfl

namespace Inquiry
variable {s s' t t' : Situation} {c : Clause} {a b : Bool}

/-- How a question is answered: the clause is seen to be true as it stands, or a solver is asked. -/
theorem provable_eq_ok (run : provable c s = (.ok b, s')) :
    b = true ∧ ((s.engine.classes.canonical c).isTautology ∨
        (s.engine.classes.canonical c).simplify = .ok (some true)) ∧ s' = s ∨
      ¬(s.engine.classes.canonical c).isTautology ∧
        (∃ known, (s.engine.classes.canonical c).simplify = .ok known ∧ known ≠ some true) ∧
        ∃ facts ns, s.engine.realized c s.world.notices = (.ok facts, ns) ∧
          withSolver (Dialogue.decideClause facts (s.engine.classes.canonical c) c)
            ⟨{ s.world with notices := ns }, s.engine⟩ = (.ok b, s') := by
  have own : engine s = (.ok s.engine, s) := rfl
  have seen : (liftM Talk.world : Inquiry World) s = (.ok s.world, s) := rfl
  rw [provable, run_bind_ok own] at run
  generalize s.engine.classes.canonical c = canonical at run ⊢
  extract_lets ask at run
  have printed {c : Clause} {k : Unit → Inquiry Bool}
      (run : (discard (liftM (Talk.ofChecked c.print) : Inquiry String) >>= k) s = (.ok b, s')) :
      k () s = (.ok b, s') := by
    cases print : c.print with
    | error f =>
      rw [print] at run
      have failed : discard (liftM (Talk.ofChecked (.error f)) : Inquiry String) s = (.error (.fault f), s) :=
        rfl
      rw [run_bind_error failed] at run
      cases run
    | ok text =>
      rw [print] at run
      have written : discard (liftM (Talk.ofChecked (.ok text)) : Inquiry String) s = (.ok (), s) := rfl
      rwa [run_bind_ok written] at run
  have asked : ask () s = (.ok b, s') := by
    rw [run_bind_ok seen] at run
    split at run
    · exact printed (printed run)
    · exact run
  dsimp only [ask] at asked
  split at asked
  · rename_i tautology
    cases asked
    exact .inl ⟨rfl, .inl tautology, rfl⟩
  rename_i tautology
  obtain ⟨known, s₁, simplified, asked⟩ := run_bind_eq_ok asked
  have simplify : canonical.simplify = .ok known ∧ s = s₁ := by
    cases h : canonical.simplify <;> rw [h] at simplified <;> cases simplified
    exact ⟨rfl, rfl⟩
  obtain ⟨simplify, rfl⟩ := simplify
  split at asked
  · rename_i eq
    cases asked
    exact .inl ⟨rfl, .inr (by rw [simplify, eq]), rfl⟩
  rename_i ne
  obtain ⟨facts, s₂, realized, answered⟩ := run_bind_eq_ok asked
  refine .inr ⟨tautology, ⟨known, simplify, ne⟩, facts, ?_⟩
  rcases noted : s.engine.realized c s.world.notices with ⟨f | facts', ns⟩
  · rw [lift_run (Talk.ofNoted_run noted)] at realized
    cases realized
  · rw [lift_run (Talk.ofNoted_run noted)] at realized
    cases realized
    exact ⟨ns, rfl, answered⟩

/-- Without debugging, a question that is not settled as it stands is put to a solver. -/
theorem provable_asks {known : Option Bool} {facts : List Clause} {ns : List Notice}
    (quiet : s.world.debug = false) (plain : (s.engine.classes.canonical c).isTautology = false)
    (simplify : (s.engine.classes.canonical c).simplify = .ok known) (unsettled : known ≠ some true)
    (realized : s.engine.realized c s.world.notices = (.ok facts, ns)) :
    provable c s = withSolver (Dialogue.decideClause facts (s.engine.classes.canonical c) c)
      ⟨{ s.world with notices := ns }, s.engine⟩ := by
  have own : engine s = (.ok s.engine, s) := rfl
  have seen : (liftM Talk.world : Inquiry World) s = (.ok s.world, s) := rfl
  have simplified : (liftM (Talk.ofChecked (s.engine.classes.canonical c).simplify) : Inquiry _) s =
      (.ok known, s) := by
    rw [simplify]
    rfl
  rw [provable, run_bind_ok own]
  dsimp only
  rw [run_bind_ok seen, if_neg (by simp [quiet]), if_neg (by simp [plain]), run_bind_ok simplified,
    if_neg unsettled, run_bind_ok (lift_run (Talk.ofNoted_run realized))]

theorem withSolver_eq_ok {α : Type} {d : Dialogue α} {a : α} (coherent : s.Coherent)
    (run : withSolver d s = (.ok a, s')) :
    ∃ t t' : Session, s.world.Later t.world ∧ t.solver.config = s.engine.config ∧
      t.Holds s.engine.facts ∧ d t = (.ok a, t') ∧ s'.world = t'.world := by
  rcases withSolver_run coherent d with ⟨t, later, config, holds, answered⟩ | ⟨-, f, w, failed⟩
  · rw [answered] at run
    obtain ⟨ok, rfl⟩ := Prod.mk.inj run
    exact ⟨t, (d t).2, later, config, holds, Prod.ext ok rfl, rfl⟩
  · rw [failed] at run
    cases run

/-- A clause is held to be true as it stands, or a solver that holds the facts decides it. -/
theorem provable_cases (coherent : s.Coherent) (run : provable c s = (.ok b, s')) :
    b = true ∧ ((s.engine.classes.canonical c).isTautology ∨
        (s.engine.classes.canonical c).simplify = .ok (some true)) ∧ s' = s ∨
      ¬(s.engine.classes.canonical c).isTautology ∧
        (s.engine.classes.canonical c).simplify ≠ .ok (some true) ∧
        ∃ facts ns, ∃ t t' : Session, s.engine.realized c s.world.notices = (.ok facts, ns) ∧
          s.world.Later t.world ∧ t.solver.config = s.engine.config ∧ t.Holds s.engine.facts ∧
          Dialogue.decideClause facts (s.engine.classes.canonical c) c t = (.ok b, t') ∧
          s'.world = t'.world := by
  refine (provable_eq_ok run).imp_right ?_
  rintro ⟨tautology, ⟨known, simplify, unsettled⟩, facts, ns, realized, asked⟩
  have silent : s.world.Silent { s.world with notices := ns } := ⟨rfl, rfl⟩
  have coherent : Situation.Coherent ⟨{ s.world with notices := ns }, s.engine⟩ :=
    coherent.of_world fun _ _ => Session.resumes_of_silent silent
  obtain ⟨t, t', later, config, holds, decided, world⟩ := withSolver_eq_ok coherent asked
  exact ⟨tautology, by simpa [simplify] using unsettled, facts, ns, t, t', realized,
    trans_of World.Later silent.later later, config, holds, decided, world⟩

end Inquiry

def Engine.Akin (e e' : Engine) : Prop := e' = { e with solver := e'.solver }

/-- Engines that differ in their solvers at most give the same answer, whatever they were asked before. -/
theorem Inquiry.provable_agree {s s' t t' : Situation} {c : Clause} {a b : Bool} (hs : s.Reachable)
    (ht : t.Reachable) (akin : s.engine.Akin t.engine) (grants : s.world.host.GrantsScopes)
    (grants' : t.world.host.GrantsScopes) (run : provable c s = (.ok a, s'))
    (run' : provable c t = (.ok b, t')) (sincere : s'.world.Sincere) (sincere' : t'.world.Sincere) :
    a = b := by
  have classes : t.engine.classes = s.engine.classes := by rw [akin]
  have config : t.engine.config = s.engine.config := by rw [akin]
  have known : t.engine.facts = s.engine.facts := by rw [akin]
  have realize : t.engine.realized = s.engine.realized := by
    rw [akin]
    rfl
  have answer' := provable_cases ht.coherent run'
  rw [classes, config, known, realize] at answer'
  rcases provable_cases hs.coherent run with ⟨rfl, plain, -⟩ |
    ⟨tautology, simplify, facts, ns, u, u', realized, later, configured, holds, decided, world⟩
  · rcases answer' with ⟨rfl, -⟩ | ⟨tautology, simplify, -⟩
    · rfl
    · exact absurd plain (not_or.2 ⟨tautology, simplify⟩)
  · rcases answer' with ⟨-, plain, -⟩ |
      ⟨-, -, facts', ns', v, v', realized', later', configured', holds', decided', world'⟩
    · exact absurd plain (not_or.2 ⟨tautology, simplify⟩)
    obtain ⟨ms, again⟩ := (s.engine.oblivious_realized c).run_eq realized t.world.notices
    cases realized'.symm.trans again
    have twin : u.Twin v := Session.twin_of_holds holds holds' (configured'.trans configured.symm)
      (later.host_eq ▸ grants) (later'.host_eq ▸ grants')
    exact Dialogue.decideClause_agree twin decided decided' (world ▸ sincere) (world' ▸ sincere')

/-- Takes every command, and finds no model right after an assertion. -/
def Host.denying : Host where
  launches _ _ := true
  creates _ := true
  reply history _ c :=
    match c, history with
    | .checkSat, .sent _ (.assert _) :: _ => .atom "unsat"
    | .checkSat, _ => .atom "sat"
    | _, _ => .atom "success"

theorem Host.grants_denying : Host.denying.GrantsScopes := ⟨fun _ _ => rfl, fun _ _ => rfl⟩

/-- What is said when a solver is started for an engine without facts, latest first. -/
def Host.opening : List Entry := [.sent 0 .checkSat, .sent 0 (.enable "produce-models"),
  .sent 0 (.enable "produce-models"), .sent 0 (.enable "print-success"), .started 0]

def Solver.idle (config : Config) : Solver := { config, process := 0 }

theorem Inquiry.start_denying {e : Engine} {config : Config} (facts : e.facts = [])
    (configured : e.config = config) (replay : config.replay = none) :
    start ⟨{ host := .denying }, e⟩ = (.ok (.idle config),
      ⟨{ host := .denying, history := Host.opening, leased := true }, e⟩) := by
  obtain ⟨program, args, _, disable, guards⟩ := config
  obtain ⟨subject, _, capture, classes, _, solver⟩ := e
  cases replay
  cases configured
  cases facts
  rfl

end SsaFacts
