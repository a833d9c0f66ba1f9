import SsaFacts.Proofs.Declarations
import SsaFacts.Proofs.Realization

/-! What an answer says. An engine holds a clause to be true exactly if no assignment meets its facts, those
that are realized for the clause, and the negation of the clause. A solver that refuses nothing and decides
every check leaves no question open that can be put to it. -/
namespace SsaFacts

open Smt

/-- In a new scope the clauses are what is held, also for other leaves as long as names tell widths. -/
theorem Session.Holds.told_typed {s : Session} {cs : List Clause} {U : Leaf → Prop} (holds : s.Holds cs)
    (grants : s.world.host.GrantsScopes) (typed : Typed U) (hU : ∀ c ∈ cs, ∀ l ∈ c.leaves, U l) :
    s.opened.Told U fun ν => ν.Satisfies s.solver.config.guards cs where
  models ν := by
    have levels : s.opened.levels = Command.push.apply s.levels := levels_told .push s
    rw [levels, Assignment.models_push, holds.models]
  widths l hl declared ν hν := by
    obtain ⟨ns, ground, names⟩ := holds.grounded grants
    have named : l.solverName ∈ ns := ground.declared_eq ▸ declared
    obtain ⟨c, hc, m, hm, name⟩ := (names _).1 named
    rw [typed l m hl (hU c hc m hm) name.symm, ← (hν c hc).width_eq m hm, Assignment.env, Assignment.env, name]

namespace Dialogue
variable {s s' : Session} {known facts : List Clause} {c question : Clause} {b : Bool}

/-- A clause is held to be true exactly if it is not false in any model of the facts. -/
theorem decideClause_iff {U : Leaf → Prop} (typed : Typed U) (holds : s.Holds known)
    (grants : s.world.host.GrantsScopes) (hU : ∀ d ∈ known ++ facts ++ [.not c], ∀ l ∈ d.leaves, U l)
    (run : decideClause facts c question s = (.ok b, s')) (sincere : s'.world.Sincere) :
    b = true ↔ ¬∃ ν : Assignment, ν.Satisfies s.solver.config.guards (known ++ facts ++ [.not c]) := by
  obtain ⟨u, v, asserted, negated, decided⟩ := decideClause_ok run sincere
  simp only [List.forall_mem_append, List.forall_mem_singleton] at hU
  obtain ⟨⟨hknown, hfacts⟩, hc⟩ := hU
  have config : u.solver.config = s.solver.config := ((keeps_assertAll facts).run asserted).config_eq
  obtain ⟨told, -⟩ := (holds.told_typed grants typed hknown).assertAll typed hfacts asserted
  obtain ⟨told, -⟩ := told.assert typed hc negated
  rw [decided, HasModel]
  refine not_congr (exists_congr fun ν => ?_)
  rw [told.models, config]
  simp only [Assignment.Satisfies, List.forall_mem_append, List.forall_mem_singleton]
  rfl

end Dialogue

/-- No assignment meets the facts, those realized for the clause and its negation; or that is plain from the
clause as it stands. -/
def Engine.Entails (e : Engine) (c : Clause) : Prop :=
  (e.classes.canonical c).isTautology ∨ (e.classes.canonical c).simplify = .ok (some true) ∨
    ∃ facts, e.Realizes c facts ∧ ¬∃ ν : Assignment,
      ν.Satisfies e.config.guards (e.facts ++ facts ++ [.not (e.classes.canonical c)])

theorem Inquiry.provable_iff {s s' : Situation} {c : Clause} {b : Bool} (coherent : s.Coherent)
    (grants : s.world.host.GrantsScopes) (modelled : ∀ l ∈ c.leaves, l.Modelled s.engine.program)
    (run : provable c s = (.ok b, s')) (sincere : s'.world.Sincere) : b = true ↔ s.engine.Entails c := by
  rcases provable_cases coherent run with ⟨rfl, plain, -⟩ |
    ⟨tautology, simplify, facts, ns, t, t', realized, later, config, holds, decided, world⟩
  · rw [Engine.Entails, ← or_assoc]
    simp [plain]
  · have realizes : s.engine.Realizes c facts := ⟨_, ns, realized⟩
    have known : ∀ d ∈ s.engine.facts ++ facts ++ [.not (s.engine.classes.canonical c)],
        ∀ l ∈ d.leaves, l.Modelled s.engine.program := by
      simp only [List.forall_mem_append, List.forall_mem_singleton]
      refine ⟨⟨fun d hd l hl => ((coherent.stated d hd).bare l hl).modelled, ?_⟩, ?_⟩
      · exact realizes.modelled coherent.uniform
      · exact coherent.uniform.canonical_modelled modelled
    have answer := Dialogue.decideClause_iff (typed_modelled _) holds (later.host_eq ▸ grants) known decided
      (world ▸ sincere)
    rw [config] at answer
    rw [answer, Engine.Entails, or_iff_right tautology, or_iff_right simplify]
    constructor
    · exact fun none => ⟨facts, realizes, none⟩
    · rintro ⟨facts', realizes', none⟩
      rwa [realizes.unique realizes']

/-- Every constant of the clause can be written. -/
def Clause.Narrow (g : Guards) (c : Clause) : Prop := ∀ k, .const k ∈ c.mentions g → k.width ≤ widestConstant

/-- Nothing is refused, and every check is answered by whether there is a model. -/
structure Host.Reliable (h : Host) : Prop where
  compliant : h.Compliant
  decides : ∀ before process, Truthful before process .checkSat (h.reply before process .checkSat)

theorem Host.Reliable.grants {h : Host} (reliable : h.Reliable) : h.GrantsScopes :=
  ⟨fun _ _ => reliable.compliant _ _ _ trivial, fun _ _ => reliable.compliant _ _ _ trivial⟩

theorem World.sincere_of_reliable {w : World} (reliable : w.host.Reliable) : w.Sincere := by
  intro before process _
  obtain ⟨sat, unsat⟩ := reliable.decides before process
  refine ⟨fun reply => ?_, fun reply model => ?_⟩
  · by_contra none
    exact absurd (reply.symm.trans (unsat none)) (by simp)
  · exact absurd (reply.symm.trans (sat model)) (by simp)

structure Session.Steady (s t : Session) : Prop where
  host_eq : t.world.host = s.world.host
  debug_eq : t.world.debug = s.world.debug
  config_eq : t.solver.config = s.solver.config

instance : IsPreorder Session Session.Steady where
  refl _ := ⟨rfl, rfl, rfl⟩
  trans _ _ _ h h' :=
    ⟨h'.host_eq.trans h.host_eq, h'.debug_eq.trans h.debug_eq, h'.config_eq.trans h.config_eq⟩

namespace Dialogue
variable {s s' : Session} {config : Config} {facts : List Clause} {c question : Clause}

/-- Where nothing is refused the dialogue succeeds. -/
def Passes (config : Config) (d : Dialogue Unit) : Prop :=
  ∀ s : Session, s.world.host.Compliant → s.solver.config = config → ∃ t, d s = (.ok (), t) ∧ s.Steady t

theorem Passes.bind {d e : Dialogue Unit} (hd : Passes config d) (he : Passes config e) :
    Passes config (d >>= fun _ => e) := by
  intro s compliant configured
  obtain ⟨t, first, steady⟩ := hd s compliant configured
  obtain ⟨u, second, steady'⟩ := he t (steady.host_eq ▸ compliant) (steady.config_eq.trans configured)
  exact ⟨u, (run_bind_ok first).trans second, trans_of Session.Steady steady steady'⟩

theorem Passes.forM {α : Type} {f : α → Dialogue Unit} {xs : List α} (h : ∀ x ∈ xs, Passes config (f x)) :
    Passes config (xs.forM f) := by
  induction xs with
  | nil => exact fun s _ _ => ⟨s, rfl, refl_of Session.Steady s⟩
  | cons x rest ih => exact (h x (by simp)).bind (ih fun y hy => h y (by simp [hy]))

theorem passes_acknowledge {c : Command} (acknowledged : c.Acknowledged) : Passes config (acknowledge c) :=
  fun _ compliant _ => ⟨_, acknowledge_of_success (compliant _ _ _ acknowledged), rfl, rfl, rfl⟩

theorem passes_declare (n : String) (w : Nat) : Passes config (declare n w) := by
  intro s compliant configured
  by_cases mem : n ∈ s.solver.declared
  · exact ⟨s, declare_of_mem mem, refl_of Session.Steady s⟩
  · have solver : solver s = (.ok s.solver, s) := rfl
    have sent := acknowledge_of_success (s := s) (compliant s.world.history s.solver.process (.declare n w) trivial)
    refine ⟨(s.told (.declare n w)).named n, ?_, rfl, rfl, rfl⟩
    rw [declare, run_bind_ok solver, if_neg (fun known => mem (List.contains_iff_mem.1 known)),
      run_bind_ok sent]
    rfl

theorem passes_assert (narrow : c.Narrow config.guards) : Passes config (assert c) := by
  intro s compliant configured
  have solver : solver s = (.ok s.solver, s) := rfl
  rw [assert, run_bind_ok solver, configured]
  have prepared : Passes config ((c.mentions config.guards).forM prepare) := by
    refine .forM fun m hm => ?_
    cases m with
    | leaf l => exact passes_declare _ _
    | const k =>
      rw [prepare, if_pos (narrow k hm)]
      exact fun s _ _ => ⟨s, rfl, refl_of Session.Steady s⟩
  have formulas : Passes config ((c.formulas config.guards).forM fun f => acknowledge (.assert f)) :=
    .forM fun f _ => passes_acknowledge trivial
  exact prepared.bind formulas s compliant configured

theorem passes_assertAll (narrow : ∀ d ∈ facts, d.Narrow config.guards) : Passes config (assertAll facts) :=
  .forM fun d hd => passes_assert (narrow d hd)

theorem narrow_of_assert (run : assert c s = (.ok (), s')) : c.Narrow s.solver.config.guards := by
  have solver : solver s = (.ok s.solver, s) := rfl
  rw [assert, run_bind_ok solver] at run
  obtain ⟨_, t, prepared, -⟩ := run_bind_eq_ok run
  have written {ms : List Mention} {s t : Session} (prepared : ms.forM prepare s = (.ok (), t)) :
      ∀ k, .const k ∈ ms → k.width ≤ widestConstant := by
    induction ms generalizing s with
    | nil => simp
    | cons m ms ih =>
      obtain ⟨_, u, first, others⟩ := run_bind_eq_ok prepared
      intro k hk
      rcases List.mem_cons.1 hk with rfl | hk
      · by_contra wide
        rw [prepare, if_neg wide] at first
        cases first
      · exact ih others k hk
  exact written prepared

theorem narrow_of_assertAll (run : assertAll facts s = (.ok (), s')) :
    ∀ d ∈ facts, d.Narrow s.solver.config.guards := by
  induction facts generalizing s with
  | nil => simp
  | cons c rest ih =>
    obtain ⟨_, t, first, others⟩ := run_bind_eq_ok run
    have config : t.solver.config = s.solver.config := ((keeps_assert c).run first).config_eq
    exact List.forall_mem_cons.2 ⟨narrow_of_assert first, config ▸ ih others⟩

theorem check_of_reliable (reliable : s.world.host.Reliable) :
    ∃ r, check s = (.ok r, s.told .checkSat) ∧ (r = .sat ∧ HasModel s.levels ∨ r = .unsat ∧ ¬HasModel s.levels) := by
  have sent : send .checkSat s =
    (.ok (s.world.host.reply s.world.history s.solver.process .checkSat), s.told .checkSat) := rfl
  obtain ⟨sat, unsat⟩ := reliable.decides s.world.history s.solver.process
  rw [check, run_bind_ok sent]
  by_cases model : HasModel s.levels
  · rw [sat model]
    exact ⟨.sat, rfl, .inl ⟨rfl, model⟩⟩
  · rw [unsat model]
    exact ⟨.unsat, rfl, .inr ⟨rfl, model⟩⟩

theorem narrow_of_decideClause {b : Bool} (reliable : s.world.host.Reliable)
    (run : decideClause facts c question s = (.ok b, s')) :
    (∀ d ∈ facts, d.Narrow s.solver.config.guards) ∧ c.Narrow s.solver.config.guards := by
  have host : s'.world.host = s.world.host := ((keeps_decideClause facts c question).run run).later.host_eq
  obtain ⟨u, v, asserted, negated, -⟩ := decideClause_ok run (World.sincere_of_reliable (host ▸ reliable))
  have config : u.solver.config = s.solver.config := ((keeps_assertAll facts).run asserted).config_eq
  have known : ∀ d ∈ facts, d.Narrow s.opened.solver.config.guards := narrow_of_assertAll asserted
  have denied : (Clause.not c).Narrow u.solver.config.guards := narrow_of_assert negated
  rw [config] at denied
  exact ⟨known, denied⟩

theorem decideClause_of_narrow (reliable : s.world.host.Reliable) (silent : s.world.debug = false)
    (known : ∀ d ∈ facts, d.Narrow s.solver.config.guards) (narrow : c.Narrow s.solver.config.guards) :
    ∃ b s', decideClause facts c question s = (.ok b, s') := by
  obtain ⟨u, asserted, steady⟩ := passes_assertAll known s.opened reliable.compliant rfl
  have host : u.world.host.Reliable := steady.host_eq ▸ reliable
  have negates : Passes s.solver.config (assert (.not c)) := passes_assert narrow
  obtain ⟨v, negated, steady'⟩ := negates u host.compliant steady.config_eq
  obtain ⟨r, checked, decided⟩ := check_of_reliable (s := v) (steady'.host_eq ▸ host)
  have certain : r ≠ .unknown := by rcases decided with ⟨rfl, -⟩ | ⟨rfl, -⟩ <;> simp
  have quiet : (v.told .checkSat).world.debug = false := steady'.debug_eq.trans (steady.debug_eq.trans silent)
  have answers : ∃ b, decision facts c question s.opened = (.ok b, v.told .checkSat) :=
    decision_of_checked asserted negated checked certain quiet
  obtain ⟨b, answered⟩ := answers
  rcases inScope_run (extends_decision facts c question) s with ⟨refused, -⟩ | ⟨s', entered, -⟩
  · exact absurd reliable.grants refused
  · rw [answered] at entered
    exact ⟨b, s', decideClause_eq ▸ entered⟩

end Dialogue

/-- A solver can be started: none is alive, its process and its replay file can be created, and the facts can
be written and have a model. -/
structure Situation.Startable (s : Situation) : Prop where
  free : s.world.leased = false
  creates : ∀ path ∈ s.engine.config.replay, s.world.host.creates path = true
  launches : s.world.host.launches s.engine.config.program s.engine.config.args = true
  narrow : ∀ d ∈ s.engine.facts, d.Narrow s.engine.config.guards
  model : ∃ ν : Assignment, ν.Satisfies s.engine.config.guards s.engine.facts

namespace Talk
variable {config : Config} {w w' : World} {p : Nat}

theorem of_launch (run : launch config w = (.ok p, w')) :
    (∀ path ∈ config.replay, w.host.creates path = true) ∧ w.host.launches config.program config.args = true := by
  obtain ⟨_, w₁, created, run⟩ := run_bind_eq_ok run
  obtain ⟨q, w₂, spawned, -⟩ := run_bind_eq_ok run
  have seen (w : World) : world w = (.ok w, w) := rfl
  have host : w₁.host = w.host := by
    rcases createReplay_run config w with ⟨replay, run⟩ | run <;> rw [run] at created <;> cases created
    rfl
  constructor
  · intro path hpath
    by_contra refused
    rw [createReplay, Option.mem_def.1 hpath] at created
    dsimp only at created
    rw [run_bind_ok (seen w), if_neg refused] at created
    cases created
  · by_contra refused
    rw [spawn, run_bind_ok (seen w₁), host, if_neg refused] at spawned
    cases spawned

theorem launch_ok (compliant : w.host.Compliant) (creates : ∀ path ∈ config.replay, w.host.creates path = true)
    (launches : w.host.launches config.program config.args = true) :
    ∃ p w', launch config w = (.ok p, w') ∧ w'.host = w.host ∧ w'.debug = w.debug := by
  have seen (w : World) : world w = (.ok w, w) := rfl
  have created : ∃ w₁, createReplay config w = (.ok (), w₁) ∧ w₁.host = w.host ∧ w₁.debug = w.debug := by
    unfold createReplay
    cases replay : config.replay with
    | none => exact ⟨w, rfl, rfl, rfl⟩
    | some path =>
      dsimp only
      rw [run_bind_ok (seen w), if_pos (creates path replay)]
      exact ⟨_, rfl, rfl, rfl⟩
  obtain ⟨w₁, created, host, debug⟩ := created
  let q := w₁.processes
  let w₂ : World := { w₁ with history := .started q :: w₁.history }
  have spawned : spawn config w₁ = (.ok q, w₂) := by
    rw [spawn, run_bind_ok (seen w₁), if_pos (host ▸ launches)]
    rfl
  have enabled (o : String) (w' : World) (same : w'.host = w.host) :
      acknowledge q (.enable o) w' = (.ok (), w'.told q (.enable o)) :=
    acknowledge_of_success (by rw [same]; exact compliant _ _ _ trivial)
  rw [launch, run_bind_ok created, run_bind_ok spawned, run_bind_ok (enabled _ w₂ host),
    run_bind_ok (enabled _ (w₂.told q _) host), run_bind_ok (enabled _ ((w₂.told q _).told q _) host)]
  exact ⟨q, _, rfl, host, debug⟩

end Talk

namespace Solver
variable {config : Config} {w w' : World} {σ : Solver}

theorem of_acquire (run : acquire config w = (.ok σ, w')) : w.leased = false ∧
    (∀ path ∈ config.replay, w.host.creates path = true) ∧ w.host.launches config.program config.args = true := by
  have seen : Talk.world w = (.ok w, w) := rfl
  have taken : Talk.update (fun w => { w with leased := true }) w = (.ok (), { w with leased := true }) := rfl
  rw [acquire, run_bind_ok seen] at run
  split at run
  · cases run
  rename_i free
  dsimp only at run
  rw [run_bind_ok taken] at run
  rcases launched : Talk.launch config { w with leased := true } with ⟨e | p, w₁⟩
  · rw [run_bind_error (run_tryCatch_error launched)] at run
    cases run
  · have possible := Talk.of_launch launched
    exact ⟨by simpa using free, possible⟩

theorem acquire_ok (compliant : w.host.Compliant) (free : w.leased = false)
    (creates : ∀ path ∈ config.replay, w.host.creates path = true)
    (launches : w.host.launches config.program config.args = true) :
    ∃ p w', acquire config w = (.ok { config, process := p }, w') ∧ w'.host = w.host ∧ w'.debug = w.debug := by
  have seen : Talk.world w = (.ok w, w) := rfl
  have taken : Talk.update (fun w => { w with leased := true }) w = (.ok (), { w with leased := true }) := rfl
  obtain ⟨p, w', launched, host, debug⟩ :=
    Talk.launch_ok (w := { w with leased := true }) compliant creates launches
  refine ⟨p, w', ?_, host, debug⟩
  rw [acquire, run_bind_ok seen, if_neg (by simp [free])]
  dsimp only
  rw [run_bind_ok taken, run_bind_ok (run_tryCatch_ok launched)]
  rfl

end Solver

namespace Inquiry
variable {s s' : Situation} {c : Clause} {b : Bool}

theorem startable_of_start {σ : Solver} (stated : ∀ d ∈ s.engine.facts, d.Stated s.engine.program)
    (reliable : s.world.host.Reliable) (run : start s = (.ok σ, s')) : s.Startable := by
  obtain ⟨t₀, t, acquired, fresh, config, later, loaded, -, -⟩ := start_eq_ok run
  obtain ⟨free, creates, launches⟩ := Solver.of_acquire acquired
  obtain ⟨u, asserted, checked⟩ := Dialogue.load_eq_ok loaded
  have narrow := Dialogue.narrow_of_assertAll asserted
  have extends₁ : t₀.Extends u := (Dialogue.keeps_assertAll s.engine.facts).run asserted
  have host : u.world.host = s.world.host := extends₁.later.host_eq.trans later.host_eq
  obtain ⟨r, answer, decided⟩ := Dialogue.check_of_reliable (s := u) (host ▸ reliable)
  cases checked.symm.trans answer
  obtain ⟨-, ν, models⟩ | ⟨unsat, -⟩ := decided
  · obtain ⟨told, -⟩ := (fresh.told _).assertAll (Clause.typed_of_stated stated)
      (fun d hd l hl => ⟨d, hd, hl⟩) asserted
    have satisfies := ((told.models ν).1 models).2
    rw [config] at narrow satisfies
    exact ⟨free, creates, launches, narrow, ν, satisfies⟩
  · cases unsat

theorem start_ok (stated : ∀ d ∈ s.engine.facts, d.Stated s.engine.program) (reliable : s.world.host.Reliable)
    (startable : s.Startable) : ∃ t : Session, start s = (.ok t.solver, ⟨t.world, s.engine⟩) ∧
      t.world.host = s.world.host ∧ t.world.debug = s.world.debug ∧ t.solver.config = s.engine.config := by
  have own : engine s = (.ok s.engine, s) := rfl
  obtain ⟨p, w, acquired, host, debug⟩ :=
    Solver.acquire_ok reliable.compliant startable.free startable.creates startable.launches
  have new : levels p w.history = [{}] := by
    rcases Solver.acquire_run s.engine.config s.world with busy | ⟨q, w', run, -, new⟩ | ⟨cause, w', failed, -⟩
    · cases acquired.symm.trans busy
    · cases acquired.symm.trans run
      exact new
    · cases acquired.symm.trans failed
  let t₀ : Session := ⟨w, { config := s.engine.config, process := p }⟩
  have fresh : t₀.Fresh := ⟨new, rfl, rfl⟩
  obtain ⟨u, asserted, steady⟩ :=
    Dialogue.passes_assertAll startable.narrow t₀ (host ▸ reliable.compliant) rfl
  obtain ⟨told, -⟩ := (fresh.told _).assertAll (Clause.typed_of_stated stated)
    (fun d hd l hl => ⟨d, hd, hl⟩) asserted
  obtain ⟨ν, satisfies⟩ := startable.model
  have model : HasModel u.levels := ⟨ν, (told.models ν).2 ⟨trivial, satisfies⟩⟩
  obtain ⟨r, checked, decided⟩ :=
    Dialogue.check_of_reliable (s := u) (steady.host_eq ▸ host ▸ reliable)
  obtain ⟨rfl, -⟩ := decided.resolve_right fun none => none.2 model
  have loaded : Dialogue.load s.engine t₀ = (.ok (), u.told .checkSat) := by
    rw [Dialogue.load, run_bind_ok asserted, run_bind_ok checked]
    rfl
  refine ⟨u.told .checkSat, ?_, steady.host_eq.trans host, steady.debug_eq.trans debug, steady.config_eq⟩
  rw [start, run_bind_ok own, run_bind_ok (lift_run acquired),
    run_bind_ok (converse_run (s := ⟨w, s.engine⟩) loaded)]
  rfl

end Inquiry

/-- The question can be put: it can be folded and written, the facts that it needs can be stated and written,
and there is a solver or one can be started. -/
structure Situation.Admits (s : Situation) (c : Clause) : Prop where
  folds : ∃ known, (s.engine.classes.canonical c).simplify = .ok known
  realizes : ∃ facts, s.engine.Realizes c facts ∧ ∀ d ∈ facts, d.Narrow s.engine.config.guards
  narrow : (s.engine.classes.canonical c).Narrow s.engine.config.guards
  solver : s.engine.solver.isSome ∨ s.Startable

namespace Inquiry
variable {s s' : Situation} {c : Clause} {b : Bool}

theorem ready_of_withSolver {α : Type} {d : Dialogue α} {a : α} (coherent : s.Coherent)
    (reliable : s.world.host.Reliable) (run : withSolver d s = (.ok a, s')) :
    s.engine.solver.isSome ∨ s.Startable := by
  cases held : s.engine.solver with
  | some σ => exact .inl rfl
  | none =>
    have own : engine s = (.ok s.engine, s) := rfl
    rw [withSolver, run_bind_ok own, held] at run
    obtain ⟨σ, s₁, started, -⟩ := run_bind_eq_ok run
    exact .inr (startable_of_start coherent.stated reliable started)

theorem withSolver_ok {α : Type} (d : Dialogue α) (coherent : s.Coherent) (reliable : s.world.host.Reliable)
    (ready : s.engine.solver.isSome ∨ s.Startable) : ∃ t : Session, t.world.host = s.world.host ∧
      t.world.debug = s.world.debug ∧ t.solver.config = s.engine.config ∧
      withSolver d s = ((d t).1, ⟨(d t).2.world, { s.engine with solver := some (d t).2.solver }⟩) := by
  cases held : s.engine.solver with
  | some σ => exact ⟨⟨s.world, σ⟩, rfl, rfl, (coherent.holds σ held).1, withSolver_of_some held rfl⟩
  | none =>
    have startable : s.Startable := ready.resolve_left (by simp [held])
    obtain ⟨t, started, host, debug, config⟩ := start_ok coherent.stated reliable startable
    exact ⟨t, host, debug, config, withSolver_of_none held started rfl⟩

theorem provable_plain (quiet : s.world.debug = false) (plain : (s.engine.classes.canonical c).isTautology ∨
    (s.engine.classes.canonical c).simplify = .ok (some true)) : provable c s = (.ok true, s) := by
  have own : engine s = (.ok s.engine, s) := rfl
  have seen : (liftM Talk.world : Inquiry World) s = (.ok s.world, s) := rfl
  rw [provable, run_bind_ok own]
  dsimp only
  rw [run_bind_ok seen, if_neg (by simp [quiet])]
  split
  · rfl
  · rename_i tautology
    have simplify := plain.resolve_left tautology
    have simplified : (liftM (Talk.ofChecked (s.engine.classes.canonical c).simplify) : Inquiry _) s =
        (.ok (some true), s) := by
      rw [simplify]
      rfl
    rw [run_bind_ok simplified, if_pos rfl]
    rfl

/-- With a reliable solver and without debugging, an answer is given exactly to what is plain from the clause
and to what can be put to the solver. -/
theorem provable_ok_iff (coherent : s.Coherent) (reliable : s.world.host.Reliable)
    (quiet : s.world.debug = false) : (∃ b s', provable c s = (.ok b, s')) ↔
      ((s.engine.classes.canonical c).isTautology ∨ (s.engine.classes.canonical c).simplify = .ok (some true)) ∨
        s.Admits c := by
  have silent (ns : List Notice) : s.world.Silent { s.world with notices := ns } := ⟨rfl, rfl⟩
  constructor
  · rintro ⟨b, s', run⟩
    rcases provable_eq_ok run with ⟨-, plain, -⟩ | ⟨-, ⟨known, simplify, -⟩, facts, ns, realized, asked⟩
    · exact .inl plain
    have coherent : Situation.Coherent ⟨{ s.world with notices := ns }, s.engine⟩ :=
      coherent.of_world fun _ _ => Session.resumes_of_silent (silent ns)
    obtain ⟨t, t', later, config, -, decided, -⟩ := withSolver_eq_ok coherent asked
    obtain ⟨written, narrow⟩ := Dialogue.narrow_of_decideClause (later.host_eq ▸ reliable) decided
    rw [config] at written narrow
    exact .inr ⟨⟨known, simplify⟩, ⟨facts, ⟨_, _, realized⟩, written⟩, narrow,
      (ready_of_withSolver coherent reliable asked).imp_right fun h => ⟨h.1, h.2, h.3, h.4, h.5⟩⟩
  · rintro (plain | admits)
    · exact ⟨true, s, provable_plain quiet plain⟩
    by_cases plain : (s.engine.classes.canonical c).isTautology ∨
        (s.engine.classes.canonical c).simplify = .ok (some true)
    · exact ⟨true, s, provable_plain quiet plain⟩
    obtain ⟨known, simplify⟩ := admits.folds
    obtain ⟨facts, ⟨ms, ms', run⟩, written⟩ := admits.realizes
    obtain ⟨ns, realized⟩ := (s.engine.oblivious_realized c).run_eq run s.world.notices
    have coherent : Situation.Coherent ⟨{ s.world with notices := ns }, s.engine⟩ :=
      coherent.of_world fun _ _ => Session.resumes_of_silent (silent ns)
    have ready : s.engine.solver.isSome ∨ Situation.Startable ⟨{ s.world with notices := ns }, s.engine⟩ :=
      admits.solver.imp_right fun h => ⟨h.1, h.2, h.3, h.4, h.5⟩
    obtain ⟨t, host, debug, config, asked⟩ := withSolver_ok
      (Dialogue.decideClause facts (s.engine.classes.canonical c) c) coherent reliable ready
    obtain ⟨b, t', decided⟩ := Dialogue.decideClause_of_narrow (s := t) (host ▸ reliable) (debug.trans quiet)
      (config ▸ written) (config ▸ admits.narrow)
    obtain ⟨tautology, unsettled⟩ := not_or.1 plain
    rw [provable_asks quiet (by simpa using tautology) simplify (by simpa [simplify] using unsettled) realized, asked,
      decided]
    exact ⟨b, _, rfl⟩

end Inquiry
end SsaFacts
