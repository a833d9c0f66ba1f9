import SsaFacts.Engine.Constants
import SsaFacts.Proofs.Holding

/-! The situations that an engine can come to. In each of them its facts are those of its program and its
solver, if it has one, holds them. -/
namespace SsaFacts

open Smt

/-- What starting a process leads to: a process that was told nothing, or a process error. -/
structure World.Launched (w : World) (o : Except Failure Nat × World) : Prop where
  lasts : w.Lasts o.2
  levels_eq : ∀ p, o.1 = .ok p → levels p o.2.history = [{}]
  error_eq : ∀ e, o.1 = .error e → ∃ cause, e = .error (.process cause)

namespace Talk

theorem ofNoted_run {α : Type} {x : Noted α} {w : World} {r : Except Fault α} {ns : List Notice}
    (h : x w.notices = (r, ns)) : ofNoted x w = (r.mapError Failure.fault, { w with notices := ns }) := by
  show ((x w.notices).1.mapError Failure.fault, { w with notices := (x w.notices).2 }) = _
  rw [h]

theorem createReplay_run (config : Config) (w : World) :
    (∃ replay, createReplay config w = (.ok (), { w with replay })) ∨
      createReplay config w = (.error (.error (.process .notFound)), w) := by
  unfold createReplay
  cases config.replay with
  | none => exact .inl ⟨w.replay, rfl⟩
  | some path =>
    have seen : world w = (.ok w, w) := rfl
    dsimp only
    rw [run_bind_ok seen]
    split
    · exact .inl ⟨_, rfl⟩
    · exact .inr rfl

theorem spawn_run (config : Config) (w : World) :
    (∃ p, spawn config w = (.ok p, { w with history := .started p :: w.history })) ∨
      spawn config w = (.error (.error (.process .notFound)), w) := by
  have seen : world w = (.ok w, w) := rfl
  rw [spawn, run_bind_ok seen]
  split
  · exact .inl ⟨w.processes, rfl⟩
  · exact .inr rfl

theorem launch_run (config : Config) (w : World) : w.Launched (launch config w) := by
  have refuse {w' : World} (h : w.Lasts w') (cause : ProcessError) :
      w.Launched (.error (.error (.process cause)), w') :=
    ⟨h, nofun, fun e he => ⟨cause, (Except.error.inj he).symm⟩⟩
  rw [launch]
  rcases createReplay_run config w with ⟨replay, created⟩ | created
  swap
  · rw [run_bind_error created]
    exact refuse (refl_of World.Lasts w) _
  let w₁ : World := { w with replay }
  have lasts₁ : w.Lasts w₁ := ⟨⟨rfl, List.suffix_rfl⟩, rfl⟩
  rw [run_bind_ok created]
  rcases spawn_run config w₁ with ⟨p, spawned⟩ | spawned
  swap
  · rw [run_bind_error spawned]
    exact refuse lasts₁ _
  rw [run_bind_ok spawned]
  let w₂ : World := { w₁ with history := .started p :: w₁.history }
  let c₁ := Command.enable "print-success"
  let c₂ := Command.enable "produce-models"
  have started : w₁.Lasts w₂ := ⟨⟨rfl, List.suffix_cons _ _⟩, rfl⟩
  have lasts₂ := trans_of World.Lasts lasts₁ started
  have lasts₃ := trans_of World.Lasts lasts₂ (World.lasts_told p c₁)
  have lasts₄ := trans_of World.Lasts lasts₃ (World.lasts_told p c₂)
  have lasts₅ := trans_of World.Lasts lasts₄ (World.lasts_told p c₂)
  rcases acknowledge_run p c₁ w₂ with h | ⟨reply, h⟩
  swap
  · rw [run_bind_error h]
    exact refuse lasts₃ _
  rw [run_bind_ok h]
  rcases acknowledge_run p c₂ (w₂.told p c₁) with h | ⟨reply, h⟩
  swap
  · rw [run_bind_error h]
    exact refuse lasts₄ _
  rw [run_bind_ok h]
  rcases acknowledge_run p c₂ ((w₂.told p c₁).told p c₂) with h | ⟨reply, h⟩
  swap
  · rw [run_bind_error h]
    exact refuse lasts₅ _
  rw [run_bind_ok h]
  refine ⟨lasts₅, ?_, nofun⟩
  rintro _ ⟨⟩
  have empty : levels p w₂.history = [{}] := levels_started
  have told (o : String) (w' : World) : levels p (w'.told p (.enable o)).history = levels p w'.history :=
    levels_sent
  exact (told _ _).trans ((told _ _).trans ((told _ _).trans empty))

end Talk

/-- The failure reports that the facts have no model. -/
def Failure.Inconsistent : Failure → Prop
  | .error (.inconsistent _) => True
  | _ => False

/-- Either the lease is taken, or a fresh solver is acquired, or no process comes up. -/
theorem Solver.acquire_run (config : Config) (w : World) :
    acquire config w = (.error (.error .solverBusy), w) ∨
      (∃ p w', acquire config w = (.ok { config, process := p }, w') ∧ w.Later w' ∧
        levels p w'.history = [{}]) ∨
      ∃ cause w', acquire config w = (.error (.error (.process cause)), w') ∧ w.Later w' := by
  have seen : Talk.world w = (.ok w, w) := rfl
  rw [acquire, run_bind_ok seen]
  split
  · exact .inl rfl
  right
  let w₁ : World := { w with leased := true }
  have taken : Talk.update (fun w => { w with leased := true }) w = (.ok (), w₁) := rfl
  have later₁ : w.Later w₁ := ⟨rfl, List.suffix_rfl⟩
  have launched := Talk.launch_run config w₁
  dsimp only
  rw [run_bind_ok taken]
  rcases run : Talk.launch config w₁ with ⟨e | p, w₂⟩
  · rw [run] at launched
    obtain ⟨cause, rfl⟩ := launched.error_eq e rfl
    have later₂ : w₂.Later { w₂ with leased := false } := ⟨rfl, List.suffix_rfl⟩
    refine .inr ⟨cause, { w₂ with leased := false }, ?_, ?_⟩
    · exact run_bind_error (run_tryCatch_error run)
    · exact trans_of World.Later later₁ (trans_of World.Later launched.lasts.toLater later₂)
  · rw [run] at launched
    refine .inl ⟨p, w₂, ?_, ?_, launched.levels_eq p rfl⟩
    · exact run_bind_ok (run_tryCatch_ok run)
    · exact trans_of World.Later later₁ launched.lasts.toLater

theorem Program.plainLeaf_inj {p : Program} {v u : ValueId}
    (h : (p.plainLeaf v).solverName = (p.plainLeaf u).solverName) : v = u := by
  simpa [plainLeaf, Leaf.solverName, taggedName] using h

theorem Clause.typed_of_stated {p : Program} {cs : List Clause} (stated : ∀ c ∈ cs, c.Stated p) :
    Typed fun l => ∃ c ∈ cs, l ∈ c.leaves := by
  rintro l m ⟨c, hc, hl⟩ ⟨d, hd, hm⟩ name
  obtain ⟨v, -, rfl⟩ := (stated c hc).leaf_eq hl
  obtain ⟨u, -, rfl⟩ := (stated d hd).leaf_eq hm
  rw [Program.plainLeaf_inj name]

/-- The node is a literal or a value of the list. -/
def Node.Listed (vs : List ValueId) : Node → Prop
  | value v => v ∈ vs
  | literal _ => True

theorem Node.equivalence_listed (vs : List ValueId) :
    Equivalence fun a b : Node => a = b ∨ a.Listed vs ∧ b.Listed vs where
  refl _ := .inl rfl
  symm := by
    rintro a b (rfl | ⟨ha, hb⟩)
    · exact .inl rfl
    · exact .inr ⟨hb, ha⟩
  trans := by
    rintro a b c (rfl | ⟨ha, hb⟩) (rfl | ⟨hb', hc⟩)
    · exact .inl rfl
    · exact .inr ⟨hb', hc⟩
    · exact .inr ⟨ha, hb⟩
    · exact .inr ⟨ha, hc⟩

namespace Engine
variable {subject : Subject} {config : Config} {e : Engine} {ns ns' : List Notice}

theorem ofSubject_eq_ok (run : ofSubject subject config ns = (.ok e, ns')) :
    e.subject = subject ∧ e.config = config ∧ e.solver = none ∧ e.Reduced := by
  obtain ⟨capture, ns₁, captured, -⟩ := run_bind_eq_ok run
  obtain ⟨e', ns₂, run', subject, config, -, solver, reduced⟩ := ofSubject_ok captured
  rw [run] at run'
  cases run'
  exact ⟨subject, config, solver, reduced⟩

/-- Joining equalities links fixed values to fixed values only. -/
theorem Reduced.listed (h : e.Reduced) (n : Node) :
    e.classes.root n = n ∨ (e.classes.root n).Listed e.capture.fixed ∧ n.Listed e.capture.fixed := by
  refine h.joined.respects (Node.equivalence_listed _) (fun a b hab => ?_)
    (fun n => .inl (Classes.root_empty n)) n
  obtain ⟨f, hf, eq, fixa, fixb⟩ := Capture.mem_equalities.1 hab
  have fixed (n : Node) (named : n.Named e.program) (hn : n.fixed (e.capture.isFixed e.program)) :
      n.Listed e.capture.fixed := by
    cases n with
    | literal l => trivial
    | value v =>
      have constant : e.program.isConstant v = false := named
      simpa [Node.fixed, Node.Listed, Capture.isFixed, constant] using hn
  rcases ((h.stated f hf).alike_simpleEq eq).2 with rfl | ⟨ha, hb, -⟩
  · exact .inl rfl
  · exact .inr ⟨fixed a ha fixa, fixed b hb fixb⟩

theorem Reduced.stated_facts (h : e.Reduced) : ∀ c ∈ e.facts, c.Stated e.program := by
  intro c hc
  obtain ⟨⟨f, hf, rfl⟩, -⟩ := (h.mem_facts c).1 hc
  exact h.uniform.canonical_stated (h.stated f hf)

end Engine

namespace Situation

/-- The facts are those of the program, the classes are sound to read them through, and the solver holds
the facts. -/
structure Coherent (s : Situation) : Prop where
  made : ∃ e ns ns', Engine.ofSubject s.engine.subject s.engine.config ns = (.ok e, ns') ∧
    s.engine.capture = e.capture ∧ s.engine.facts = e.facts
  rooted : s.engine.classes.Rooted
  uniform : s.engine.classes.Uniform s.engine.program
  listed : ∀ n, s.engine.classes.root n = n ∨
    (s.engine.classes.root n).Listed s.engine.capture.fixed ∧ n.Listed s.engine.capture.fixed
  holds : ∀ σ ∈ s.engine.solver,
    σ.config = s.engine.config ∧ (⟨s.world, σ⟩ : Session).Holds s.engine.facts

def Sound (s s' : Situation) : Prop := s.Coherent → s'.Coherent

instance : IsPreorder Situation Sound where
  refl _ h := h
  trans _ _ _ h h' := fun c => h' (h c)

theorem Coherent.stated {s : Situation} (h : s.Coherent) :
    ∀ c ∈ s.engine.facts, c.Stated s.engine.program := by
  obtain ⟨e, ns, ns', run, -, facts⟩ := h.made
  obtain ⟨subject, -, -, reduced⟩ := Engine.ofSubject_eq_ok run
  rw [facts, Engine.program, ← subject]
  exact reduced.stated_facts

theorem coherent_ofSubject {subject : Subject} {config : Config} {e : Engine} {ns ns' : List Notice}
    (run : Engine.ofSubject subject config ns = (.ok e, ns')) (w : World) : Coherent ⟨w, e⟩ := by
  obtain ⟨rfl, rfl, solver, reduced⟩ := Engine.ofSubject_eq_ok run
  refine ⟨⟨e, ns, ns', run, rfl, rfl⟩, reduced.joined.rooted, reduced.uniform, reduced.listed, ?_⟩
  intro σ hσ
  rw [show e.solver = some σ from hσ] at solver
  cases solver

theorem Coherent.root_mem {s : Situation} (h : s.Coherent) {v r : ValueId}
    (hv : v ∈ s.engine.capture.fixed) (hr : s.engine.classes.root (.value v) = .value r) :
    r ∈ s.engine.capture.fixed := by
  rcases h.listed (.value v) with same | ⟨listed, -⟩
  · cases hr.symm.trans same
    exact hv
  · rw [hr] at listed
    exact listed

theorem Coherent.of_world {s : Situation} {w : World} (h : s.Coherent)
    (resumes : ∀ σ ∈ s.engine.solver, (⟨s.world, σ⟩ : Session).Resumes ⟨w, σ⟩) :
    Coherent ⟨w, s.engine⟩ where
  made := h.made
  rooted := h.rooted
  uniform := h.uniform
  listed := h.listed
  holds σ hσ := ⟨(h.holds σ hσ).1, (resumes σ hσ).holds (h.holds σ hσ).2⟩

end Situation

namespace Inquiry
variable {α : Type} {s s' : Situation}

theorem keeps_ofTalk {t : Talk α} (h : Keeps World.Silent t) : Keeps Situation.Sound (ofTalk t) :=
  fun s coherent => coherent.of_world fun _ _ => Session.resumes_of_silent (h s.world)

theorem keeps_engine : Keeps Situation.Sound engine := .of_eq fun _ => rfl

theorem lift_run {t : Talk α} {r : Except Failure α} {world : World} (h : t s.world = (r, world)) :
    (liftM t : Inquiry α) s = (r, { s with world }) := by
  show ((t s.world).1, { s with world := (t s.world).2 }) = _
  rw [h]

theorem converse_run {σ : Solver} {d : Dialogue α} {r : Except Failure α} {t : Session}
    (h : d ⟨s.world, σ⟩ = (r, t)) : converse σ d s = (.ok (r, t.solver), { s with world := t.world }) := by
  let o := d ⟨s.world, σ⟩
  show (Except.ok (o.1, o.2.solver), { s with world := o.2.world }) = _
  rw [show o = (r, t) from h]

theorem consult_run {e : Engine} (d : Dialogue α) (t : Session) :
    consult t.solver d ⟨t.world, e⟩ =
      ((d t).1, ⟨(d t).2.world, { e with solver := some (d t).2.solver }⟩) := by
  rcases run : d t with ⟨f | a, t'⟩ <;>
  · rw [consult, run_bind_ok (converse_run (s := ⟨t.world, e⟩) run)]
    rfl

/-- A fresh solver is acquired and loads the facts; if it cannot, it is given up. -/
theorem start_cases (s : Situation) :
    (∃ t₀ t : Session, Solver.acquire s.engine.config s.world = (.ok t₀.solver, t₀.world) ∧ t₀.Fresh ∧
        t₀.solver.config = s.engine.config ∧ s.world.Later t₀.world ∧
        (Dialogue.load s.engine t₀ = (.ok (), t) ∧ start s = (.ok t.solver, ⟨t.world, s.engine⟩) ∨
          ∃ f w, Dialogue.load s.engine t₀ = (.error f, t) ∧ start s = (.error f, ⟨w, s.engine⟩) ∧
            t.world.Later w)) ∨
      ∃ f w, start s = (.error f, ⟨w, s.engine⟩) ∧ ¬f.Inconsistent := by
  have own : engine s = (.ok s.engine, s) := rfl
  rw [start, run_bind_ok own]
  rcases Solver.acquire_run s.engine.config s.world with busy | ⟨p, w, acquired, later, new⟩ |
    ⟨cause, w, failed, -⟩
  · exact .inr ⟨_, _, run_bind_error (lift_run busy), id⟩
  · let t₀ : Session := ⟨w, { config := s.engine.config, process := p }⟩
    rw [run_bind_ok (lift_run acquired)]
    rcases loaded : Dialogue.load s.engine t₀ with ⟨f | ⟨⟩, t⟩ <;>
      rw [run_bind_ok (converse_run (s := ⟨w, s.engine⟩) loaded)] <;>
      refine .inl ⟨t₀, t, acquired, ⟨new, rfl, rfl⟩, rfl, later, ?_⟩
    · exact .inr ⟨f, _, loaded, rfl, rfl, List.suffix_rfl⟩
    · exact .inl ⟨loaded, rfl⟩
  · exact .inr ⟨_, _, run_bind_error (lift_run failed), id⟩

theorem start_eq_ok {σ : Solver} {s' : Situation} (run : start s = (.ok σ, s')) : ∃ t₀ t : Session,
    Solver.acquire s.engine.config s.world = (.ok t₀.solver, t₀.world) ∧ t₀.Fresh ∧
      t₀.solver.config = s.engine.config ∧ s.world.Later t₀.world ∧
      Dialogue.load s.engine t₀ = (.ok (), t) ∧ σ = t.solver ∧ s' = ⟨t.world, s.engine⟩ := by
  rcases start_cases s with ⟨t₀, t, acquired, fresh, config, later, ⟨loaded, started⟩ | ⟨f, w, -, failed, -⟩⟩ |
    ⟨f, w, failed, -⟩
  · cases run.symm.trans started
    exact ⟨t₀, t, acquired, fresh, config, later, loaded, rfl, rfl⟩
  · cases run.symm.trans failed
  · cases run.symm.trans failed

/-- A solver that is started holds the facts. If none is started the engine stays as it was, and an
inconsistency is one that a fresh solver reported on loading. -/
theorem start_run (stated : ∀ c ∈ s.engine.facts, c.Stated s.engine.program) :
    (∃ t : Session, start s = (.ok t.solver, ⟨t.world, s.engine⟩) ∧ s.world.Later t.world ∧
        t.solver.config = s.engine.config ∧ t.Holds s.engine.facts) ∨
      ∃ f w, start s = (.error f, ⟨w, s.engine⟩) ∧
        (f.Inconsistent → ∃ t₀ t : Session, t₀.Fresh ∧ t₀.solver.config = s.engine.config ∧
          Dialogue.load s.engine t₀ = (.error f, t) ∧ t.world.Later w) := by
  rcases start_cases s with ⟨t₀, t, -, fresh, config, later, ⟨loaded, started⟩ | ⟨f, w, loaded, failed, later'⟩⟩ |
    ⟨f, w, failed, other⟩
  · obtain ⟨later', config', holds⟩ := Dialogue.load_ok fresh (Clause.typed_of_stated stated) loaded
    rw [config] at config'
    exact .inl ⟨t, started, trans_of World.Later later later', config', holds⟩
  · exact .inr ⟨f, w, failed, fun _ => ⟨t₀, t, fresh, config, loaded, later'⟩⟩
  · exact .inr ⟨f, w, failed, fun h => absurd h other⟩

theorem withSolver_of_some {d : Dialogue α} {σ : Solver} {r : Except Failure α} {u : Session}
    (held : s.engine.solver = some σ) (answered : d ⟨s.world, σ⟩ = (r, u)) :
    withSolver d s = (r, ⟨u.world, { s.engine with solver := some u.solver }⟩) := by
  have own : engine s = (.ok s.engine, s) := rfl
  rw [withSolver, run_bind_ok own, held]
  refine (consult_run d ⟨s.world, σ⟩).trans ?_
  rw [answered]

theorem withSolver_of_none {d : Dialogue α} {t u : Session} {r : Except Failure α}
    (none : s.engine.solver = none) (started : start s = (.ok t.solver, ⟨t.world, s.engine⟩))
    (answered : d t = (r, u)) :
    withSolver d s = (r, ⟨u.world, { s.engine with solver := some u.solver }⟩) := by
  have own : engine s = (.ok s.engine, s) := rfl
  rw [withSolver, run_bind_ok own, none]
  refine (run_bind_ok started).trans ((consult_run d t).trans ?_)
  rw [answered]

theorem withSolver_of_failure {d : Dialogue α} {f : Failure} (none : s.engine.solver = none)
    (failed : start s = (.error f, s')) : withSolver d s = (.error f, s') := by
  have own : engine s = (.ok s.engine, s) := rfl
  rw [withSolver, run_bind_ok own, none]
  exact run_bind_error failed

/-- A dialogue is held with a solver that holds the facts, if one can be had. -/
theorem withSolver_run (coherent : s.Coherent) (d : Dialogue α) :
    (∃ t : Session, s.world.Later t.world ∧ t.solver.config = s.engine.config ∧
        t.Holds s.engine.facts ∧ withSolver d s =
          ((d t).1, ⟨(d t).2.world, { s.engine with solver := some (d t).2.solver }⟩)) ∨
      s.engine.solver = none ∧ ∃ f w, withSolver d s = (.error f, ⟨w, s.engine⟩) := by
  cases solver : s.engine.solver with
  | some σ =>
    exact .inl ⟨⟨s.world, σ⟩, refl_of World.Later s.world, (coherent.holds σ solver).1,
      (coherent.holds σ solver).2, withSolver_of_some solver rfl⟩
  | none =>
    rcases start_run coherent.stated with ⟨t, started, later, config, holds⟩ | ⟨f, w, failed, -⟩
    · exact .inl ⟨t, later, config, holds, withSolver_of_none solver started rfl⟩
    · exact .inr ⟨rfl, f, w, withSolver_of_failure solver failed⟩

theorem keeps_withSolver {d : Dialogue α} (hd : Keeps Session.Resumes d) :
    Keeps Situation.Sound (withSolver d) := by
  intro s coherent
  rcases withSolver_run coherent d with ⟨t, later, config, holds, run⟩ | ⟨none, f, w, run⟩
  · rw [run]
    refine ⟨coherent.made, coherent.rooted, coherent.uniform, coherent.listed, ?_⟩
    rintro _ ⟨⟩
    exact ⟨(hd t).config_eq.trans config, (hd t).holds holds⟩
  · rw [run]
    refine coherent.of_world fun σ hσ => ?_
    rw [none] at hσ
    cases hσ

theorem keeps_close : Keeps Situation.Sound close := by
  refine keeps_engine.bind fun e => ?_
  split
  · refine (keeps_ofTalk fun _ => ⟨rfl, rfl⟩).bind fun _ => ?_
    intro s coherent
    exact ⟨coherent.made, coherent.rooted, coherent.uniform, coherent.listed, nofun⟩
  · exact .pure ()

theorem keeps_checkConsistency : Keeps Situation.Sound checkConsistency := by
  intro s coherent
  have own : engine s = (.ok s.engine, s) := rfl
  rw [checkConsistency, run_bind_ok own]
  cases solver : s.engine.solver with
  | some σ => exact coherent
  | none =>
    dsimp only [Option.isNone]
    rw [if_pos rfl]
    rcases start_run coherent.stated with ⟨t, started, -, config, holds⟩ | ⟨f, w, failed, -⟩
    · rw [run_bind_ok started]
      refine ⟨coherent.made, coherent.rooted, coherent.uniform, coherent.listed, ?_⟩
      rintro _ ⟨⟩
      exact ⟨config, holds⟩
    · rw [run_bind_error failed]
      refine coherent.of_world fun σ hσ => ?_
      rw [solver] at hσ
      cases hσ

theorem keeps_recalculate : Keeps Situation.Sound recalculate := by
  intro s coherent
  have closed := keeps_close s coherent
  rcases hc : close s with ⟨f | ⟨⟩, s₁⟩
  · rw [recalculate, run_bind_error hc]
    rwa [hc] at closed
  rw [hc] at closed
  have own : engine s₁ = (.ok s₁.engine, s₁) := rfl
  rw [recalculate, run_bind_ok hc, run_bind_ok own]
  rcases made : Engine.ofSubject s₁.engine.subject s₁.engine.config s₁.world.notices with ⟨f | e, ns⟩
  · have noted : Talk.ofNoted (Engine.ofSubject s₁.engine.subject s₁.engine.config) s₁.world =
        (.error (.fault f), { s₁.world with notices := ns }) := Talk.ofNoted_run made
    rw [run_bind_error (lift_run noted)]
    exact closed.of_world fun σ _ => Session.resumes_of_silent ⟨rfl, rfl⟩
  · have noted : Talk.ofNoted (Engine.ofSubject s₁.engine.subject s₁.engine.config) s₁.world =
        (.ok e, { s₁.world with notices := ns }) := Talk.ofNoted_run made
    rw [run_bind_ok (lift_run noted)]
    exact keeps_checkConsistency _ (Situation.coherent_ofSubject made _)

/-- A property that decisions have, and that a question has if its steps have it. -/
structure Asks (P : ∀ {α : Type}, Inquiry α → Prop) : Prop extends Stepwise Inquiry P where
  engine : P engine
  world : P (ofTalk Talk.world)
  noted : ∀ {α : Type} (x : Noted α), P (ofTalk (Talk.ofNoted x))
  checked : ∀ {α : Type} (x : Checked α), P (ofTalk (Talk.ofChecked x))
  mismatch : ∀ lhs rhs, P (ofTalk (Talk.fail (.widthMismatch lhs rhs)) : Inquiry PUnit)
  decides : ∀ facts c question, P (withSolver (Dialogue.decideClause facts c question))

namespace Asks
variable {P : ∀ {α : Type}, Inquiry α → Prop}

theorem of_silent {R : Situation → Situation → Prop} [IsPreorder Situation R]
    (silent : ∀ {α : Type} {t : Talk α}, Keeps World.Silent t → Keeps R (ofTalk t))
    (decides : ∀ facts c question, Keeps R (withSolver (Dialogue.decideClause facts c question))) :
    Asks (Keeps R) where
  toStepwise := Keeps.stepwise
  engine := .of_eq fun _ => rfl
  world := silent Talk.keeps_world
  noted x := silent (Talk.keeps_ofNoted x)
  checked x := silent (Talk.keeps_ofChecked x)
  mismatch _ _ := silent (Talk.keeps_fail _)
  decides := decides

theorem provable (asks : Asks P) (c : Clause) : P (provable c) := by
  refine asks.bind asks.engine fun e => ?_
  extract_lets canonical ask
  have decided (u : Unit) : P (ask u) := by
    dsimp only [ask]
    split
    · exact asks.pure true
    refine asks.bind (asks.checked _) fun known => ?_
    split
    · exact asks.pure true
    exact asks.bind (asks.noted _) fun facts => asks.decides facts canonical c
  refine asks.bind asks.world fun world => ?_
  split
  · refine asks.bind (asks.discard (asks.checked _)) fun _ => ?_
    exact asks.bind (asks.discard (asks.checked _)) decided
  · exact decided ()

theorem satisfiable (asks : Asks P) (c : Clause) : P (satisfiable c) := by
  refine asks.bind asks.engine fun e => ?_
  split
  · exact asks.pure true
  · exact asks.map (asks.provable _) _

theorem question (asks : Asks P) (pred : Predicate) (stack₁ : List ValueId) (v₁ : Operand)
    (stack₂ : List ValueId) (v₂ : Operand) : P (question pred stack₁ v₁ stack₂ v₂) := by
  have side (context : Context) (stack : List ValueId) (v : Operand) : P (side context stack v) :=
    asks.bind asks.engine fun e => asks.map (asks.checked _) _
  refine asks.bind (side 1 stack₁ v₁) fun l => asks.bind (side 2 stack₂ v₂) fun r => ?_
  split
  · exact asks.bind (asks.mismatch _ _) fun _ => asks.pure _
  · exact asks.pure _

theorem provableOf (asks : Asks P) (pred : Predicate) (stack₁ : List ValueId) (v₁ : Operand)
    (stack₂ : List ValueId) (v₂ : Operand) : P (provableOf pred stack₁ v₁ stack₂ v₂) :=
  asks.bind (asks.question pred stack₁ v₁ stack₂ v₂) asks.provable

theorem satisfiableOf (asks : Asks P) (pred : Predicate) (stack₁ : List ValueId) (v₁ : Operand)
    (stack₂ : List ValueId) (v₂ : Operand) : P (satisfiableOf pred stack₁ v₁ stack₂ v₂) :=
  asks.bind (asks.question pred stack₁ v₁ stack₂ v₂) asks.satisfiable

end Asks

theorem asks_sound : Asks (Keeps Situation.Sound) :=
  .of_silent keeps_ofTalk fun facts c question => keeps_withSolver (Dialogue.keeps_decideClause facts c question)

end Inquiry
end SsaFacts
