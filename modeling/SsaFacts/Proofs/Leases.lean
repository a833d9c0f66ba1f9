import SsaFacts.Proofs.Symmetry

/-! The lease on the one solver. It is taken exactly while a solver is alive, be it on its own or in the hands of
an engine; so there is never a second one, and a solver is refused for this reason exactly while there is one. A
dialogue does not touch the lease; only acquiring, starting and giving up a solver do. -/
namespace SsaFacts

open Smt

abbrev Failure.busy : Failure := .error .solverBusy

namespace Dialogue

theorem through_unleased : Throughout (Fails (· ≠ .busy)) := by
  have plain : Plain (Fails (· ≠ .busy)) :=
    plain_fails (fun e reply busy => by cases busy; exact reply) fun f => by simp
  have told (c : Command) : Fails (· ≠ .busy) (acknowledge c) := fails_acknowledge (fun cause => by simp) c
  have updated (f : Solver → Solver) : Fails (· ≠ .busy) (setSolver f) := .of_ok fun s => ⟨(), _, rfl⟩
  have pushed : Fails (· ≠ .busy) push := (told _).bind fun _ => updated _
  have popped : Fails (· ≠ .busy) pop := (told _).bind fun _ => updated _
  have closed : Fails (· ≠ .busy) close := by
    refine popped.tryCatch fun e other => ?_
    split
    · exact plain.noted _
    · exact .throw other
  refine ⟨⟨plain, fun _ => .of_ok fun s => ⟨_, _, rfl⟩⟩, told, updated, fun hbody => ?_, fun config => ?_,
    fun core => .throw (by simp)⟩
  · refine pushed.bind fun _ s e s' run => ?_
    rw [run_bind_ok (caught_run _ s)] at run
    refine (closed.bind fun _ => ?_) _ e s' run
    split
    · exact .pure _
    · rename_i f failed
      exact .throw (hbody s f _ (Prod.ext failed rfl))
  · intro s e s' run
    obtain ⟨cause, rfl⟩ := (Talk.launch_run config s.world).error_eq e (congrArg Prod.fst run)
    simp

end Dialogue

theorem Solver.Move.leased_after (m : Move) (s : Session) : (m.after s).world.leased = s.world.leased := by
  have lasts : Session.Lasts s (m.after s) := by
    cases m with
    | assert c => exact Dialogue.through_lasts.assert (fun _ => Dialogue.lasts_acknowledge _) c s
    | check => exact Dialogue.through_lasts.check s
    | display c => exact Dialogue.through_lasts.display c s
    | modelValues es => exact Dialogue.through_lasts.modelValues es s
    | enter => exact Dialogue.lasts_push s
    | leave => exact Dialogue.lasts_close s
    | restart => exact Dialogue.through_lasts.restart s
  exact lasts.leased_eq

/-- So many solvers are alive: at most one, and the lease is taken if it is one. -/
structure World.Accounts (w : World) (alive : Nat) : Prop where
  le_one : alive ≤ 1
  leased_iff : w.leased = true ↔ alive = 1

namespace World
variable {w w' : World} {alive : Nat}

theorem Accounts.of_leased_eq (h : w.Accounts alive) (same : w'.leased = w.leased) : w'.Accounts alive :=
  ⟨h.le_one, same ▸ h.leased_iff⟩

theorem Accounts.eq_zero (h : w.Accounts alive) (free : w.leased = false) : alive = 0 := by
  have none : alive ≠ 1 := fun one => absurd (h.leased_iff.2 one) (by simp [free])
  have := h.le_one
  omega

theorem accounts_one (leased : w.leased = true) : w.Accounts 1 := ⟨le_rfl, by simp [leased]⟩

theorem accounts_zero (free : w.leased = false) : w.Accounts 0 := ⟨Nat.zero_le 1, by simp [free]⟩

end World

/-- A solver is refused if the lease is taken. Otherwise the lease is taken with it, and given back if no process
comes up. -/
theorem Solver.acquire_lease (config : Config) (w : World) :
    (w.leased = true ∧ acquire config w = (.error .busy, w)) ∨
      w.leased = false ∧ ((∃ σ w', acquire config w = (.ok σ, w') ∧ w'.leased = true) ∨
        ∃ f w', acquire config w = (.error f, w') ∧ w'.leased = false ∧ f ≠ .busy) := by
  have seen : Talk.world w = (.ok w, w) := rfl
  rw [acquire, run_bind_ok seen]
  split
  · rename_i leased
    exact .inl ⟨leased, rfl⟩
  rename_i free
  refine .inr ⟨by simpa using free, ?_⟩
  let w₁ : World := { w with leased := true }
  have taken : Talk.update (fun w => { w with leased := true }) w = (.ok (), w₁) := rfl
  have launched := Talk.launch_run config w₁
  dsimp only
  rw [run_bind_ok taken]
  rcases run : Talk.launch config w₁ with ⟨f | p, w₂⟩ <;> rw [run] at launched
  · obtain ⟨cause, rfl⟩ := launched.error_eq f rfl
    exact .inr ⟨_, { w₂ with leased := false }, run_bind_error (run_tryCatch_error run), rfl, by simp⟩
  · exact .inl ⟨_, w₂, run_bind_ok (run_tryCatch_ok run), launched.lasts.leased_eq⟩

theorem Solver.acquire_busy_iff (config : Config) (w : World) :
    (acquire config w).1 = .error .busy ↔ w.leased = true := by
  rcases acquire_lease config w with ⟨leased, run⟩ | ⟨free, ⟨σ, w', run, -⟩ | ⟨f, w', run, -, other⟩⟩ <;> rw [run]
  · simp [leased]
  · simp [free]
  · simpa [free] using other

namespace Inquiry
variable {α : Type} {others : Nat} {s : Situation}

/-- With so many solvers alive elsewhere the account stays right, and only for them a solver is refused. -/
def Exact (others : Nat) (x : Inquiry α) : Prop :=
  ∀ s : Situation, s.world.Accounts (others + s.engine.solver.toList.length) →
    (x s).2.world.Accounts (others + (x s).2.engine.solver.toList.length) ∧
      ((x s).1 = .error .busy → others = 1)

theorem exact_stepwise : Stepwise Inquiry (Exact others) where
  pure a s hs := ⟨hs, by rintro ⟨⟩⟩
  bind {_ _ x _} hx hf s hs := by
    obtain ⟨accounts, busy⟩ := hx s hs
    rcases run : x s with ⟨f | a, t⟩ <;> rw [run] at accounts busy
    · rw [run_bind_error run]
      exact ⟨accounts, fun failed => busy (by cases failed; rfl)⟩
    · rw [run_bind_ok run]
      exact hf a t accounts

theorem exact_ofTalk {t : Talk α} (lasts : ∀ w, (t w).2.leased = w.leased) (other : ∀ w, (t w).1 ≠ .error .busy) :
    Exact others (ofTalk t) :=
  fun s hs => ⟨hs.of_leased_eq (lasts s.world), fun busy => absurd busy (other s.world)⟩

/-- A solver is started only while none is alive, and one that does not come to hold the facts is given up. -/
theorem start_lease (s : Situation) :
    (∃ σ w, start s = (.ok σ, ⟨w, s.engine⟩) ∧ s.world.leased = false ∧ w.leased = true) ∨
      ∃ f w, start s = (.error f, ⟨w, s.engine⟩) ∧ w.leased = s.world.leased ∧
        (f = .busy ↔ s.world.leased = true) := by
  have own : engine s = (.ok s.engine, s) := rfl
  rw [start, run_bind_ok own]
  rcases Solver.acquire_lease s.engine.config s.world with
    ⟨leased, run⟩ | ⟨free, ⟨σ, w, run, leased⟩ | ⟨f, w, run, given, other⟩⟩
  · exact .inr ⟨_, _, run_bind_error (lift_run run), rfl, by simp [leased]⟩
  · rw [run_bind_ok (lift_run run)]
    rcases loaded : Dialogue.load s.engine ⟨w, σ⟩ with ⟨f | _, t⟩ <;>
      rw [run_bind_ok (converse_run (s := ⟨w, s.engine⟩) loaded)]
    · have other : f ≠ .busy := Dialogue.through_unleased.load s.engine _ f t loaded
      exact .inr ⟨f, { t.world with leased := false }, rfl, free.symm, by simpa [free] using other⟩
    · have kept := ((Dialogue.through_lasts.load s.engine).run loaded).leased_eq
      exact .inl ⟨t.solver, t.world, rfl, free, kept.trans leased⟩
  · exact .inr ⟨f, w, run_bind_error (lift_run run), given.trans free.symm, by simpa [free] using other⟩

/-- An engine that has no solver starts one only if none is alive, and is refused for the lease exactly if one is. -/
theorem start_accounts (hs : s.world.Accounts others) :
    (∃ σ w, start s = (.ok σ, ⟨w, s.engine⟩) ∧ others = 0 ∧ w.leased = true) ∨
      ∃ f w, start s = (.error f, ⟨w, s.engine⟩) ∧ w.Accounts others ∧ (f = .busy ↔ others = 1) := by
  rcases start_lease s with ⟨σ, w, run, free, leased⟩ | ⟨f, w, run, same, busy⟩
  · exact .inl ⟨σ, w, run, hs.eq_zero free, leased⟩
  · exact .inr ⟨f, w, run, hs.of_leased_eq same, busy.trans hs.leased_iff⟩

theorem exact_withSolver {d : Dialogue α} (lasts : Keeps Session.Lasts d) (other : Fails (· ≠ .busy) d) :
    Exact others (withSolver d) := by
  intro s hs
  have refused (t : Session) (busy : (d t).1 = .error .busy) : others = 1 :=
    absurd rfl (other t _ _ (Prod.ext busy rfl))
  cases held : s.engine.solver with
  | some σ =>
    rw [held] at hs
    rw [withSolver_of_some (d := d) held rfl]
    exact ⟨hs.of_leased_eq (lasts ⟨s.world, σ⟩).leased_eq, refused ⟨s.world, σ⟩⟩
  | none =>
    rw [held] at hs
    rcases start_accounts hs with ⟨σ, w, run, rfl, leased⟩ | ⟨f, w, run, accounts, busy⟩
    · rw [withSolver_of_none (d := d) (t := ⟨w, σ⟩) held run rfl]
      exact ⟨World.accounts_one ((lasts ⟨w, σ⟩).leased_eq.trans leased), refused ⟨w, σ⟩⟩
    · rw [withSolver_of_failure held run]
      exact ⟨by simpa [held] using accounts, fun failed => busy.1 (by cases failed; rfl)⟩

/-- A check of consistency keeps the account, and is refused for the lease exactly if a solver is alive elsewhere. -/
theorem checkConsistency_lease (hs : s.world.Accounts (others + s.engine.solver.toList.length)) :
    (checkConsistency s).2.world.Accounts (others + (checkConsistency s).2.engine.solver.toList.length) ∧
      ((checkConsistency s).1 = .error .busy ↔ others = 1) := by
  have own : engine s = (.ok s.engine, s) := rfl
  rw [checkConsistency, run_bind_ok own]
  cases held : s.engine.solver with
  | some σ =>
    refine ⟨hs, by rintro ⟨⟩, fun one => ?_⟩
    have le_one := hs.le_one
    simp [held, one] at le_one
  | none =>
    rw [held] at hs
    rw [if_pos (by rfl)]
    rcases start_accounts hs with ⟨σ, w, run, rfl, leased⟩ | ⟨f, w, run, accounts, busy⟩
    · rw [run_bind_ok run]
      exact ⟨World.accounts_one leased, by rintro ⟨⟩, by simp⟩
    · rw [run_bind_error run]
      exact ⟨by simpa [held] using accounts, by simpa using busy⟩

theorem exact_checkConsistency : Exact others checkConsistency :=
  fun _ hs => (checkConsistency_lease hs).imp id Iff.mp

theorem close_lease (hs : s.world.Accounts (others + s.engine.solver.toList.length)) :
    ∃ w, close s = (.ok (), ⟨w, { s.engine with solver := none }⟩) ∧ w.Accounts others := by
  have own : engine s = (.ok s.engine, s) := rfl
  rw [close, run_bind_ok own]
  obtain ⟨w, e⟩ := s
  obtain ⟨subject, config, capture, classes, facts, solver⟩ := e
  cases solver with
  | some σ =>
    obtain rfl : others = 0 := by simpa using hs.le_one
    exact ⟨{ w with leased := false }, rfl, World.accounts_zero rfl⟩
  | none => exact ⟨w, rfl, hs⟩

theorem exact_close : Exact others close := by
  intro s hs
  obtain ⟨w, run, accounts⟩ := close_lease hs
  rw [run]
  exact ⟨accounts, by rintro ⟨⟩⟩

theorem exact_recalculate : Exact others recalculate := by
  intro s hs
  obtain ⟨w, closed, accounts⟩ := close_lease hs
  have own (s : Situation) : engine s = (.ok s.engine, s) := rfl
  rw [recalculate, run_bind_ok closed, run_bind_ok (own _)]
  rcases run : Engine.ofSubject s.engine.subject s.engine.config w.notices with ⟨f | e, ns⟩
  · rw [run_bind_error (lift_run (Talk.ofNoted_run run))]
    exact ⟨accounts.of_leased_eq rfl, by rintro ⟨⟩⟩
  · rw [run_bind_ok (lift_run (Talk.ofNoted_run run))]
    -- The engine that takes the place of the old one has no solver, and the old one has none any more.
    obtain ⟨-, -, none, -⟩ := Engine.ofSubject_eq_ok run
    have replaced (s : Situation) : setEngine (fun _ => e) s = (.ok (), ⟨s.world, e⟩) := rfl
    rw [run_bind_ok (replaced _)]
    have fresh : World.Accounts { w with notices := ns } (others + e.solver.toList.length) := by
      rw [none]
      exact accounts.of_leased_eq rfl
    exact exact_checkConsistency ⟨{ w with notices := ns }, e⟩ fresh

theorem asks_exact : Asks (Exact others) where
  toStepwise := exact_stepwise
  engine _ hs := ⟨hs, by rintro ⟨⟩⟩
  world := exact_ofTalk (fun _ => rfl) fun _ => by rintro ⟨⟩
  noted x := by
    refine exact_ofTalk (fun _ => rfl) fun w failed => ?_
    rcases run : x w.notices with ⟨f | a, ns⟩ <;> rw [Talk.ofNoted_run run] at failed <;> cases failed
  checked x := by
    refine exact_ofTalk (fun _ => rfl) fun w failed => ?_
    cases x <;> cases failed
  mismatch _ _ := exact_ofTalk (fun _ => rfl) fun _ => by rintro ⟨⟩
  decides facts c question :=
    exact_withSolver (Dialogue.through_lasts.decideClause facts c question)
      (Dialogue.through_unleased.decideClause facts c question)

theorem exact_identifyConstants : Exact others identifyConstants := by
  refine asks_exact.bind asks_exact.engine fun e => ?_
  refine asks_exact.bind (asks_exact.mapM fun v _ => asks_exact.map (asks_exact.checked _) _) fun candidates => ?_
  refine asks_exact.bind (exact_withSolver (Dialogue.through_lasts.constants candidates)
    (Dialogue.through_unleased.constants candidates)) fun confirmed => ?_
  refine asks_exact.bind (asks_exact.noted _) fun classes => ?_
  have kept : Exact others (setEngine fun e => { e with classes }) := fun s hs => ⟨hs, by rintro ⟨⟩⟩
  exact asks_exact.bind kept fun _ => asks_exact.map asks_exact.engine _

/-- Whatever an engine is asked, the account stays right. -/
theorem Operation.exact {x : Inquiry α} (op : Operation x) (others : Nat) : Exact others x := by
  cases op with
  | provable c => exact asks_exact.provable c
  | satisfiable c => exact asks_exact.satisfiable c
  | provableOf pred stack₁ v₁ stack₂ v₂ => exact asks_exact.provableOf pred stack₁ v₁ stack₂ v₂
  | satisfiableOf pred stack₁ v₁ stack₂ v₂ => exact asks_exact.satisfiableOf pred stack₁ v₁ stack₂ v₂
  | identifyConstants => exact exact_identifyConstants
  | checkConsistency => exact exact_checkConsistency
  | recalculate => exact exact_recalculate
  | close => exact exact_close

end Inquiry

/-- Solvers and engines in one world. -/
structure Population where
  world : World
  /-- Solvers that no engine has. -/
  solvers : List Solver := []
  engines : List Engine := []

namespace Population

/-- All solvers there are. -/
def alive (p : Population) : List Solver := p.solvers ++ p.engines.flatMap (·.solver.toList)

/-- What can happen to solvers and engines. An engine is asked through its operations only; what is given up takes
its solver along. -/
inductive Step : Population → Population → Prop
  | acquired {w w' : World} {solvers : List Solver} {engines : List Engine} {config : Config} {σ : Solver}
      (run : Solver.acquire config w = (.ok σ, w')) : Step ⟨w, solvers, engines⟩ ⟨w', σ :: solvers, engines⟩
  | refused {w w' : World} {solvers : List Solver} {engines : List Engine} {config : Config} {f : Failure}
      (run : Solver.acquire config w = (.error f, w')) : Step ⟨w, solvers, engines⟩ ⟨w', solvers, engines⟩
  | moved {w : World} {before after : List Solver} {engines : List Engine} {σ : Solver} (m : Solver.Move) :
      Step ⟨w, before ++ σ :: after, engines⟩
        ⟨(m.after ⟨w, σ⟩).world, before ++ (m.after ⟨w, σ⟩).solver :: after, engines⟩
  | released {w : World} {before after : List Solver} {engines : List Engine} {σ : Solver} :
      Step ⟨w, before ++ σ :: after, engines⟩ ⟨(Solver.release w).2, before ++ after, engines⟩
  | made {w : World} {solvers : List Solver} {engines : List Engine} {subject : Subject} {config : Config}
      {e : Engine} {ns : List Notice} (run : Engine.ofSubject subject config w.notices = (.ok e, ns)) :
      Step ⟨w, solvers, engines⟩ ⟨{ w with notices := ns }, solvers, e :: engines⟩
  | faulted {w : World} {solvers : List Solver} {engines : List Engine} {subject : Subject} {config : Config}
      {f : Fault} {ns : List Notice} (run : Engine.ofSubject subject config w.notices = (.error f, ns)) :
      Step ⟨w, solvers, engines⟩ ⟨{ w with notices := ns }, solvers, engines⟩
  | asked {w : World} {solvers : List Solver} {before after : List Engine} {e : Engine} {α : Type} {x : Inquiry α}
      (op : Inquiry.Operation x) : Step ⟨w, solvers, before ++ e :: after⟩
        ⟨(x ⟨w, e⟩).2.world, solvers, before ++ (x ⟨w, e⟩).2.engine :: after⟩
  | dropped {w : World} {solvers : List Solver} {before after : List Engine} {e : Engine} :
      Step ⟨w, solvers, before ++ e :: after⟩ ⟨(Inquiry.close ⟨w, e⟩).2.world, solvers, before ++ after⟩
  /-- Programs and files come and go, and debugging is turned on and off. -/
  | elsewhere {w w' : World} {solvers : List Solver} {engines : List Engine} (same : w'.leased = w.leased) :
      Step ⟨w, solvers, engines⟩ ⟨w', solvers, engines⟩

variable {p q : Population} {w : World} {solvers : List Solver} {before after : List Engine} {e : Engine}

/-- The solvers that are alive are the engine's own and those that are alive without it. -/
theorem length_alive_engine : (alive ⟨w, solvers, before ++ e :: after⟩).length =
    (alive ⟨w, solvers, before ++ after⟩).length + e.solver.toList.length := by
  simp only [alive, List.flatMap_append, List.flatMap_cons, List.length_append]
  omega

theorem length_alive_solver {before after : List Solver} {engines : List Engine} {σ : Solver} :
    (alive ⟨w, before ++ σ :: after, engines⟩).length = (alive ⟨w, before ++ after, engines⟩).length + 1 := by
  simp only [alive, List.length_append, List.length_cons]
  omega

/-- One step keeps the account: what it adds to the solvers or takes from them it takes from the lease. -/
theorem Step.accounts (step : Step p q) (accounts : p.world.Accounts p.alive.length) :
    q.world.Accounts q.alive.length := by
  cases step with
  | @acquired w w' solvers engines config σ run =>
    rcases Solver.acquire_lease config w with ⟨-, busy⟩ | ⟨free, ⟨σ', w'', taken, leased⟩ | ⟨f, w'', failed, -⟩⟩
    · cases run.symm.trans busy
    · cases run.symm.trans taken
      have none : (alive ⟨w', solvers, engines⟩).length = 0 := accounts.eq_zero free
      have one : (alive ⟨w', σ :: solvers, engines⟩).length = 1 := by simpa [alive] using none
      rw [one]
      exact World.accounts_one leased
    · cases run.symm.trans failed
  | @refused w w' solvers engines config f run =>
    rcases Solver.acquire_lease config w with ⟨-, busy⟩ | ⟨free, ⟨σ', w'', taken, -⟩ | ⟨f, w'', failed, given, -⟩⟩
    · cases run.symm.trans busy
      exact accounts
    · cases run.symm.trans taken
    · cases run.symm.trans failed
      exact accounts.of_leased_eq (given.trans free.symm)
  | @moved w before after engines σ m =>
    rw [length_alive_solver] at accounts ⊢
    exact accounts.of_leased_eq (m.leased_after ⟨w, σ⟩)
  | @released w before after engines σ =>
    rw [length_alive_solver] at accounts
    have none : (alive ⟨(Solver.release w).2, before ++ after, engines⟩).length = 0 := by
      simpa [alive] using accounts.le_one
    rw [none]
    exact World.accounts_zero rfl
  | @made w solvers engines subject config e ns run =>
    obtain ⟨-, -, none, -⟩ := Engine.ofSubject_eq_ok run
    have same : (alive ⟨{ w with notices := ns }, solvers, e :: engines⟩).length =
        (alive ⟨w, solvers, engines⟩).length := by simp [alive, none]
    rw [same]
    exact accounts.of_leased_eq rfl
  | faulted run => exact accounts.of_leased_eq rfl
  | @asked w solvers before after e α x op =>
    rw [length_alive_engine] at accounts ⊢
    exact (op.exact _ ⟨w, e⟩ accounts).1
  | @dropped w solvers before after e =>
    rw [length_alive_engine] at accounts
    obtain ⟨w', run, left⟩ := Inquiry.close_lease (s := ⟨w, e⟩) accounts
    rw [run]
    exact left
  | elsewhere same => exact accounts.of_leased_eq same

theorem accounts_run (accounts : p.world.Accounts p.alive.length) (run : Relation.ReflTransGen Step p q) :
    q.world.Accounts q.alive.length := by
  induction run with
  | refl => exact accounts
  | tail _ step ih => exact step.accounts ih

/-- From a world without solvers, whatever happens: there is at most one solver, the lease is taken exactly while
there is one, and exactly then a solver is refused for it, to an engine only if it is not its own. -/
theorem lease_exact (free : w.leased = false) (run : Relation.ReflTransGen Step { world := w } p) :
    p.alive.length ≤ 1 ∧ (p.world.leased = true ↔ p.alive.length = 1) ∧
      (∀ config, (Solver.acquire config p.world).1 = .error .busy ↔ p.alive.length = 1) ∧
      ∀ before e after, p.engines = before ++ e :: after →
        ((Inquiry.checkConsistency ⟨p.world, e⟩).1 = .error .busy ↔
          (alive { p with engines := before ++ after }).length = 1) ∧
        ∀ (α : Type) (x : Inquiry α), Inquiry.Operation x → (x ⟨p.world, e⟩).1 = .error .busy →
          (alive { p with engines := before ++ after }).length = 1 := by
  have accounts : p.world.Accounts p.alive.length := accounts_run (World.accounts_zero free) run
  refine ⟨accounts.le_one, accounts.leased_iff, fun config => ?_, fun before e after split => ?_⟩
  · rw [Solver.acquire_busy_iff, accounts.leased_iff]
  · obtain ⟨w', solvers, engines⟩ := p
    subst split
    rw [length_alive_engine] at accounts
    have checked := Inquiry.checkConsistency_lease (s := ⟨w', e⟩) accounts
    refine ⟨checked.2, fun α x op busy => ?_⟩
    exact (op.exact _ ⟨w', e⟩ accounts).2 busy

/-- Of two engines one has a solver. A solver is then refused, which leaves the engine its own, to which the
other engine does not come. -/
theorem lease_exact_twoInputs :
    let idle := Engine.bare .twoInputs [0, 1]
    let holder : Engine := { idle with solver := some (.idle { disable := true }) }
    ∃ p : Population, Relation.ReflTransGen Step { world := { host := .denying } } p ∧
      p.engines = [idle, holder] ∧ p.world.leased = true ∧ p.alive = [.idle { disable := true }] ∧
      (∀ config, (Solver.acquire config p.world).1 = .error .busy) ∧
      (Inquiry.checkConsistency ⟨p.world, idle⟩).1 = .error .busy := by
  intro idle holder
  let world : World := { host := .denying, history := Host.opening, leased := true }
  let p : Population := ⟨world, [], [idle, holder]⟩
  have started : Inquiry.checkConsistency ⟨{ host := .denying }, idle⟩ = (.ok (), ⟨world, holder⟩) := by
    have own : Inquiry.engine ⟨{ host := .denying }, idle⟩ = (.ok idle, ⟨{ host := .denying }, idle⟩) := rfl
    have loaded : Inquiry.start ⟨{ host := .denying }, idle⟩ = (.ok (.idle { disable := true }), ⟨world, idle⟩) :=
      Inquiry.start_denying rfl rfl rfl
    rw [Inquiry.checkConsistency, run_bind_ok own, if_pos (by rfl), run_bind_ok loaded]
    rfl
  have run : Relation.ReflTransGen Step { world := { host := .denying } } p := by
    refine .trans (.single (.made Engine.ofSubject_twoInputs)) ?_
    refine .trans (.single (.made Engine.ofSubject_twoInputs)) ?_
    have asked := @Step.asked { host := .denying } [] [idle] [] idle Unit _ .checkConsistency
    rw [started] at asked
    refine .trans (.single asked) ?_
    have refused : Solver.acquire {} world = (.error .busy, world) := rfl
    exact .single (.refused refused)
  obtain ⟨-, leased, refused, engines⟩ := lease_exact rfl run
  refine ⟨p, run, rfl, leased.2 rfl, rfl, fun config => (refused config).2 rfl, ?_⟩
  exact (engines [] idle [holder] rfl).1.2 rfl

end Population

end SsaFacts
