import SsaFacts.Proofs.Discovery

/-! What is left of a question. If scopes are opened and closed when they are asked for, a solver that is
held has one level open after every question, however it ended, and there it was told of the facts and of
nothing else. -/
namespace SsaFacts

open Smt

/-- Between two questions an engine holds no solver, or one with a single open level. The names of that
level are those of the facts, and they are the names that the solver takes to be declared; what is asserted
there is what starting the solver asserts, the latest first. Other commands may be refused, and checks and
models may be answered by anything. -/
theorem Situation.Reachable.solver_grounded {s : Situation} (reachable : s.Reachable)
    (granted : s.world.host.GrantsScopes) :
    s.engine.solver = none ∨ ∃ σ level, s.engine.solver = some σ ∧
      levels σ.process s.world.history = [level] ∧ σ.scopes = [level.declared.map Prod.fst] ∧
      σ.declared = level.declared.map Prod.fst ∧
      (∀ n, n ∈ σ.declared ↔ ∃ c ∈ s.engine.facts, ∃ l ∈ c.leaves, l.solverName = n) ∧
      level.asserted = (s.engine.facts.flatMap (Clause.formulas s.engine.config.guards)).reverse := by
  cases held : s.engine.solver with
  | none => exact .inl rfl
  | some σ =>
    obtain ⟨config, holds⟩ := reachable.coherent.holds σ held
    obtain ⟨ns, ground, names⟩ := holds.grounded granted
    obtain ⟨ds, rfl, levels⟩ := ground.levels_eq
    refine .inr ⟨σ, _, rfl, levels, ground.scopes_eq, ground.declared_eq, fun n => ?_, ?_⟩
    · exact (iff_of_eq (congrArg (n ∈ ·) ground.declared_eq)).trans (names n)
    · rw [← config]

/-- Answers as `Host.offset` does, but refuses to assert that something does not hold. -/
def Host.affirmative : Host :=
  { Host.offset with
    reply := fun history process c =>
      match c with
      | .assert (.not _) => .list [.atom "error"]
      | c => Host.offset.reply history process c }

theorem Inquiry.start_affirmative : start ⟨{ host := .affirmative }, .offset⟩ =
    (.ok .offset, ⟨{ host := .affirmative, history := Host.talk.drop 6, leased := true }, .offset⟩) := by
  with_unfolding_all rfl

theorem Situation.Reachable.solver_grounded_affirmative :
    ∃ f s σ level, Inquiry.identifyConstants ⟨{ host := .affirmative }, .offset⟩ = (.error f, s) ∧
      s.engine.solver = some σ ∧ levels σ.process s.world.history = [level] ∧
      (∀ n, n ∈ σ.declared ↔ ∃ c ∈ Engine.offset.facts, ∃ l ∈ c.leaves, l.solverName = n) ∧
      level.asserted = [.offset] := by
  let first : Situation := ⟨{ host := .affirmative }, .offset⟩
  let refused : List Entry := .sent 0 .pop ::
    .sent 0 (.assert (.not (.rel .eq (.name "x2") (.const (.ofInt 32 4))))) :: Host.talk.drop 3
  let world (history : List Entry) : World := { host := .affirmative, history, leased := true }
  let solver : Solver := { config := {}, process := 0, declared := ["x2"], scopes := [["x2"]] }
  let last : Situation := ⟨world refused, { Engine.offset with solver := some solver }⟩
  let failure : Failure := .error (.process (.unexpectedReply (Sexp.text (.list [.atom "error"]))))
  have checked : Dialogue.check ⟨world (Host.talk.drop 6), solver⟩ =
      (.ok .sat, ⟨world (Host.talk.drop 5), solver⟩) := rfl
  have valued : Dialogue.modelValues [.result 2 32] ⟨world (Host.talk.drop 5), solver⟩ =
      (.ok [.ofInt 32 4], ⟨world (Host.talk.drop 4), solver⟩) := by
    with_unfolding_all rfl
  have failed : Dialogue.inScope (Dialogue.refute ⟨2, .result 2 32, .ofInt 32 4⟩ [])
      ⟨world (Host.talk.drop 4), solver⟩ = (.error failure, ⟨world refused, solver⟩) := rfl
  have answered : Dialogue.constants [(2, .result 2 32)] ⟨world (Host.talk.drop 6), solver⟩ =
      (.error failure, ⟨world refused, solver⟩) := by
    rw [Dialogue.constants, run_bind_ok checked]
    exact (run_bind_ok valued).trans (run_bind_error failed)
  have own : Inquiry.engine first = (.ok .offset, first) := rfl
  have held : Inquiry.withSolver (Dialogue.constants [(2, .result 2 32)]) first = (.error failure, last) :=
    Inquiry.withSolver_of_none rfl Inquiry.start_affirmative answered
  have run : Inquiry.identifyConstants first = (.error failure, last) := by
    have read : (Engine.offset.candidates.mapM fun v =>
        return (v, ← Talk.ofChecked (Engine.offset.program.leaf v)) : Inquiry _) first =
          (.ok [(2, .result 2 32)], first) := rfl
    rw [Inquiry.identifyConstants, run_bind_ok own, run_bind_ok read, run_bind_error held]
  have reachable : last.Reachable := by
    have asked := Reachable.asked (.made _ Engine.ofSubject_offset) .identifyConstants (s := first)
    rwa [run] at asked
  rcases reachable.solver_grounded ⟨fun _ _ => rfl, fun _ _ => rfl⟩ with
    none | ⟨σ, level, some, one, -, -, names, asserted⟩
  · cases none
  · exact ⟨failure, last, σ, level, run, some, one, names, asserted⟩

end SsaFacts
