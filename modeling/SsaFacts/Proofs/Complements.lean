import SsaFacts.Proofs.Surveys
import SsaFacts.Proofs.Verdicts

/-! Whether a clause can hold is whether its negation is not always true. The two answers part only where
the clause is true as it stands and the facts of the question contradict each other: then the clause is
taken to be possible without asking, while its negation follows from the facts. -/
namespace SsaFacts

open Smt

/-- The negation of a clause that is true as it stands is not taken to be true. -/
theorem Clause.simplify_not_tautology {c : Clause} (h : c.isTautology) :
    (Clause.not c).simplify ≠ .ok (some true) := by
  cases c with
  | not c | and a b | or a b | xor a b => cases h
  | atom pred l r =>
    obtain ⟨reflexive, rfl⟩ : pred.isReflexive = true ∧ l = r := by simpa [isTautology] using h
    intro simplified
    obtain ⟨o, known, negated⟩ := Checked.bind_eq_ok.1 simplified
    obtain ⟨x, folded, known⟩ := Checked.bind_eq_ok.1 known
    obtain ⟨y, folded', known⟩ := Checked.bind_eq_ok.1 known
    cases folded.symm.trans folded'
    have isTrue : o = some true := by
      cases x with
      | literal k =>
        obtain ⟨b, evaluated, same⟩ := Checked.bind_eq_ok.1 known
        rw [Predicate.eval_self evaluated, reflexive] at same
        exact (Except.ok.inj same).symm
      | leaf l | unary op e | binary op a b =>
        rw [if_pos rfl, reflexive] at known
        exact (Except.ok.inj known).symm
    subst isTrue
    cases negated

/-- A clause is satisfiable if it is true as it stands or its negation cannot be shown. -/
theorem Inquiry.satisfiable_eq_ok {s s' : Situation} {c : Clause} {a : Bool}
    (run : satisfiable c s = (.ok a, s')) :
    (s.engine.classes.canonical c).isTautology ∧ a = true ∧ s' = s ∨
      ∃ b, provable (.not c) s = (.ok b, s') ∧ a = !b := by
  have own : engine s = (.ok s.engine, s) := rfl
  rw [satisfiable, run_bind_ok own] at run
  by_cases tautology : (s.engine.classes.canonical c).isTautology
  · rw [if_pos tautology] at run
    cases run
    exact .inl ⟨tautology, rfl, rfl⟩
  · rw [if_neg tautology] at run
    obtain ⟨b, t, answered, same⟩ := run_bind_eq_ok run
    cases same
    exact .inr ⟨b, answered, rfl⟩

/-- A clause that is not true as it stands can hold if its negation cannot be shown. -/
theorem Inquiry.satisfiable_asks {s s' : Situation} {c : Clause} {r : Except Failure Bool}
    (plain : (s.engine.classes.canonical c).isTautology = false) (run : provable (.not c) s = (r, s')) :
    satisfiable c s = (r.map (!·), s') := by
  have own : engine s = (.ok s.engine, s) := rfl
  rw [satisfiable, run_bind_ok own, if_neg (by simp [plain])]
  cases r with
  | error f => exact run_bind_error run
  | ok b => exact run_bind_ok run

/-- Let an engine be asked whether a clause can hold, and an engine that differs in its solver at most,
such as the same one later, whether the negation always holds. If no check is answered falsely then the two
answers are opposite, or the clause is true as it stands and no assignment meets the facts, those realized
for the clause and its side conditions together. -/
theorem Inquiry.satisfiable_complements {s s' t t' : Situation} {c : Clause} {a b : Bool} (hs : s.Reachable)
    (ht : t.Reachable) (akin : s.engine.Akin t.engine) (grants : s.world.host.GrantsScopes)
    (grants' : t.world.host.GrantsScopes) (run : satisfiable c s = (.ok a, s'))
    (run' : provable (.not c) t = (.ok b, t')) (sincere : s'.world.Sincere) (sincere' : t'.world.Sincere) :
    a = !b ∨ (s.engine.classes.canonical c).isTautology ∧ a = true ∧ b = true ∧
      ∃ facts ns ns', s.engine.realized c ns = (.ok facts, ns') ∧
        ¬∃ ν : Assignment, ν.Satisfies s.engine.config.guards
          (s.engine.facts ++ facts ++ [.not (.not (s.engine.classes.canonical c))]) := by
  rcases satisfiable_eq_ok run with ⟨tautology, rfl, rfl⟩ | ⟨d, answered, rfl⟩
  · cases b with
    | false => exact .inl rfl
    | true =>
      have classes : t.engine.classes = s'.engine.classes := by rw [akin]
      have config : t.engine.config = s'.engine.config := by rw [akin]
      have known : t.engine.facts = s'.engine.facts := by rw [akin]
      -- the negation has the leaves of the clause, so the same facts are realized for it
      have realize : t.engine.realized (.not c) = s'.engine.realized c := by
        rw [akin]
        rfl
      have answer := provable_cases ht.coherent run'
      rw [classes, config, known, realize] at answer
      rcases answer with ⟨-, reflexive | simplify, -⟩ |
        ⟨-, -, facts, ns, u, u', realized, -, configured, holds, decided, world⟩
      · cases reflexive
      · exact absurd simplify (Clause.simplify_not_tautology tautology)
      · have none := Dialogue.no_model_of_decideClause holds decided (world ▸ sincere')
        rw [configured] at none
        exact .inr ⟨tautology, rfl, rfl, facts, _, _, realized, none⟩
  · exact .inl (congrArg _ (provable_agree hs ht akin grants grants' answered run' sincere sincere'))

def Clause.inputFive : Clause := .atom .eq (.result 2 32) (.ofInt 32 5)

/-- What is said when it is asked whether the input can be 5, latest first. -/
def Host.inputFive : List Entry := [.sent 0 .pop, .sent 0 .checkSat,
  .sent 0 (.assert (.not (.not (.rel .eq (.name "x2") (.const (.ofInt 32 5)))))), .sent 0 .push]

theorem Host.sincere_inputFive : Host.offset.Sincere (inputFive ++ (inputFive ++ talk.drop 6)) := by
  let denied : Level := { asserted := [.not (.not (.rel .eq (.name "x2") (.const (.ofInt 32 5))))] }
  let four : Assignment := ⟨fun _ => ⟨32, 4#32⟩, fun _ => by decide⟩
  have loaded : HasModel [.offset] := ⟨four, Assignment.models_offset.2 rfl⟩
  have departed : ¬HasModel [denied, .offset] := by
    rintro ⟨ν, h⟩
    have value := Assignment.models_offset.1 fun l hl => h l (List.mem_cons_of_mem _ hl)
    have departs := (h _ List.mem_cons_self).eval_eq _ List.mem_cons_self
    simp only [Formula.eval, Term.eval, value] at departs
    exact absurd departs (by decide)
  intro before process asked
  simp [inputFive, talk, List.suffix_cons_iff] at asked
  rcases asked with ⟨rfl, rfl⟩ | ⟨rfl, rfl⟩ | ⟨rfl, rfl⟩
  · exact ⟨fun sat => absurd sat (by simp [offset]), fun _ => departed⟩
  · exact ⟨fun sat => absurd sat (by simp [offset]), fun _ => departed⟩
  · have sat : offset.reply (talk.drop 7) 0 .checkSat = .atom "sat" := rfl
    exact ⟨fun _ => loaded, fun unsat => absurd (sat.symm.trans unsat) (by simp)⟩

theorem Engine.realized_inputFive : offset.realized (.not .inputFive) [] = (.ok [], []) := by
  have planned (isFixed : ValueId → Bool) :
      Subject.offset.leafNeeds isFixed (Subject.offset.program.plainLeaf 2) =
        [⟨.branches 0, 0⟩, ⟨.exits 0, 0⟩] := by cbv
  have needed : offset.subject.needs (offset.capture.isFixed offset.subject.program)
      (.not .inputFive) = [⟨.branches 0, 0⟩, ⟨.exits 0, 0⟩] := (List.append_nil _).trans (planned _)
  rw [Engine.realized, Subject.realize_eq, needed]
  with_unfolding_all rfl

theorem Dialogue.decideClause_inputFive (history : List Entry) :
    decideClause [] (.not .inputFive) (.not .inputFive) ⟨{ host := .offset, history, leased := true }, .offset⟩ =
      (.ok true, ⟨{ host := .offset, history := Host.inputFive ++ history, leased := true }, .offset⟩) := by
  with_unfolding_all rfl

theorem Inquiry.satisfiable_complements_offset :
    ∃ s s', satisfiable .inputFive ⟨{ host := .offset }, .offset⟩ = (.ok false, s) ∧
      provable (.not .inputFive) s = (.ok true, s') ∧ s'.world.Sincere ∧
      (false = !true ∨ (Engine.offset.classes.canonical .inputFive).isTautology ∧ false = true ∧ true = true ∧
        ∃ facts ns ns', Engine.offset.realized .inputFive ns = (.ok facts, ns') ∧
          ¬∃ ν : Assignment, ν.Satisfies {} (Engine.offset.facts ++ facts ++
            [.not (.not (Engine.offset.classes.canonical .inputFive))])) := by
  let world (history : List Entry) : World := { host := .offset, history, leased := true }
  let solver : Solver := .offset
  let first : Situation := ⟨{ host := .offset }, .offset⟩
  let engine : Engine := { Engine.offset with solver := some solver }
  let once : Situation := ⟨world (Host.inputFive ++ Host.talk.drop 6), engine⟩
  let twice : Situation := ⟨world (Host.inputFive ++ (Host.inputFive ++ Host.talk.drop 6)), engine⟩
  have simplify : (Engine.offset.classes.canonical (.not .inputFive)).simplify = .ok none := rfl
  have denied : provable (.not .inputFive) first = (.ok true, once) := by
    rw [provable_asks (s := first) rfl rfl simplify (by simp) Engine.realized_inputFive]
    exact withSolver_of_none (t := ⟨_, solver⟩) rfl start_offset (Dialogue.decideClause_inputFive _)
  have run : satisfiable .inputFive first = (.ok false, once) := satisfiable_asks rfl denied
  have run' : provable (.not .inputFive) once = (.ok true, twice) := by
    rw [provable_asks (s := once) rfl rfl simplify (by simp) Engine.realized_inputFive]
    exact withSolver_of_some (s := once) rfl (Dialogue.decideClause_inputFive _)
  have made : first.Reachable := .made _ Engine.ofSubject_offset
  have asked : once.Reachable := by
    have asked := made.asked (.satisfiable .inputFive)
    rwa [run] at asked
  have later : once.world.Later twice.world := ⟨rfl, List.suffix_append _ _⟩
  have grants : Host.offset.GrantsScopes := ⟨fun _ _ => rfl, fun _ _ => rfl⟩
  have sincere : twice.world.Sincere := Host.sincere_inputFive
  exact ⟨once, twice, run, run', sincere,
    satisfiable_complements made asked rfl grants grants run run' (later.sincere sincere) sincere⟩

/-- The input is read where a parameter would have to be both true and false. -/
def Program.discordant : Program where
  values := #[{ ty := .int 1, kind := .param 0 0 }, { ty := .int 1, kind := .inst 2 (.call (.direct 1) []) }]
  blocks := #[
    { func := 0, name := "entry", term := .condBr 0 1 3 },
    { func := 0, name := "mid", term := .condBr 0 3 2 },
    { func := 0, name := "dead", insts := [1], term := .br 3 },
    { func := 0, name := "exit", term := .ret none }]
  functions := #[{ name := "main", params := [0], ret := .void, blocks := [0, 1, 2, 3] },
    { name := "input", params := [], ret := .int 1 }]

def Clause.inputItself : Clause := .atom .eq (.result 1 boolWidth) (.result 1 boolWidth)

def Clause.parameterIs (b : Bool) : Clause := .atom .eq (.result 0 boolWidth) (.literal (.bool b))

/-- What is said when it is asked whether the input differs from itself, latest first. -/
def Host.inputItself : List Entry := [.sent 0 .pop, .sent 0 .checkSat,
  .sent 0 (.assert (.not (.not (.rel .eq (.name "x1") (.name "x1"))))), .sent 0 (.declare "x1" 1),
  .sent 0 (.assert (.rel .eq (.name "x0") (.const (.bool true)))),
  .sent 0 (.assert (.rel .eq (.name "x0") (.const (.bool false)))), .sent 0 (.declare "x0" 1), .sent 0 .push]

theorem Smt.value_of_eval_eq {ν : Assignment} {n : String} {l : Literal}
    (h : (Formula.rel .eq (.name n) (.const l)).eval ν = some true) : ν.value n = l.vec := by
  rcases value : ν.value n with ⟨w, x⟩
  simp only [Formula.eval, Term.eval, value, Option.bind_some, Rel.truth?] at h
  split at h
  · rename_i width
    subst width
    have same : x = l.vec.fit l.vec.width := of_decide_eq_true (Option.some.inj h)
    rw [same, Vec.mk_fit rfl]
  · cases h

theorem Host.sincere_inputItself : Host.denying.Sincere (inputItself ++ opening) := by
  intro before process asked
  simp [inputItself, opening, List.suffix_cons_iff] at asked
  rcases asked with ⟨rfl, rfl⟩ | ⟨rfl, rfl⟩
  · refine ⟨fun sat => absurd sat (by simp [denying]), ?_⟩
    rintro - ⟨ν, h⟩
    have met := h _ List.mem_cons_self
    have isTrue := met.eval_eq (.rel .eq (.name "x0") (.const (.bool true))) (by simp)
    have isFalse := met.eval_eq (.rel .eq (.name "x0") (.const (.bool false))) (by simp)
    have same := (value_of_eval_eq isTrue).symm.trans (value_of_eval_eq isFalse)
    exact absurd (Literal.vec_injective same) (by decide)
  · have sat : denying.reply (opening.drop 1) 0 .checkSat = .atom "sat" := rfl
    exact ⟨fun _ => hasModel_empty, fun unsat => absurd (sat.symm.trans unsat) (by simp)⟩

/-- That the input equals itself is taken to be possible, and that it does not is shown to be always true. -/
theorem Inquiry.satisfiable_discordant : ∃ survey e s, Survey.ofProgram .discordant [] = .ok survey ∧
    Engine.ofSubject { program := .discordant, survey } {} [] = (.ok e, []) ∧
    satisfiable .inputItself ⟨{ host := .denying }, e⟩ = (.ok true, ⟨{ host := .denying }, e⟩) ∧
    provable (.not .inputItself) ⟨{ host := .denying }, e⟩ = (.ok true, s) ∧
    s.world.host.GrantsScopes ∧ s.world.Sincere := by
  have found : (Survey.ofProgram .discordant []).toOption.map (fun survey =>
      let s : Subject := { program := .discordant, survey }
      let c : Capture := { fixed := [0, 1] }
      (s.fixedValues, s.topLevelFacts [0, 1], s.loadFacts (c.isFixed .discordant), s.onceEdgeFacts [],
        s.libraryFacts (c.isFixed .discordant),
        s.realize c (.not .inputItself) [])) =
      some (.ok [0, 1], .ok [], .ok [], (.ok [], []), .ok [],
        (.ok [.parameterIs false, .parameterIs true], [])) := by
    have calls : CallGraph.ofProgram .discordant = .ok ⟨#[none, none]⟩ := rfl
    rw [Survey.ofProgram, calls]
    cbv
  obtain ⟨survey, made, read⟩ := Survey.exists_of_map_eq found
  obtain ⟨fixed, top, loads, edges, library, realize⟩ := by simpa only [Prod.mk.injEq] using read
  let subject : Subject := { program := .discordant, survey }
  let engine : Engine := {
    subject, config := {}, capture := { fixed := [0, 1], facts := [] }, classes := .empty, facts := [] }
  have sorted : Clause.sort ([] ++ [] ++ [] ++ []) = .ok [] := by simp [Clause.sort]
  have captured : subject.capture false [] = (.ok engine.capture, []) :=
    Subject.capture_eq fixed top loads edges library sorted
  have opened : Engine.ofSubject subject {} [] = (.ok engine, []) :=
    Engine.ofSubject_of_capture captured rfl rfl
  have realized : engine.realized (.not .inputItself) [] = (.ok [.parameterIs false, .parameterIs true], []) := by
    rw [Engine.realized]
    exact run_bind_ok realize
  have decided (history : List Entry) : Dialogue.decideClause [.parameterIs false, .parameterIs true]
      (.not .inputItself) (.not .inputItself) ⟨{ host := .denying, history, leased := true }, .idle {}⟩ =
        (.ok true, ⟨{ host := .denying, history := Host.inputItself ++ history, leased := true }, .idle {}⟩) := by
    cbv
  let first : Situation := ⟨{ host := .denying }, engine⟩
  have simplify : (first.engine.classes.canonical (.not .inputItself)).simplify = .ok (some false) := rfl
  have denied : provable (.not .inputItself) first = (.ok true,
      ⟨{ host := .denying, history := Host.inputItself ++ Host.opening, leased := true },
        { engine with solver := some (.idle {}) }⟩) := by
    rw [provable_asks (s := first) rfl rfl simplify (by simp) realized]
    exact withSolver_of_none rfl (start_denying rfl rfl rfl) (decided _)
  exact ⟨survey, engine, _, made, opened, rfl, denied, Host.grants_denying, Host.sincere_inputItself⟩

end SsaFacts
