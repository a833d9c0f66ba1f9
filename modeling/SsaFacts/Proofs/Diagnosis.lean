import SsaFacts.Proofs.Symmetry

/-! The report on facts in conflict. A diagnosis names facts that have no common model and that have one as soon
as any of them is left out. Each fact is tried once, against all that is still there at that time; that this is
enough is because leaving out more facts never takes a model away. -/
namespace SsaFacts

open Smt

namespace Clause
variable {g : Guards} {kept rest cs ds core : List Clause} {c : Clause}

/-- Some assignment meets all that is asserted for the clauses. -/
def Satisfiable (g : Guards) (cs : List Clause) : Prop := ∃ ν : Assignment, ν.Satisfies g cs

theorem Satisfiable.sublist (model : Satisfiable g ds) (sub : cs.Sublist ds) : Satisfiable g cs := by
  obtain ⟨ν, satisfies⟩ := model
  exact ⟨ν, fun c hc => satisfies c (sub.subset hc)⟩

/-- Clauses of the list, in its order, that are in conflict but not without any single one of them. -/
structure IsCore (g : Guards) (cs core : List Clause) : Prop where
  sublist : core.Sublist cs
  conflict : ¬Satisfiable g core
  needed : ∀ i < core.length, Satisfiable g (core.eraseIdx i)

/-- How far the clauses have been tried: what was kept is needed as long as the rest is there. -/
structure Tried (g : Guards) (kept rest : List Clause) : Prop where
  conflict : ¬Satisfiable g (kept ++ rest)
  needed : ∀ i < kept.length, Satisfiable g (kept.eraseIdx i ++ rest)

namespace Tried

theorem start (conflict : ¬Satisfiable g cs) : Tried g [] cs := ⟨conflict, by simp⟩

/-- A clause without which there is still a conflict is dropped: what was needed with it is needed without. -/
theorem drop (tried : Tried g kept (c :: rest)) (conflict : ¬Satisfiable g (kept ++ rest)) : Tried g kept rest where
  conflict := conflict
  needed i hi := (tried.needed i hi).sublist ((List.sublist_cons_self c rest).append_left _)

theorem keep (tried : Tried g kept (c :: rest)) (model : Satisfiable g (kept ++ rest)) :
    Tried g (kept ++ [c]) rest where
  conflict := by
    rw [List.append_assoc]
    exact tried.conflict
  needed i hi := by
    rw [List.length_append, List.length_singleton] at hi
    by_cases old : i < kept.length
    · rw [List.eraseIdx_append_of_lt_length old, List.append_assoc]
      exact tried.needed i old
    · obtain rfl : i = kept.length := by omega
      rw [List.eraseIdx_append_of_length_le le_rfl, Nat.sub_self, List.eraseIdx_cons_zero, List.append_nil]
      exact model

theorem isCore (tried : Tried g kept []) : IsCore g kept kept where
  sublist := .refl _
  conflict := by simpa using tried.conflict
  needed i hi := by simpa using tried.needed i hi

end Tried

end Clause

namespace Expr
variable {p : Program} {e : Expr}

/-- The constants of a stated expression are single bits and words, also those that are not in the program. -/
theorem Stated.width_of_mention (h : e.Stated p) {g : Guards} {k : Literal} (hk : .const k ∈ e.mentions g) :
    k.width = boolWidth ∨ k.width = wordWidth := by
  induction e with
  | literal l =>
    obtain rfl : k = l := by simpa [mentions] using hk
    exact h
  | leaf l => simp [mentions] at hk
  | unary op e ih => exact ih h hk
  | binary op l r ihl ihr =>
    obtain ⟨hl, hr, -⟩ := h
    have own : ∀ z, k = .ofInt l.width z → k.width = boolWidth ∨ k.width = wordWidth := by
      rintro z rfl
      exact hl.width_cases
    rw [mentions] at hk
    cases written : shape g op l r <;> simp only [written, List.mem_append, List.mem_singleton] at hk
    · exact ihl hl hk
    · exact ihr hr hk
    · exact hk.elim (ihl hl) fun h => own _ (Mention.const.inj h)
    · exact hk.elim (ihr hr) fun h => own _ (Mention.const.inj h)
    · rcases hk with (hk | hk) | hk
      · exact ihl hl hk
      · exact ihr hr hk
      · obtain ⟨m, hm, eq⟩ := List.mem_map.1 hk
        cases eq
        unfold modulus? at hm
        split at hm
        · exact own l.width (by simpa using hm)
        · simp at hm

end Expr

theorem Clause.Stated.narrow {p : Program} {c : Clause} (h : c.Stated p) (g : Guards) : c.Narrow g := by
  intro k hk
  obtain ⟨e, he, hk⟩ := List.mem_flatMap.1 hk
  rcases (h.exprs he).width_of_mention hk with width | width <;> rw [width] <;> decide

/-- Nothing is refused, and `unsat` is the answer to a check exactly if there is no model. If there is one, the
solver may not find it. -/
structure Host.Refutes (h : Host) : Prop where
  compliant : h.Compliant
  unsat : ∀ before process, ¬HasModel (levels process before) → h.reply before process .checkSat = .atom "unsat"
  other : ∀ before process, HasModel (levels process before) →
    h.reply before process .checkSat = .atom "sat" ∨ h.reply before process .checkSat = .atom "unknown"

theorem Host.Reliable.refutes {h : Host} (reliable : h.Reliable) : h.Refutes where
  compliant := reliable.compliant
  unsat before process := (reliable.decides before process).2
  other before process model := .inl ((reliable.decides before process).1 model)

theorem Host.Refutes.grants {h : Host} (refutes : h.Refutes) : h.GrantsScopes :=
  ⟨fun _ _ => refutes.compliant _ _ _ trivial, fun _ _ => refutes.compliant _ _ _ trivial⟩

/-- A solver that was told nothing and can be asked whether clauses are in conflict. -/
structure Session.Blank (s : Session) (g : Guards) : Prop where
  refutes : s.world.host.Refutes
  fresh : s.Fresh
  guards_eq : s.solver.config.guards = g

theorem Session.Told.opened {s : Session} {U : Leaf → Prop} {P : Assignment → Prop} (told : s.Told U P) :
    s.opened.Told U P where
  models ν := by
    have levels : s.opened.levels = Command.push.apply s.levels := levels_told .push s
    rw [levels, Assignment.models_push, told.models]
  widths := told.widths

namespace Dialogue
variable {s : Session} {g : Guards} {p : Program} {kept rest cs : List Clause}

theorem check_of_refutes (refutes : s.world.host.Refutes) :
    ∃ r, check s = (.ok r, s.told .checkSat) ∧ (r = .unsat ↔ ¬HasModel s.levels) := by
  have sent : send .checkSat s =
    (.ok (s.world.host.reply s.world.history s.solver.process .checkSat), s.told .checkSat) := rfl
  rw [check, run_bind_ok sent]
  by_cases model : HasModel s.levels
  · rcases refutes.other _ _ model with reply | reply <;> rw [reply]
    · exact ⟨.sat, rfl, by simp [model]⟩
    · exact ⟨.unknown, rfl, by simp [model]⟩
  · rw [refutes.unsat _ _ model]
    exact ⟨.unsat, rfl, by simp [model]⟩

/-- One attempt: clauses are put to the solver in a scope of their own, which leaves nothing behind. -/
theorem attempt_run (blank : s.Blank g) (stated : ∀ c ∈ cs, c.Stated p) :
    ∃ r s', inScope (do assertAll cs; check) s = (.ok r, s') ∧ (r = .unsat ↔ ¬Clause.Satisfiable g cs) ∧
      s'.Blank g := by
  obtain ⟨refutes, fresh, guards⟩ := blank
  obtain ⟨u, asserted, steady⟩ :=
    passes_assertAll (fun c hc => (stated c hc).narrow _) s.opened refutes.compliant rfl
  obtain ⟨told, -⟩ := (fresh.told _).opened.assertAll (Clause.typed_of_stated stated)
    (fun c hc l hl => ⟨c, hc, hl⟩) asserted
  have models (ν : Assignment) : ν.Models u.levels ↔ ν.Satisfies g cs := by
    rw [told.models, true_and, ← guards]
    rfl
  obtain ⟨r, checked, answer⟩ := check_of_refutes (s := u) (steady.host_eq ▸ refutes)
  have body : (do assertAll cs; check : Dialogue Response) s.opened = (.ok r, u.told .checkSat) :=
    (run_bind_ok asserted).trans checked
  have keeps : Keeps Session.Extends (do assertAll cs; check : Dialogue Response) :=
    (keeps_assertAll cs).bind fun _ => keeps_check
  rcases inScope_run keeps s with ⟨refused, -⟩ | ⟨s', entered, resumes, -⟩
  · exact absurd refutes.grants refused
  · rw [body] at entered
    obtain ⟨solver, levels⟩ := resumes.restored refutes.grants
    refine ⟨r, s', entered, answer.trans (not_congr (exists_congr models)), ?_, ?_, ?_⟩
    · exact resumes.later.host_eq ▸ refutes
    · exact ⟨levels ▸ fresh.levels_eq, solver ▸ fresh.declared_eq, solver ▸ fresh.scopes_eq⟩
    · rw [solver, guards]

theorem shrink_run (blank : s.Blank g) (stated : ∀ c ∈ kept ++ rest, c.Stated p)
    (tried : Clause.Tried g kept rest) :
    ∃ core s', shrink kept rest s = (.ok core, s') ∧ Clause.IsCore g (kept ++ rest) core := by
  induction rest generalizing kept s with
  | nil =>
    rw [List.append_nil]
    exact ⟨kept, s, rfl, tried.isCore⟩
  | cons c rest ih =>
    have dropped : (kept ++ rest).Sublist (kept ++ c :: rest) := (List.sublist_cons_self c rest).append_left kept
    have others : ∀ d ∈ kept ++ rest, d.Stated p := fun d hd => stated d (dropped.subset hd)
    obtain ⟨r, t, attempted, answer, blank⟩ := attempt_run blank others
    rw [shrink, run_bind_ok attempted]
    by_cases unsat : r = .unsat
    · rw [if_pos unsat]
      obtain ⟨core, s', run, isCore⟩ := ih blank others (tried.drop (answer.1 unsat))
      exact ⟨core, s', run, isCore.sublist.trans dropped, isCore.conflict, isCore.needed⟩
    · rw [if_neg unsat]
      have model : Clause.Satisfiable g (kept ++ rest) := by_contra fun none => unsat (answer.2 none)
      have split : kept ++ [c] ++ rest = kept ++ c :: rest := by simp
      rw [← split] at stated ⊢
      exact ih blank stated (tried.keep model)

theorem restart_blank (refutes : s.world.host.Refutes)
    (creates : ∀ path ∈ s.solver.config.replay, s.world.host.creates path = true)
    (launches : s.world.host.launches s.solver.config.program s.solver.config.args = true) :
    ∃ t : Session, restart s = (.ok (), t) ∧ t.Blank s.solver.config.guards := by
  obtain ⟨q, w, launched, host, -⟩ := Talk.launch_ok refutes.compliant creates launches
  refine ⟨_, restart_of_ok launched, host ▸ refutes, ⟨?_, rfl, rfl⟩, rfl⟩
  have new := (Talk.launch_run s.solver.config s.world).levels_eq
  rw [launched] at new
  exact new q rfl

/-- Facts in conflict are diagnosed by a core of those that do not simplify to true. -/
theorem diagnose_isCore {subject : Subject} {disable : Bool} {capture : Capture} {ns ns' : List Notice}
    (captured : subject.capture disable ns = (.ok capture, ns')) (refutes : s.world.host.Refutes)
    (creates : ∀ path ∈ s.solver.config.replay, s.world.host.creates path = true)
    (launches : s.world.host.launches s.solver.config.program s.solver.config.args = true)
    (conflict : ¬Clause.Satisfiable s.solver.config.guards (Clause.unsettled capture.facts)) :
    ∃ core s', diagnose capture.facts s = (.ok (.inconsistent (core.map Clause.text)), s') ∧
      Clause.IsCore s.solver.config.guards (Clause.unsettled capture.facts) core := by
  have stated := subject.capture_stated disable capture ⟨ns, ns', captured⟩
  have noted : (liftM (Talk.ofNoted (note .diagnosing)) : Dialogue Unit) s =
      (.ok (), { s with world := { s.world with notices := s.world.notices ++ [.diagnosing] } }) :=
    ofTalk_run (Talk.ofNoted_run (note_ok (by simp [Notice.literals]) _))
  obtain ⟨t, restarted, blank⟩ := restart_blank
    (s := { s with world := { s.world with notices := s.world.notices ++ [.diagnosing] } }) refutes creates launches
  have filtered : (liftM (Talk.ofChecked (Clause.nontrivial capture.facts)) : Dialogue (List Clause)) t =
      (.ok (Clause.unsettled capture.facts), t) := by
    rw [Clause.nontrivial_eq_unsettled fun c hc => (stated c hc).wellSorted]
    rfl
  obtain ⟨core, s', shrunk, isCore⟩ := shrink_run blank
    (fun c hc => stated c (List.mem_of_mem_filter hc)) (.start conflict)
  refine ⟨core, s', ?_, isCore⟩
  rw [diagnose, run_bind_ok noted, run_bind_ok restarted, run_bind_ok filtered, run_bind_ok shrunk]
  rfl

end Dialogue

/-- One input is marked as equal to 5 and to 6, another one as equal to 5. -/
def Subject.markedThrice : Subject :=
  .straightLine [5, 6] [.call (.direct 2) [], .call (.direct 1) [2, 0], .call (.direct 1) [2, 1],
    .call (.direct 2) [], .call (.direct 1) [5, 0]]

def Clause.marks (v : ValueId) (z : Int) : Clause := .atom .eq (.result v 32) (.ofInt 32 z)

theorem Clause.accepts_marks {ν : Assignment} {v : ValueId} {z : Int} :
    ν.Accepts {} (marks v z) ↔ ν.value (taggedName "x" v 0) = (Literal.ofInt 32 z).vec := by
  have written : (marks v z).formulas {} = [.rel .eq (.name (taggedName "x" v 0)) (.const (.ofInt 32 z))] := rfl
  constructor
  · intro accepts
    have equal := accepts.eval_eq (.rel .eq (.name (taggedName "x" v 0)) (.const (.ofInt 32 z))) (by simp [written])
    exact Rel.truth?_eq_true.1 equal
  · intro value
    refine ⟨fun l hl => ?_, fun f hf => ?_⟩
    · obtain rfl : l = { ref := .result v [], width := 32, context := 0 } := List.mem_singleton.1 hl
      exact congrArg Vec.width value
    · rw [written, List.mem_singleton] at hf
      subst hf
      exact Rel.truth?_eq_true.2 value

/-- Of three facts the two in conflict are reported. -/
theorem Dialogue.diagnose_isCore_markedThrice : ∃ capture s',
    Subject.markedThrice.capture false [] = (.ok capture, []) ∧ Host.oracle.Refutes ∧
      Clause.unsettled capture.facts = [.marks 2 5, .marks 2 6, .marks 5 5] ∧
      diagnose capture.facts ⟨{ host := .oracle }, { config := {}, process := 0 }⟩ =
        (.ok (.inconsistent ["(x2 = 5)", "(x2 = 6)"]), s') := by
  let facts : List Clause := [.marks 2 5, .marks 2 6, .marks 5 5]
  have sorted : Clause.sort facts = .ok facts :=
    Clause.sort_eq_ok (by decide +kernel) (.refl _) (by decide +kernel) (by decide +kernel)
  have edges : Subject.markedThrice.onceEdgeFacts [] = (.ok facts, []) := by with_unfolding_all rfl
  have captured : Subject.markedThrice.capture false [] = (.ok { fixed := [2, 3, 4, 5, 6], facts }, []) :=
    Subject.capture_eq rfl rfl rfl edges rfl sorted
  have unsettled : Clause.unsettled facts = facts := by decide +kernel
  have pair : ¬Clause.Satisfiable {} [.marks 2 5, .marks 2 6] := by
    rintro ⟨ν, h⟩
    have five := Clause.accepts_marks.1 (h (.marks 2 5) (by simp))
    have six := Clause.accepts_marks.1 (h (.marks 2 6) (by simp))
    exact absurd (five.symm.trans six) (by decide)
  have single (z : Int) : Clause.Satisfiable {} [.marks 2 z, .marks 5 5] := by
    refine ⟨⟨fun n => if n = "x2" then (Literal.ofInt 32 z).vec else (Literal.ofInt 32 5).vec, ?_⟩, ?_⟩
    · intro n
      split <;> exact (by decide : 0 < 32)
    · simp only [Assignment.Satisfies, List.forall_mem_cons, Clause.accepts_marks]
      exact ⟨rfl, rfl, by simp⟩
  have refutes : Host.oracle.Refutes := Host.reliable_oracle.refutes
  obtain ⟨core, s', run, sublist, conflict, needed⟩ := diagnose_isCore
    (s := ⟨{ host := .oracle }, { config := {}, process := 0 }⟩) captured refutes (by simp) rfl
    (unsettled ▸ fun model => pair (model.sublist (List.sublist_append_left _ _)))
  obtain rfl : core = [.marks 2 5, .marks 2 6] := by
    have among : core.Sublist [.marks 2 5, .marks 2 6, .marks 5 5] := by rwa [unsettled] at sublist
    cases among with
    | cons _ rest => exact absurd ((single 6).sublist rest) conflict
    | cons_cons _ rest =>
      cases rest with
      | cons _ rest => exact absurd ((single 5).sublist (rest.cons_cons _)) conflict
      | cons_cons _ rest =>
        rcases rest with _ | ⟨-, rest⟩ | ⟨-, rest⟩ <;> cases rest
        · rfl
        · exact absurd (needed 2 (by simp)) pair
  exact ⟨_, s', captured, refutes, unsettled, run⟩

end SsaFacts
