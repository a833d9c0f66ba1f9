import SsaFacts.Proofs.Coherence
import SsaFacts.Proofs.SideConditions
import SsaFacts.Proofs.Substitution

/-! What is asserted for the captured facts and what is asserted for the reduced ones have models together,
as long as no shift is by a literal beyond its width and no side condition is dropped with a fact. -/
namespace SsaFacts

open Smt

namespace Valuation
variable {p : Program} (ρ : Valuation p) {g : Guards} {c : Clause}

/-- The clause is true and its operations meet their side conditions. -/
def Meets (g : Guards) (c : Clause) : Prop :=
  c.denote zeroDivision ρ.env = true ∧ c.Guarded g ρ.env

open Classical in
/-- The names of plain leaves get the values of their results. -/
noncomputable def assignment : Assignment where
  value n := if h : ∃ v, (p.plainLeaf v).solverName = n then ρ.value h.choose else ⟨1, 0#1⟩
  nonempty n := by
    split
    · rw [ρ.width_value]
      rcases p.modelWidth_cases _ with h | h <;> rw [h] <;> decide
    · decide

theorem env_assignment (v : ValueId) : ρ.assignment.env (p.plainLeaf v) = ρ.value v := by
  have found : ∃ u, (p.plainLeaf u).solverName = (p.plainLeaf v).solverName := ⟨v, rfl⟩
  have same : found.choose = v := Program.plainLeaf_inj found.choose_spec
  exact (dif_pos found).trans (congrArg ρ.value same)

end Valuation

/-- The values that an assignment gives to plain leaves, where they have the width of the leaf. -/
def Smt.Assignment.valuation (ν : Assignment) (p : Program) : Valuation p where
  value v :=
    if (ν.env (p.plainLeaf v)).width = p.modelWidth v then ν.env (p.plainLeaf v) else ⟨p.modelWidth v, 0⟩
  width_value v := by
    split
    · assumption
    · rfl

/-- The leaves of the clause have their widths and its operations meet their side conditions. -/
structure Smt.Assignment.Keeps (ν : Assignment) (g : Guards) (c : Clause) : Prop where
  width_eq : ∀ l ∈ c.leaves, (ν.env l).width = l.width
  guarded : c.Guarded g ν.env

namespace Clause
variable {p : Program} {g : Guards} {c : Clause} {ν : Assignment} {ρ : Valuation p}

theorem Stated.env_assignment (stated : c.Stated p) : ∀ l ∈ c.leaves, ρ.assignment.env l = ρ.env l := by
  intro l hl
  obtain ⟨v, -, rfl⟩ := stated.leaf_eq hl
  exact ρ.env_assignment v

theorem Stated.width_assignment (stated : c.Stated p) :
    ∀ l ∈ c.leaves, (ρ.assignment.env l).width = l.width := by
  intro l hl
  obtain ⟨v, -, rfl⟩ := stated.leaf_eq hl
  rw [ρ.env_assignment, ρ.width_value]
  rfl

theorem Stated.env_valuation (stated : c.Stated p) (typed : ∀ l ∈ c.leaves, (ν.env l).width = l.width) :
    ∀ l ∈ c.leaves, (ν.valuation p).env l = ν.env l := by
  intro l hl
  have width := typed l hl
  obtain ⟨v, -, rfl⟩ := stated.leaf_eq hl
  exact if_pos width

/-- What is asserted for the clause says what the clause says: its widths agree, it extends no term to fewer
bits, it shifts by no literal beyond the width, and its widths can be written. -/
structure Faithful (c : Clause) : Prop where
  sorted : c.WellSorted
  fits : c.ExtensionsFit
  amounts : c.AmountsInRange
  small : ∀ l ∈ c.leaves, l.width < twoPow 32

/-- All that is asserted for a clause is true where the clause and its side conditions are. -/
theorem Faithful.accepts_iff (h : c.Faithful) :
    ν.Accepts g c ↔ ν.Keeps g c ∧ c.denote zeroDivision ν.env = true := by
  constructor
  · intro accepts
    have encoded := accepts.eval_eq (c.encode g) List.mem_cons_self
    rw [eval_encode h.sorted h.fits h.amounts h.small accepts.width_eq] at encoded
    have guarded := (guards_hold h.sorted h.fits h.amounts h.small accepts.width_eq).1 fun f hf =>
      accepts.eval_eq f (List.mem_cons_of_mem _ hf)
    exact ⟨⟨accepts.width_eq, guarded⟩, Option.some.inj encoded⟩
  · rintro ⟨keeps, isTrue⟩
    refine ⟨keeps.width_eq, List.forall_mem_cons.2 ⟨?_, ?_⟩⟩
    · rw [eval_encode h.sorted h.fits h.amounts h.small keeps.width_eq, isTrue]
    · exact (guards_hold h.sorted h.fits h.amounts h.small keeps.width_eq).2 keeps.guarded

theorem Stated.faithful (stated : c.Stated p) (amounts : c.AmountsInRange) : c.Faithful where
  sorted := stated.wellSorted
  fits e he := (stated.exprs he).extensionsFit
  amounts := amounts
  small l hl := by
    obtain ⟨v, -, rfl⟩ := stated.leaf_eq hl
    have narrow : p.modelWidth v < twoPow 32 := by
      rcases p.modelWidth_cases v with h | h <;> rw [h] <;> decide
    exact narrow

theorem Stated.accepts_assignment (stated : c.Stated p) (amounts : c.AmountsInRange)
    (meets : ρ.Meets g c) : ρ.assignment.Accepts g c := by
  have env : ∀ l ∈ c.leaves, ρ.assignment.env l = ρ.env l := stated.env_assignment
  refine (stated.faithful amounts).accepts_iff.2 ⟨⟨stated.width_assignment, ?_⟩, ?_⟩
  · exact (guarded_congr env).2 meets.2
  · rw [denote_congr env]
    exact meets.1

theorem Stated.meets_valuation (stated : c.Stated p) (amounts : c.AmountsInRange)
    (accepts : ν.Accepts g c) : (ν.valuation p).Meets g c := by
  obtain ⟨keeps, isTrue⟩ := (stated.faithful amounts).accepts_iff.1 accepts
  have env := stated.env_valuation keeps.width_eq
  refine ⟨?_, (guarded_congr env).2 keeps.guarded⟩
  rw [denote_congr env, isTrue]

end Clause

namespace Classes
variable {p : Program} {g : Guards} {c : Classes} {ρ : Valuation p}

theorem Uniform.guarded_canonicalExpr (h : c.Uniform p) {e : Expr} (stated : e.Stated p) :
    (c.canonicalExpr e).Guarded g ρ.env ↔ e.Guarded g (ρ.through c h).env := by
  induction e with
  | literal l => rfl
  | leaf l =>
    obtain ⟨v, -, rfl⟩ := stated
    have atomic : (c.canonicalLeaf (p.plainLeaf v)).Guarded g ρ.env := by
      rw [canonicalLeaf_plainLeaf]
      cases c.root (.value v) <;> trivial
    exact iff_of_true atomic trivial
  | unary op e ih => exact ih stated
  | binary op l r ihl ihr =>
    have left : (c.canonicalExpr l).Guarded g ρ.env ↔ l.Guarded g (ρ.through c h).env := ihl stated.1
    have right : (c.canonicalExpr r).Guarded g ρ.env ↔ r.Guarded g (ρ.through c h).env := ihr stated.2.1
    have width := (h.canonicalExpr_stated stated.1).2
    have denote (e : Expr) : (c.canonicalExpr e).denote zeroDivision ρ.env =
        e.denote zeroDivision (ρ.through c h).env := by
      rw [canonicalExpr, Expr.denote_subst]
      simp only [denote_canonicalLeaf]
      rfl
    show (Expr.binary op (c.canonicalExpr l) (c.canonicalExpr r)).Guarded g ρ.env ↔ _
    simp only [Expr.Guarded, left, right, width, denote]

theorem Uniform.guarded_canonical (h : c.Uniform p) {f : Clause} (stated : f.Stated p) :
    (c.canonical f).Guarded g ρ.env ↔ f.Guarded g (ρ.through c h).env := by
  have exprs : (c.canonical f).exprs = f.exprs.map c.canonicalExpr := Clause.exprs_subst _ f
  simp only [Clause.Guarded, exprs, List.forall_mem_map]
  exact forall₂_congr fun e he => h.guarded_canonicalExpr (stated.exprs he)

theorem Uniform.amounts_of_canonicalExpr (h : c.Uniform p) {e : Expr} (stated : e.Stated p)
    (amounts : (c.canonicalExpr e).AmountsInRange) : e.AmountsInRange := by
  induction e with
  | literal l => trivial
  | leaf l => trivial
  | unary op e ih => exact ih stated amounts
  | binary op l r ihl ihr =>
    obtain ⟨left, right, below⟩ := amounts
    refine ⟨ihl stated.1 left, ihr stated.2.1 right, ?_⟩
    rintro k rfl shift
    have width : (c.canonicalExpr l).width = l.width := (h.canonicalExpr_stated stated.1).2
    rw [← width]
    exact below k rfl shift

/-- Shifts by a literal stay so in terms of representatives, at the same width. -/
theorem Uniform.amounts_of_canonical (h : c.Uniform p) {f : Clause} (stated : f.Stated p)
    (amounts : (c.canonical f).AmountsInRange) : f.AmountsInRange := by
  intro e he
  have exprs : (c.canonical f).exprs = f.exprs.map c.canonicalExpr := Clause.exprs_subst _ f
  refine h.amounts_of_canonicalExpr (stated.exprs he) (amounts _ ?_)
  rw [exprs]
  exact List.mem_map_of_mem he

/-- A clause in terms of representatives is met where the clause is, read through the classes. -/
theorem Uniform.meets_canonical (h : c.Uniform p) {f : Clause} (stated : f.Stated p) :
    ρ.Meets g (c.canonical f) ↔ (ρ.through c h).Meets g f := by
  rw [Valuation.Meets, Valuation.Meets, h.guarded_canonical stated, ρ.denote_through c h]

end Classes

namespace Engine.Reduced
variable {e : Engine} {cs : List Clause} {g : Guards}

theorem exists_kept (h : e.Reduced) :
    ∃ cs, Clause.nontrivial e.capture.facts = .ok cs ∧
      ∀ c, c ∈ cs ↔ c ∈ e.capture.facts ∧ c.simplify ≠ .ok (some true) :=
  Clause.nontrivial_ok fun f hf => (h.stated f hf).wellSorted

/-- A fact that simplifies to true still does in terms of representatives. -/
theorem simplify_canonical (h : e.Reduced) {f : Clause} (hf : f ∈ e.capture.facts)
    (trivially : f.simplify = .ok (some true)) : (e.classes.canonical f).simplify = .ok (some true) := by
  have stated := h.stated f hf
  obtain ⟨o, o', ho, ho', settled⟩ :=
    Clause.simplify_subst stated.wellSorted (h.uniform.canonical_stated stated).wellSorted
  rw [ho] at trivially
  rw [Classes.canonical, ho', settled true (Except.ok.inj trivially)]

/-- A valuation that meets the captured facts meets them in terms of representatives. -/
theorem meets_canonical_of_meets (h : e.Reduced)
    (kept : ∀ c, c ∈ cs ↔ c ∈ e.capture.facts ∧ c.simplify ≠ .ok (some true))
    {ρ : Valuation e.program} (meets : ∀ c ∈ cs, ρ.Meets g c) :
    ∀ c ∈ cs, ρ.Meets g (e.classes.canonical c) := by
  have satisfies : ρ.Satisfies zeroDivision e.capture.facts := by
    intro f hf
    by_cases trivially : f.simplify = .ok (some true)
    · exact Clause.denote_of_simplify (h.stated f hf).wellSorted trivially
    · exact (meets f ((kept f).2 ⟨hf, trivially⟩)).1
  have same : ρ.through e.classes h.uniform = ρ :=
    Valuation.ext fun v => h.node_root satisfies (.value v)
  intro c hc
  have stated := h.stated c ((kept c).1 hc).1
  rw [h.uniform.meets_canonical stated, same]
  exact meets c hc

/-- What is asserted for the captured facts has a model exactly if what is asserted for the reduced facts
has one in which the facts that were dropped keep their side conditions. -/
theorem satisfiable_iff (h : e.Reduced)
    (kept : ∀ c, c ∈ cs ↔ c ∈ e.capture.facts ∧ c.simplify ≠ .ok (some true))
    (amounts : ∀ f ∈ e.capture.facts, (e.classes.canonical f).AmountsInRange) :
    (∃ ν : Assignment, ν.Satisfies g cs) ↔ ∃ ν : Assignment, ν.Satisfies g e.facts ∧
      ∀ c ∈ cs, (e.classes.canonical c).simplify = .ok (some true) →
        ν.Keeps g (e.classes.canonical c) := by
  have stated : ∀ c ∈ cs, c.Stated e.program := fun c hc => h.stated c ((kept c).1 hc).1
  have canonical : ∀ c ∈ cs, (e.classes.canonical c).Stated e.program := fun c hc =>
    h.uniform.canonical_stated (stated c hc)
  have inRange : ∀ c ∈ cs, c.AmountsInRange := fun c hc =>
    h.uniform.amounts_of_canonical (stated c hc) (amounts c ((kept c).1 hc).1)
  constructor
  · rintro ⟨ν, hν⟩
    let ρ := ν.valuation e.program
    have meets : ∀ c ∈ cs, ρ.Meets g c := fun c hc =>
      (stated c hc).meets_valuation (inRange c hc) (hν c hc)
    have reducedMeets := h.meets_canonical_of_meets kept meets
    refine ⟨ρ.assignment, fun c hc => ?_, fun c hc _ => ?_⟩
    · obtain ⟨⟨f, hf, rfl⟩, nontrivial⟩ := (h.mem_facts c).1 hc
      have mem : f ∈ cs := (kept f).2 ⟨hf, fun trivially => nontrivial (h.simplify_canonical hf trivially)⟩
      exact (canonical f mem).accepts_assignment (amounts f hf) (reducedMeets f mem)
    · have env : ∀ l ∈ (e.classes.canonical c).leaves, ρ.assignment.env l = ρ.env l :=
        (canonical c hc).env_assignment
      exact ⟨(canonical c hc).width_assignment, (Clause.guarded_congr env).2 (reducedMeets c hc).2⟩
  · rintro ⟨ν, hν, keeps⟩
    let ρ := ν.valuation e.program
    have meets : ∀ c ∈ cs, ρ.Meets g (e.classes.canonical c) := by
      intro c hc
      by_cases dropped : (e.classes.canonical c).simplify = .ok (some true)
      · have env := (canonical c hc).env_valuation (keeps c hc dropped).width_eq
        exact ⟨Clause.denote_of_simplify (canonical c hc).wellSorted dropped,
          (Clause.guarded_congr env).2 (keeps c hc dropped).guarded⟩
      · have mem := (h.mem_facts _).2 ⟨⟨c, ((kept c).1 hc).1, rfl⟩, dropped⟩
        exact (canonical c hc).meets_valuation (amounts c ((kept c).1 hc).1) (hν _ mem)
    refine ⟨(ρ.through e.classes h.uniform).assignment, fun c hc => ?_⟩
    exact (stated c hc).accepts_assignment (inRange c hc)
      ((h.uniform.meets_canonical (stated c hc)).1 (meets c hc))

theorem satisfiable_iff_unguarded (h : e.Reduced)
    (kept : ∀ c, c ∈ cs ↔ c ∈ e.capture.facts ∧ c.simplify ≠ .ok (some true))
    (amounts : ∀ f ∈ e.capture.facts, (e.classes.canonical f).AmountsInRange) :
    (∃ ν : Assignment, ν.Satisfies {} cs) ↔ ∃ ν : Assignment, ν.Satisfies {} e.facts := by
  rw [h.satisfiable_iff kept amounts]
  refine ⟨fun ⟨ν, sat, _⟩ => ⟨ν, sat⟩, fun ⟨ν, sat⟩ => ?_⟩
  let ρ := ν.valuation e.program
  refine ⟨ρ.assignment, fun c hc => ?_, fun c hc _ => ?_⟩
  · obtain ⟨⟨f, hf, rfl⟩, -⟩ := (h.mem_facts c).1 hc
    have stated := h.uniform.canonical_stated (h.stated f hf)
    exact stated.accepts_assignment (amounts f hf) (stated.meets_valuation (amounts f hf) (sat _ hc))
  · have stated := h.uniform.canonical_stated (h.stated c ((kept c).1 hc).1)
    exact ⟨stated.width_assignment, Clause.guarded_default _⟩

end Engine.Reduced

def Session.Lasts (s s' : Session) : Prop := s.world.Lasts s'.world

instance : IsPreorder Session Session.Lasts where
  refl s := refl_of World.Lasts s.world
  trans _ _ _ h h' := trans_of World.Lasts h h'

namespace Dialogue
variable {α : Type} {s s' : Session} {e : Engine}

theorem lasts_acknowledge (c : Command) : Keeps Session.Lasts (acknowledge c) := by
  intro s
  rcases acknowledge_run c s with run | ⟨reply, run⟩ <;> rw [run] <;> exact World.lasts_told _ _

theorem lasts_setSolver (f : Solver → Solver) : Keeps Session.Lasts (setSolver f) := fun s => refl_of World.Lasts s.world

theorem lasts_push : Keeps Session.Lasts push := (lasts_acknowledge _).bind fun _ => lasts_setSolver _

theorem lasts_close : Keeps Session.Lasts close :=
  keeps_close ((lasts_acknowledge _).bind fun _ => lasts_setSolver _) fun _ _ => ⟨⟨rfl, List.suffix_rfl⟩, rfl⟩

theorem through_lasts : Throughout (Keeps Session.Lasts) where
  toStepwise := Keeps.stepwise
  solver := .of_eq fun _ => rfl
  world := .of_eq fun _ => rfl
  noted _ _ := ⟨⟨rfl, List.suffix_rfl⟩, rfl⟩
  checked _ := .of_eq fun _ => rfl
  failed _ _ := .of_eq fun _ => rfl
  declare _ _ := by
    refine Keeps.bind (.of_eq fun _ => rfl) fun σ => ?_
    split
    · exact .pure ()
    · exact (lasts_acknowledge _).bind fun _ => lasts_setSolver _
  checkSat _ := World.lasts_told _ _
  getValue _ _ := World.lasts_told _ _
  acknowledge := lasts_acknowledge
  setSolver := lasts_setSolver
  inScope := keeps_scope lasts_push lasts_close
  launch config s := (Talk.launch_run config s.world).lasts
  inconsistent _ := .of_eq fun _ => rfl

theorem fails_acknowledge {E : Failure → Prop} (process : ∀ cause, E (.error (.process cause))) (c : Command) :
    Fails E (acknowledge c) := by
  intro s f s' run
  rcases acknowledge_run c s with ok | ⟨reply, refused⟩
  · rw [ok] at run
    cases run
  · rw [refused] at run
    cases run
    exact process _

/-- Remarks, declarations and checks fail for what the solver replies, or for a fault. -/
theorem plain_fails {E : Failure → Prop} (reply : ∀ e : Error, e.OfReply → E (.error e)) (fault : ∀ f, E (.fault f)) :
    Plain (Fails E) where
  toStepwise := Fails.stepwise
  solver := .of_ok fun s => ⟨s.solver, s, rfl⟩
  world := .of_ok fun s => ⟨s.world, s, rfl⟩
  noted n s f s' run := by
    rcases noted : note n s.world.notices with ⟨e | ⟨⟩, ns⟩ <;>
      rw [ofTalk_run (Talk.ofNoted_run noted)] at run <;> cases run
    exact fault e
  checked x s f s' run := by
    cases x with
    | ok a => cases run
    | error e =>
      cases run
      exact fault e
  failed e replied := .throw (reply e replied)
  declare n w := by
    have owned : Fails E solver := .of_ok fun s => ⟨s.solver, s, rfl⟩
    refine owned.bind fun σ => ?_
    split
    · exact .pure ()
    · exact (fails_acknowledge (fun _ => reply _ trivial) _).bind fun _ => .of_ok fun s => ⟨(), _, rfl⟩
  checkSat := .of_ok fun s => ⟨_, _, rfl⟩

theorem plain_consistent : Plain (Fails (¬Failure.Inconsistent ·)) :=
  plain_fails (fun e reply => by cases e <;> first | exact id | exact reply.elim) fun _ => id

/-- A truthful solver lets an inconsistency be reported only if what was asserted has no model. -/
theorem load_inconsistent (fresh : s.Fresh) (typed : Typed fun l => ∃ c ∈ e.facts, l ∈ c.leaves)
    {f : Failure} (run : load e s = (.error f, s')) (inconsistent : f.Inconsistent)
    (honest : s'.world.Honest) : ¬∃ ν : Assignment, ν.Satisfies s.solver.config.guards e.facts := by
  rw [load] at run
  rcases asserted : assertAll e.facts s with ⟨f' | ⟨⟩, t⟩
  · rw [run_bind_error asserted] at run
    obtain ⟨⟨⟩, -⟩ := Prod.mk.inj run
    have told (c : Clause) : Fails (¬Failure.Inconsistent ·) (assert c) :=
      plain_consistent.assert (fun _ => fails_acknowledge (fun _ => id) _) c
    exact absurd inconsistent (plain_consistent.forM (fun c _ => told c) s f t asserted)
  rw [run_bind_ok asserted] at run
  rcases checked : check t with ⟨f' | answer, t'⟩
  · rw [run_bind_error checked] at run
    obtain ⟨⟨⟩, -⟩ := Prod.mk.inj run
    exact absurd inconsistent (plain_consistent.check t f t' checked)
  rw [run_bind_ok checked] at run
  cases answer with
  | sat => cases run
  | unknown =>
    cases run
    exact inconsistent.elim
  | unsat =>
    have later : t'.world.Later s'.world := by
      have keeps : Keeps Session.Lasts (do Talk.fail (← diagnose e.capture.facts) : Dialogue Unit) :=
        (through_lasts.diagnose _).bind fun _ => .throw _
      exact (keeps.run run).toLater
    obtain ⟨told, -⟩ := (fresh.told _).assertAll typed (fun c hc l hl => ⟨c, hc, hl⟩) asserted
    obtain ⟨-, ⟨⟨⟩, -⟩ | ⟨-, none⟩⟩ := check_ok checked (World.Later.honest later honest)
    rintro ⟨ν, hν⟩
    exact none ⟨ν, (told.models ν).2 ⟨trivial, hν⟩⟩

end Dialogue

/-- A truthful solver lets a check of consistency report an inconsistency only if what is asserted for the
facts has no model. -/
theorem Inquiry.checkConsistency_inconsistent {s s' : Situation} {f : Failure}
    (stated : ∀ c ∈ s.engine.facts, c.Stated s.engine.program)
    (run : checkConsistency s = (.error f, s')) (inconsistent : f.Inconsistent) (honest : s'.world.Honest) :
    ¬∃ ν : Assignment, ν.Satisfies s.engine.config.guards s.engine.facts := by
  have own : engine s = (.ok s.engine, s) := rfl
  rw [checkConsistency, run_bind_ok own] at run
  cases solver : s.engine.solver with
  | some σ =>
    rw [solver] at run
    cases run
  | none =>
    rw [solver, Option.isNone_none, if_pos rfl] at run
    rcases start_run stated with ⟨t, started, -⟩ | ⟨g, w, failed, reported⟩
    · rw [run_bind_ok started] at run
      cases run
    · rw [run_bind_error failed] at run
      cases run
      obtain ⟨t₀, t, fresh, config, loaded, later⟩ := reported inconsistent
      rw [← config]
      exact Dialogue.load_inconsistent fresh (Clause.typed_of_stated stated) loaded inconsistent
        (later.honest honest)

/-- The captured facts and the reduced ones are consistent together, unless reducing them makes a literal
beyond the width the amount of a shift. With side conditions the captured facts also ask for those of the
facts that reduction drops. An inconsistency is reported only if the captured facts have no model. -/
theorem Engine.assertions_agree {subject : Subject} {config : Config} {e : Engine} {ns ns' : List Notice}
    (made : ofSubject subject config ns = (.ok e, ns'))
    (amounts : ∀ f ∈ e.capture.facts, (e.classes.canonical f).AmountsInRange) :
    ∃ cs, Clause.nontrivial e.capture.facts = .ok cs ∧
      (config.guards = {} → ((∃ ν : Assignment, ν.Satisfies config.guards cs) ↔
        ∃ ν : Assignment, ν.Satisfies config.guards e.facts)) ∧
      ((∃ ν : Assignment, ν.Satisfies config.guards cs) ↔
        ∃ ν : Assignment, ν.Satisfies config.guards e.facts ∧
          ∀ c ∈ cs, (e.classes.canonical c).simplify = .ok (some true) →
            ν.Keeps config.guards (e.classes.canonical c)) ∧
      ∀ (w : World) (classes : Classes) (solver : Option Solver) (f : Failure) (s' : Situation),
        Inquiry.checkConsistency ⟨w, { e with classes, solver }⟩ = (.error f, s') → f.Inconsistent →
          s'.world.Honest → ¬∃ ν : Assignment, ν.Satisfies config.guards cs := by
  obtain ⟨-, rfl, -, reduced⟩ := ofSubject_eq_ok made
  obtain ⟨cs, nontrivial, kept⟩ := reduced.exists_kept
  have agree := reduced.satisfiable_iff (g := e.config.guards) kept amounts
  refine ⟨cs, nontrivial, fun none => ?_, agree, fun w classes solver f s' run inconsistent honest => ?_⟩
  · rw [none]
    exact reduced.satisfiable_iff_unguarded kept amounts
  · intro model
    obtain ⟨ν, sat, -⟩ := agree.1 model
    exact Inquiry.checkConsistency_inconsistent (s := ⟨w, { e with classes, solver }⟩)
      reduced.stated_facts run inconsistent honest ⟨ν, sat⟩

/-- An input is shifted by another, which is marked as equal to `amount`; the result is marked as equal to
256. -/
def Subject.shifted (amount : Int) : Subject :=
  .straightLine [amount, 256] [.call (.direct 2) [], .call (.direct 2) [], .call (.direct 1) [3, 0],
    .binary .shl 2 3, .call (.direct 1) [5, 1]]

namespace Engine

def shifted (amount : Int) : Engine where
  subject := .shifted amount
  config := {}
  capture := {
    fixed := [2, 3, 4, 5, 6]
    facts := [.atom .eq (.result 3 32) (.ofInt 32 amount), .atom .eq (.result 5 32) (.ofInt 32 256),
      .atom .eq (.result 5 32) (.binary .shl (.result 2 32) (.result 3 32))] }
  classes := { parents := [(5, .literal (.ofInt 32 256)), (3, .literal (.ofInt 32 amount))] }
  facts := [.atom .eq (.ofInt 32 256) (.binary .shl (.result 2 32) (.ofInt 32 amount))]

theorem ofSubject_shifted {amount : Int} (h : amount = 8 ∨ amount = 40) :
    ofSubject (.shifted amount) {} [] = (.ok (shifted amount), []) := by
  let marked (z : Int) : Clause := .atom .eq (.result 3 32) (.ofInt 32 z)
  let result : Clause := .atom .eq (.result 5 32) (.ofInt 32 256)
  let shift : Clause := .atom .eq (.result 5 32) (.binary .shl (.result 2 32) (.result 3 32))
  have sorted : Clause.sort [shift, marked amount, result] = .ok [marked amount, result, shift] := by
    rcases h with rfl | rfl <;>
      exact Clause.sort_eq_ok (by decide +kernel) (by decide +kernel) (by decide +kernel) (by decide +kernel)
  have edges : (Subject.shifted amount).onceEdgeFacts [] = (.ok [marked amount, result], []) := by
    rcases h with rfl | rfl <;> with_unfolding_all rfl
  rcases h with rfl | rfl <;>
    exact ofSubject_of_capture (Subject.capture_eq rfl rfl rfl edges rfl sorted) rfl rfl

theorem assertions_agree_shifted :
    Clause.nontrivial (shifted 8).capture.facts = .ok (shifted 8).capture.facts ∧
      ((∃ ν : Assignment, ν.Satisfies {} (shifted 8).capture.facts) ↔
        ∃ ν : Assignment, ν.Satisfies {} (shifted 8).facts) := by
  have amounts : ∀ f ∈ (shifted 8).capture.facts, ((shifted 8).classes.canonical f).AmountsInRange := by
    have both {l r : Expr} (hl : l.AmountsInRange) (hr : r.AmountsInRange) :
        (Clause.atom .eq l r).AmountsInRange := by
      simpa [Clause.AmountsInRange, Clause.exprs] using ⟨hl, hr⟩
    have below : ∀ k, Expr.ofInt 32 8 = .literal k → BinOp.shl.isShift → k.bits < 32 := by
      rintro k ⟨⟩ -
      decide
    intro f hf
    rcases List.mem_cons.1 hf with rfl | hf
    · exact both trivial trivial
    rcases List.mem_cons.1 hf with rfl | hf
    · exact both trivial trivial
    cases List.mem_singleton.1 hf
    exact both trivial ⟨trivial, trivial, below⟩
  have nontrivial : Clause.nontrivial (shifted 8).capture.facts = .ok (shifted 8).capture.facts := rfl
  obtain ⟨cs, run, agree, -⟩ := assertions_agree (ofSubject_shifted (.inl rfl)) amounts
  cases nontrivial.symm.trans run
  exact ⟨nontrivial, agree rfl⟩

/-- A shift by 40 is one by 8 while the amount is a name, and leaves nothing once it is a literal. -/
theorem assertions_disagree_beyond_width :
    ofSubject (.shifted 40) {} [] = (.ok (shifted 40), []) ∧
      Clause.nontrivial (shifted 40).capture.facts = .ok (shifted 40).capture.facts ∧
      (∃ ν : Assignment, ν.Satisfies {} (shifted 40).capture.facts) ∧
      ¬∃ ν : Assignment, ν.Satisfies {} (shifted 40).facts := by
  refine ⟨ofSubject_shifted (.inr rfl), rfl, ?_, ?_⟩
  · let value (n : String) : BitVec 32 := if n = "x2" then 1 else if n = "x3" then 40 else 256
    let ν : Assignment := ⟨fun n => ⟨32, value n⟩, fun _ => Nat.succ_pos 31⟩
    have accepts : ∀ c ∈ (shifted 40).capture.facts, (∀ l ∈ c.leaves, (ν.env l).width = l.width) ∧
        ∀ f ∈ c.formulas {}, f.eval ν = some true := by
      decide
    exact ⟨ν, fun c hc => ⟨(accepts c hc).1, (accepts c hc).2⟩⟩
  · rintro ⟨ν, sat⟩
    obtain ⟨widths, holds⟩ := sat _ List.mem_cons_self
    have width : (ν.value "x2").width = 32 := widths _ List.mem_cons_self
    have kept : (Formula.rel .eq (.const (.ofInt 32 256)) (.app .bvshl (.name "x2") (.const (.ofInt 32 40)))).eval ν =
        some true := holds _ List.mem_cons_self
    rcases value : ν.value "x2" with ⟨w, x⟩
    rw [value] at width
    cases width
    have literal (z : Int) : (Literal.ofInt 32 z).vec = ⟨32, BitVec.ofInt 32 z⟩ := Literal.vec_ofInt (by decide) z
    have vanishes : x <<< 40#32 = 0#32 := BitVec.shiftLeft_eq_zero (by decide)
    simp [Formula.eval, Term.eval, value, literal, Fn.apply, Rel.test, vanishes] at kept

end Engine
end SsaFacts
