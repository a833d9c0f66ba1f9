import SsaFacts.Proofs.Coherence

/-! The constants that are found are exactly those that every model of the facts agrees on. A guess is
kept for as long as no model departs from it, so a candidate that is dropped is not constant. -/
namespace SsaFacts

open Smt

namespace Smt
variable {g : Guards} {ν : Assignment} {l : Leaf} {k : Literal}

/-- To differ from a literal is to be accepted where the two are asserted to differ. -/
theorem Assignment.accepts_ne (same : k.width = l.width) :
    ν.Accepts g (.atom .ne (.leaf l) (.literal k)) ↔
      (ν.env l).width = l.width ∧ ν.env l ≠ k.vec := by
  have formulas : (Clause.atom .ne (.leaf l) (.literal k)).formulas g =
      [.not (.rel .eq (.name l.solverName) (.const k))] := rfl
  have leaves : (Clause.atom .ne (.leaf l) (.literal k)).leaves = [l] := rfl
  have truth (width : (ν.env l).width = l.width) :
      (Formula.not (.rel .eq (.name l.solverName) (.const k))).eval ν = some true ↔ ν.env l ≠ k.vec := by
    obtain ⟨x, hx⟩ := Vec.exists_bits (width.trans same.symm)
    obtain ⟨y, hy⟩ : ∃ y : BitVec k.width, k.vec = ⟨k.width, y⟩ := ⟨_, rfl⟩
    have eval : (Formula.not (.rel .eq (.name l.solverName) (.const k))).eval ν =
        (Rel.eq.truth? (ν.env l) k.vec).map (!·) := rfl
    rw [eval, hx, hy, Rel.truth?_mk]
    simp [Rel.test]
  constructor
  · rintro ⟨width_eq, eval_eq⟩
    have width := width_eq l (by simp [leaves])
    exact ⟨width, (truth width).1 (eval_eq _ (by simp [formulas]))⟩
  · rintro ⟨width, ne⟩
    exact ⟨by simpa [leaves] using width, by simpa [formulas] using (truth width).2 ne⟩

end Smt

structure Guess.Sensible (g : Guess) (p : Program) (cs : List Clause) : Prop where
  expr_eq : g.expr = .leaf (p.plainLeaf g.value)
  width_eq : g.literal.width = p.modelWidth g.value
  mentioned : ∃ c ∈ cs, p.plainLeaf g.value ∈ c.leaves

/-- Every model of the clauses gives the value this literal. -/
def Program.Forced (p : Program) (g : Guards) (cs : List Clause) (v : ValueId) (k : Literal) : Prop :=
  ∀ ν : Assignment, ν.Satisfies g cs → ν.env (p.plainLeaf v) = k.vec

namespace Session
variable {s : Session} {p : Program} {cs : List Clause}

theorem Holds.told_opened (holds : s.Holds cs) :
    s.opened.Told (fun l => ∃ c ∈ cs, l ∈ c.leaves)
      fun ν => ν.Satisfies s.solver.config.guards cs where
  models ν := by
    have levels : s.opened.levels = Command.push.apply s.levels := levels_told .push s
    rw [levels, Assignment.models_push, holds.models]
  widths l hl _ ν hν := by
    obtain ⟨c, hc, hl⟩ := hl
    exact (hν c hc).width_eq l hl

end Session

namespace Dialogue
variable {s s' u : Session} {p : Program} {cs : List Clause} {g : Guess} {later gs : List Guess}

theorem keeps_refute (g : Guess) (later : List Guess) : Keeps Session.Extends (refute g later) :=
  quiet_extends.refute (fun _ => keeps_acknowledge nofun nofun) g later

theorem keeps_confirm (n : Nat) (gs : List Guess) : Keeps Session.Resumes (confirm n gs) :=
  confirm_of_scopes Keeps.stepwise (fun g later => keeps_inScope (keeps_refute g later)) n gs

theorem modelValues_resumes_plain {vs : List ValueId} (holds : s.Holds cs)
    (mentioned : ∀ v ∈ vs, ∃ c ∈ cs, p.plainLeaf v ∈ c.leaves) :
    s.Resumes (modelValues (vs.map fun v => .leaf (p.plainLeaf v)) s).2 := by
  rw [← Function.comp_def, ← List.map_map]
  refine modelValues_resumes fun l hl => ?_
  obtain ⟨v, hv, rfl⟩ := List.mem_map.1 hl
  obtain ⟨c, hc, hl⟩ := mentioned v hv
  exact (holds.anchored c hc _ hl).1

theorem modelValues_plain {vs : List ValueId} {values : List Literal}
    (mentioned : ∀ v ∈ vs, ∃ c ∈ cs, p.plainLeaf v ∈ c.leaves)
    (run : modelValues (vs.map fun v => .leaf (p.plainLeaf v)) (s.told .checkSat) = (.ok values, s'))
    (honest : s'.world.Honest) (model : HasModel s.levels)
    (declared : ∀ c ∈ cs, ∀ l ∈ c.leaves, l.solverName ∈ s.solver.declared)
    (widths : ∀ ν : Assignment, ν.Models s.levels → ∀ c ∈ cs, ∀ l ∈ c.leaves, (ν.env l).width = l.width) :
    ∃ ν : Assignment, ν.Models s.levels ∧
      List.Forall₂ (fun v value => value.vec = ν.env (p.plainLeaf v)) vs values := by
  have small : ∀ l ∈ vs.map p.plainLeaf, l.width ≤ 64 := by
    intro l hl
    obtain ⟨v, -, rfl⟩ := List.mem_map.1 hl
    show p.modelWidth v ≤ 64
    rcases p.modelWidth_cases v with h | h <;> rw [h] <;> decide
  have leaf : ∀ l ∈ vs.map p.plainLeaf, ∃ c ∈ cs, l ∈ c.leaves := by
    intro l hl
    obtain ⟨v, hv, rfl⟩ := List.mem_map.1 hl
    exact mentioned v hv
  have ready : ∀ l ∈ vs.map p.plainLeaf, l.solverName ∈ s.solver.declared := by
    intro l hl
    obtain ⟨c, hc, hl⟩ := leaf l hl
    exact declared c hc l hl
  have fits (ν : Assignment) (hν : ν.Models s.levels) : ∀ l ∈ vs.map p.plainLeaf,
      (ν.env l).width = l.width := by
    intro l hl
    obtain ⟨c, hc, hl⟩ := leaf l hl
    exact widths ν hν c hc l hl
  rw [← Function.comp_def, ← List.map_map] at run
  obtain ⟨ν, hν, read⟩ := modelValues_ok run honest model ready small fits
  exact ⟨ν, hν, List.forall₂_map_left_iff.1 read⟩

/-- A guess is refuted only by a model that departs from it, and the later guesses that are dropped with
it are ones that this model departs from. -/
theorem refute_ok {r : Option (List Guess)} (holds : s.Holds cs)
    (typed : Typed fun l => ∃ c ∈ cs, l ∈ c.leaves) (hg : g.Sensible p cs)
    (hlater : ∀ h ∈ later, h.Sensible p cs) (run : refute g later s.opened = (.ok r, u))
    (honest : u.world.Honest) :
    (r = none ∧ p.Forced s.solver.config.guards cs g.value g.literal) ∨
      ∃ rest, r = some rest ∧ ¬p.Forced s.solver.config.guards cs g.value g.literal ∧ rest.Sublist later ∧
        ∀ h ∈ later, p.Forced s.solver.config.guards cs h.value h.literal → h ∈ rest := by
  let guards := s.solver.config.guards
  let differ : Clause := .atom .ne (.leaf (p.plainLeaf g.value)) (.literal g.literal)
  have compared : (liftM (Talk.ofChecked (Clause.compare .ne g.expr (.literal g.literal))) :
      Dialogue Clause) s.opened = (.ok differ, s.opened) := by
    have width : (Expr.leaf (p.plainLeaf g.value)).width = (Expr.literal g.literal).width := hg.width_eq.symm
    rw [hg.expr_eq, Clause.compare, if_pos width]
    rfl
  rw [refute, run_bind_ok compared] at run
  obtain ⟨_, t, asserted, run⟩ := run_bind_eq_ok run
  obtain ⟨answer, t', checked, run⟩ := run_bind_eq_ok run
  have ext : s.opened.Extends t := (keeps_assert differ).run asserted
  obtain ⟨told, -⟩ := holds.told_opened.assert typed
    (fun l hl => by
      obtain rfl : l = p.plainLeaf g.value := by simpa [differ, Clause.leaves, Clause.exprs, Expr.leaves] using hl
      exact hg.mentioned) asserted
  have departs (ν : Assignment) : ν.Models t.levels ↔
      ν.Satisfies guards cs ∧ ν.env (p.plainLeaf g.value) ≠ g.literal.vec := by
    rw [told.models, Assignment.accepts_ne hg.width_eq]
    refine and_congr_right fun hν => and_iff_right ?_
    obtain ⟨c, hc, hl⟩ := hg.mentioned
    exact (hν c hc).width_eq _ hl
  cases answer with
  | unknown => cases run
  | unsat =>
    cases run
    obtain ⟨-, ⟨sat, -⟩ | ⟨-, noModel⟩⟩ := check_ok checked honest
    · cases sat
    · refine .inl ⟨rfl, fun ν hν => ?_⟩
      by_contra ne
      exact noModel ⟨ν, (departs ν).2 ⟨hν, ne⟩⟩
  | sat =>
    obtain ⟨values, v, read, run⟩ := run_bind_eq_ok run
    cases run
    have later_world : t'.world.Later u.world := ((keeps_modelValues _).run read).later
    obtain ⟨rfl, ⟨-, model⟩ | ⟨unsat, -⟩⟩ := check_ok checked (later_world.honest honest)
    · have exprs : later.map Guess.expr = (later.map Guess.value).map fun v => .leaf (p.plainLeaf v) := by
        rw [List.map_map]
        exact List.map_congr_left fun h hh => (hlater h hh).expr_eq
      have mentioned : ∀ v ∈ later.map Guess.value, ∃ c ∈ cs, p.plainLeaf v ∈ c.leaves := by
        intro v hv
        obtain ⟨h, hh, rfl⟩ := List.mem_map.1 hv
        exact (hlater h hh).mentioned
      rw [exprs] at read
      obtain ⟨ν, hν, values⟩ := modelValues_plain mentioned read honest model
        (fun c hc l hl => ext.declared (holds.anchored c hc l hl).1)
        (fun ν hν c hc => (((departs ν).1 hν).1 c hc).width_eq)
      obtain ⟨hν, ne⟩ := (departs ν).1 hν
      obtain ⟨length, values⟩ := List.forall₂_iff_zip.1 (List.forall₂_map_left_iff.1 values)
      have firsts := List.map_fst_zip length.le
      refine .inr ⟨_, rfl, fun forced => ne (forced ν hν), ?_, fun h hh forced => ?_⟩
      · refine (List.filter_sublist.map Prod.fst).trans ?_
        rw [firsts]
      · rw [← firsts] at hh
        obtain ⟨⟨h, value⟩, mem, rfl⟩ := List.mem_map.1 hh
        have same : h.literal = value := Literal.vec_injective ((forced ν hν).symm.trans (values mem).symm)
        exact List.mem_map.2 ⟨(h, value), List.mem_filter.2 ⟨mem, by simpa using same⟩, rfl⟩
    · cases unsat

theorem confirm_ok {steps : Nat} {out : List (ValueId × Literal)} (holds : s.Holds cs)
    (typed : Typed fun l => ∃ c ∈ cs, l ∈ c.leaves) (hgs : ∀ g ∈ gs, g.Sensible p cs)
    (enough : gs.length ≤ steps) (run : confirm steps gs s = (.ok out, s'))
    (honest : s'.world.Honest) (v : ValueId) (k : Literal) :
    (v, k) ∈ out ↔ (∃ g ∈ gs, g.value = v ∧ g.literal = k) ∧ p.Forced s.solver.config.guards cs v k := by
  induction steps generalizing gs s out with
  | zero =>
    obtain rfl : gs = [] := List.length_eq_zero_iff.1 (Nat.le_zero.1 enough)
    cases run
    simp
  | succ steps ih =>
    cases gs with
    | nil =>
      cases run
      simp
    | cons g later =>
      obtain ⟨hg, hlater⟩ := List.forall_mem_cons.1 hgs
      obtain ⟨survivors, t, entered, run⟩ := run_bind_eq_ok run
      obtain ⟨_, body, resumes, after⟩ := inScope_eq_ok (keeps_refute g later) entered
      cases survivors with
      | none =>
        obtain ⟨found, t'', confirmed, run⟩ := run_bind_eq_ok run
        cases run
        have honest' := (trans_of World.Later after ((keeps_confirm steps later).run confirmed).later).honest honest
        rcases refute_ok holds typed hg hlater body honest' with ⟨-, forced⟩ | ⟨rest, absurd, -⟩
        · have tail := ih (resumes.holds holds) hlater (Nat.le_of_succ_le_succ enough) confirmed
          rw [resumes.config_eq] at tail
          rw [List.mem_cons, tail, List.exists_mem_cons_iff]
          constructor
          · rintro (eq | ⟨mem, forced'⟩)
            · cases eq
              exact ⟨.inl ⟨rfl, rfl⟩, forced⟩
            · exact ⟨.inr mem, forced'⟩
          · rintro ⟨⟨rfl, rfl⟩ | mem, forced'⟩
            · exact .inl rfl
            · exact .inr ⟨mem, forced'⟩
        · cases absurd
      | some rest =>
        have honest' := (trans_of World.Later after ((keeps_confirm steps rest).run run).later).honest honest
        rcases refute_ok holds typed hg hlater body honest' with ⟨absurd, -⟩ | ⟨rest', eq, avoided, sub, kept⟩
        · cases absurd
        · cases eq
          have tail := ih (resumes.holds holds) (fun h hh => hlater h (sub.subset hh))
            (sub.length_le.trans (Nat.le_of_succ_le_succ enough)) run
          rw [resumes.config_eq] at tail
          rw [tail]
          refine and_congr_left fun forced => ⟨?_, ?_⟩
          · rintro ⟨h, hh, eq⟩
            exact ⟨h, List.mem_cons_of_mem g (sub.subset hh), eq⟩
          · rintro ⟨h, hh, rfl, rfl⟩
            rcases List.mem_cons.1 hh with rfl | hh
            · exact absurd forced avoided
            · exact ⟨h, kept h hh forced, rfl, rfl⟩

section
variable {candidates : List (ValueId × Expr)} {out : List (ValueId × Literal)}

def guesses (candidates : List (ValueId × Expr)) (values : List Literal) : List Guess :=
  (candidates.zip values).map fun x => { value := x.1.1, expr := x.1.2, literal := x.2 }

/-- How constants are found: the values of a model are guesses, which are confirmed or refuted. -/
theorem constants_eq_ok (run : constants candidates s = (.ok out, s')) :
    ∃ values t, check s = (.ok .sat, s.told .checkSat) ∧
      modelValues (candidates.map Prod.snd) (s.told .checkSat) = (.ok values, t) ∧
      confirm (guesses candidates values).length (guesses candidates values) t = (.ok out, s') := by
  obtain ⟨answer, t, checked, run⟩ := run_bind_eq_ok run
  obtain rfl : t = s.told .checkSat := by rw [← check_run, checked]
  by_cases answered : answer = .sat
  · subst answered
    rw [if_neg (by simp)] at run
    obtain ⟨values, t, read, confirming⟩ := run_bind_eq_ok run
    exact ⟨values, t, checked, read, confirming⟩
  · rw [if_pos answered] at run
    obtain ⟨_, t, failed, -⟩ := run_bind_eq_ok run
    cases failed

end

section
variable {candidates : List (ValueId × Expr)}
  (leaf : ∀ x ∈ candidates, x.2 = .leaf (p.plainLeaf x.1))
  (mentioned : ∀ v ∈ candidates.map Prod.fst, ∃ c ∈ cs, p.plainLeaf v ∈ c.leaves)
include leaf mentioned

theorem constants_resumes (holds : s.Holds cs) : s.Resumes (constants candidates s).2 := by
  have plain : candidates.map Prod.snd = (candidates.map Prod.fst).map fun v => .leaf (p.plainLeaf v) := by
    rw [List.map_map]
    exact List.map_congr_left leaf
  have told : s.Resumes (s.told .checkSat) := Session.resumes_told rfl
  rcases checked : check s with ⟨f | answer, t⟩
  · obtain rfl : t = s.told .checkSat := by rw [← check_run, checked]
    rw [constants, run_bind_error checked]
    exact told
  · obtain rfl : t = s.told .checkSat := by rw [← check_run, checked]
    rw [constants, run_bind_ok checked]
    by_cases answered : answer = .sat
    · rw [if_neg (by simpa using answered)]
      dsimp only
      have read := modelValues_resumes_plain (told.holds holds) mentioned
      rw [← plain] at read
      rcases values : modelValues (candidates.map Prod.snd) (s.told .checkSat) with ⟨f | vs, t⟩
      · rw [values] at read
        rw [run_bind_error values]
        exact trans_of Session.Resumes told read
      · rw [values] at read
        rw [run_bind_ok values]
        exact trans_of Session.Resumes (trans_of Session.Resumes told read) (keeps_confirm _ _ t)
    · rw [if_pos answered]
      exact told

/-- Of candidates that the clauses mention, the constants are those on which all models agree, and there
is a model. -/
theorem constants_ok {out : List (ValueId × Literal)} (holds : s.Holds cs)
    (typed : Typed fun l => ∃ c ∈ cs, l ∈ c.leaves) (run : constants candidates s = (.ok out, s'))
    (honest : s'.world.Honest) :
    (∃ ν : Assignment, ν.Satisfies s.solver.config.guards cs) ∧ ∀ v k, (v, k) ∈ out ↔
      v ∈ candidates.map Prod.fst ∧ p.Forced s.solver.config.guards cs v k := by
  have plain : candidates.map Prod.snd = (candidates.map Prod.fst).map fun v => .leaf (p.plainLeaf v) := by
    rw [List.map_map]
    exact List.map_congr_left leaf
  obtain ⟨literals, t, checked, read, confirming⟩ := constants_eq_ok run
  have after : (s.told .checkSat).world.Later t.world := ((keeps_modelValues _).run read).later
  have rest : t.world.Later s'.world := ((keeps_confirm _ _).run confirming).later
  obtain ⟨-, ⟨-, model⟩ | ⟨unsat, -⟩⟩ := check_ok checked (after.honest (rest.honest honest))
  swap
  · cases unsat
  have told : s.Resumes (s.told .checkSat) := Session.resumes_told rfl
  have resumes := modelValues_resumes_plain (told.holds holds) mentioned
  rw [plain] at read
  rw [read] at resumes
  replace resumes : s.Resumes t := trans_of Session.Resumes told resumes
  obtain ⟨ν, hν, values⟩ := modelValues_plain mentioned read (rest.honest honest) model
    (fun c hc l hl => (holds.anchored c hc l hl).1)
    (fun ν hν c hc => (((holds.models ν).1 hν) c hc).width_eq)
  replace hν := (holds.models ν).1 hν
  obtain ⟨length, values⟩ := List.forall₂_iff_zip.1 (List.forall₂_map_left_iff.1 values)
  refine ⟨⟨ν, hν⟩, fun v k => ?_⟩
  have sensible : ∀ g ∈ guesses candidates literals, g.Sensible p cs := by
    intro g hg
    obtain ⟨⟨x, literal⟩, mem, rfl⟩ := List.mem_map.1 hg
    have hx : x ∈ candidates := (List.of_mem_zip mem).1
    obtain ⟨c, hc, hl⟩ := mentioned x.1 (List.mem_map_of_mem hx)
    refine ⟨leaf x hx, ?_, c, hc, hl⟩
    have width : literal.vec.width = p.modelWidth x.1 := by
      rw [values mem]
      exact (hν c hc).width_eq _ hl
    exact width
  have confirmed := confirm_ok (resumes.holds holds) typed sensible le_rfl confirming honest v k
  rw [resumes.config_eq] at confirmed
  rw [confirmed]
  refine and_congr_left fun forced => ⟨?_, ?_⟩
  · rintro ⟨g, hg, rfl, rfl⟩
    obtain ⟨⟨x, literal⟩, mem, rfl⟩ := List.mem_map.1 hg
    exact List.mem_map_of_mem (List.of_mem_zip mem).1
  · intro hv
    rw [← List.map_fst_zip length.le, List.map_map] at hv
    obtain ⟨⟨x, literal⟩, mem, rfl⟩ := List.mem_map.1 hv
    have same : literal = k := Literal.vec_injective ((values mem).trans (forced ν hν))
    exact ⟨_, List.mem_map.2 ⟨(x, literal), mem, rfl⟩, rfl, same⟩

end

theorem modelValues_widths {es : List Expr} {values : List Literal}
    (run : modelValues es s = (.ok values, s')) : ∀ x ∈ es.zip values, x.2.width = x.1.width := by
  have zipped {pairs : List (Sexp × Sexp)}
      (read : List.Forall₂ (fun x value => readLiteral x.2.width x.1.2 = .ok value) (pairs.zip es) values) :
      ∀ x ∈ es.zip values, x.2.width = x.1.width := by
    clear run
    induction es generalizing pairs values with
    | nil => simp
    | cons e es ih =>
      cases pairs with
      | nil =>
        cases read
        simp
      | cons pair pairs =>
        cases read with
        | cons first read => simpa using ⟨width_of_readLiteral first, fun e l => ih read (e, l)⟩
  rcases modelValues_eq_ok run with ⟨rfl, -, -⟩ | ⟨-, t, -, read, -⟩
  · simp
  · obtain ⟨items, pairs, -, -, read⟩ := readModel_ok read
    exact zipped read

theorem refute_subset {rest : List Guess} (run : refute g later s = (.ok (some rest), s')) :
    rest ⊆ later := by
  obtain ⟨c, t₁, -, run⟩ := run_bind_eq_ok run
  obtain ⟨_, t₂, -, run⟩ := run_bind_eq_ok run
  obtain ⟨answer, t₃, -, run⟩ := run_bind_eq_ok run
  cases answer with
  | unsat => cases run
  | unknown => cases run
  | sat =>
    obtain ⟨values, t₄, -, run⟩ := run_bind_eq_ok run
    cases run
    intro h hh
    obtain ⟨⟨h, value⟩, mem, rfl⟩ := List.mem_map.1 hh
    exact (List.of_mem_zip (List.mem_filter.1 mem).1).1

theorem confirm_subset {steps : Nat} {out : List (ValueId × Literal)}
    (run : confirm steps gs s = (.ok out, s')) :
    ∀ x ∈ out, ∃ g ∈ gs, g.value = x.1 ∧ g.literal = x.2 := by
  induction steps generalizing gs s out with
  | zero =>
    cases run
    simp
  | succ steps ih =>
    cases gs with
    | nil =>
      cases run
      simp
    | cons g later =>
      obtain ⟨survivors, t, entered, run⟩ := run_bind_eq_ok run
      cases survivors with
      | none =>
        obtain ⟨found, t', confirmed, run⟩ := run_bind_eq_ok run
        cases run
        intro x hx
        rcases List.mem_cons.1 hx with rfl | hx
        · exact ⟨g, by simp, rfl, rfl⟩
        · obtain ⟨h, hh, eq⟩ := ih confirmed x hx
          exact ⟨h, by simp [hh], eq⟩
      | some rest =>
        obtain ⟨_, body, -⟩ := inScope_eq_ok (keeps_refute g later) entered
        intro x hx
        obtain ⟨h, hh, eq⟩ := ih run x hx
        exact ⟨h, List.mem_cons_of_mem g (refute_subset body hh), eq⟩

theorem constants_subset {candidates : List (ValueId × Expr)} {out : List (ValueId × Literal)}
    (run : constants candidates s = (.ok out, s')) :
    ∀ x ∈ out, ∃ e, (x.1, e) ∈ candidates ∧ x.2.width = e.width := by
  obtain ⟨literals, t, -, read, confirming⟩ := constants_eq_ok run
  intro x hx
  obtain ⟨g, hg, value, literal⟩ := confirm_subset confirming x hx
  obtain ⟨⟨⟨v, e⟩, l⟩, mem, rfl⟩ := List.mem_map.1 hg
  cases value
  cases literal
  refine ⟨e, (List.of_mem_zip mem).1, ?_⟩
  have zipped := List.mem_map_of_mem (f := Prod.map Prod.snd id) mem
  rw [← List.zip_map_left] at zipped
  exact modelValues_widths read _ zipped

end Dialogue

namespace Classes
variable {c c' : Classes} {out : List (ValueId × Literal)}

theorem identify_eq_ok {a b : Node} {ns ns' : List Notice} (run : c.identify a b ns = (.ok c', ns')) :
    c' = (c.unite a b).1 := by
  unfold identify at run
  rcases hu : c.unite a b with ⟨d, conflict⟩
  rw [hu] at run
  cases conflict with
  | none =>
    cases run
    rfl
  | some pair =>
    obtain ⟨_, ns₁, -, run⟩ := run_bind_eq_ok run
    cases run
    rfl

theorem joinsAll_of_identify {ns ns' : List Notice} (rooted : c.Rooted)
    (run : (out.foldlM (fun classes (v, l) => classes.identify (.value v) (.literal l)) c : Noted Classes)
      ns = (.ok c', ns')) :
    JoinsAll c (out.map fun x => (.value x.1, .literal x.2)) c' := by
  induction out generalizing c ns with
  | nil =>
    cases run
    exact .nil rooted
  | cons x rest ih =>
    rw [List.foldlM_cons] at run
    obtain ⟨d, ns₁, first, run⟩ := run_bind_eq_ok run
    have joins := joins_unite rooted (.value x.1) (.literal x.2)
    rw [← identify_eq_ok first] at joins
    exact .cons joins (ih joins.rooted run)

/-- What joining a value with a literal does where they are not in conflict. -/
theorem Joins.bind {v : ValueId} {l : Literal} {d : Classes} (rooted : c.Rooted)
    (free : c.root (.value v) = .value v ∨ c.root (.value v) = .literal l)
    (joins : c.Joins (.value v) (.literal l) d) (n : Node) :
    d.root n = if c.root n = .value v then .literal l else c.root n := by
  cases joins with
  | same h roots =>
    rw [roots.root_eq, if_neg]
    intro hn
    have top := rooted.root_root n
    rw [hn, h, root_literal] at top
    cases top
  | apart ha hb ne roots =>
    rw [root_literal] at hb
    cases hb
    rcases free with free | free <;> rw [ha] at free <;> cases free
    exact absurd rfl ne
  | moved ends _ root_eq =>
    rcases ends with ⟨ha, hb⟩ | ⟨hb, -⟩
    · rw [root_literal] at hb
      rcases free with free | free <;> rw [ha] at free <;> cases free
      rw [root_eq, hb]
    · rw [root_literal] at hb
      cases hb

/-- Binding constants to representatives adds these constants and nothing else. -/
theorem JoinsAll.root_eq_literal_iff (rooted : c.Rooted)
    (joined : JoinsAll c (out.map fun x => (.value x.1, .literal x.2)) c')
    (free : ∀ x ∈ out, c.root (.value x.1) = .value x.1 ∨ c.root (.value x.1) = .literal x.2)
    (functional : ∀ v k l, (v, k) ∈ out → (v, l) ∈ out → k = l) (n : Node) (k : Literal) :
    c'.root n = .literal k ↔ c.root n = .literal k ∨ ∃ r, c.root n = .value r ∧ (r, k) ∈ out := by
  induction out generalizing c with
  | nil =>
    cases joined
    simp
  | cons x rest ih =>
    obtain ⟨v, l⟩ := x
    cases joined with
    | @cons _ d _ _ _ _ first joined =>
      have step := first.bind rooted (free (v, l) (by simp))
      have free' : ∀ x ∈ rest, d.root (.value x.1) = .value x.1 ∨ d.root (.value x.1) = .literal x.2 := by
        intro x hx
        rw [step]
        rcases free x (by simp [hx]) with top | bound
        · by_cases same : x.1 = v
          · have eq := functional v l x.2 (by simp) (by simp [← same, hx])
            exact .inr (by rw [top, same, if_pos rfl, eq])
          · exact .inl (by rw [top, if_neg (by simpa using same)])
        · exact .inr (by rw [bound, if_neg nofun])
      have functional' := fun v k l hk hl =>
        functional v k l (List.mem_cons_of_mem _ hk) (List.mem_cons_of_mem _ hl)
      rw [ih first.rooted joined free' functional', step]
      by_cases hn : c.root n = .value v
      · have unique : l = k ↔ (v, k) ∈ (v, l) :: rest := by
          constructor
          · rintro rfl
            simp
          · exact fun hk => functional v l k (by simp) hk
        simp only [hn, if_true, Node.literal.injEq, Node.value.injEq, reduceCtorEq, false_and, false_or,
          exists_false, or_false, exists_eq_left']
        exact unique
      · have other (r : ValueId) (hr : c.root n = .value r) : (r, k) ∈ (v, l) :: rest ↔ (r, k) ∈ rest := by
          have ne : r ≠ v := fun eq => hn (eq ▸ hr)
          simp [ne]
        rw [if_neg hn]
        exact or_congr_right (exists_congr fun r => and_congr_right fun hr => (other r hr).symm)

end Classes
end SsaFacts
