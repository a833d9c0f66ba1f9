import SsaFacts.Proofs.Answers
import SsaFacts.Proofs.Reduction

/-! What a solver holds. Once a solver was told some clauses its models are those of the clauses, and no
question that is asked later changes that. -/
namespace SsaFacts

open Smt

namespace Smt
variable {g : Guards} {op : BinOp} {w : Nat} {r : Expr} {a b : Term} {f : Formula} {n : String}

@[simp] theorem names_amount : (amount op w r b).names = b.names := by
  unfold amount
  split <;> simp [Term.names]

theorem names_guard? (h : guard? g op a b (.app (fnOf op) a b) = some f) (hn : n ∈ f.names) :
    n ∈ a.names ∨ n ∈ b.names := by
  unfold guard? at h
  split at h
  · split at h
    · cases h
      exact .inr (by simpa [Formula.names, Term.names] using hn)
    · cases h
  · split at h
    · cases op <;> simp only [overflowGuard] at h <;> cases h <;>
        simp [Formula.names, Term.names, overflowGuard.sameSign, signBit] at hn <;> tauto
    · cases h

end Smt

namespace Expr
variable {g : Guards} {e : Expr} {l : Leaf} {n : String}

theorem leaf_mem_mentions : .leaf l ∈ e.mentions g ↔ l ∈ e.leaves := by
  induction e with
  | literal k => simp [mentions, leaves]
  | leaf k => simp [mentions, leaves]
  | unary op e ih => exact ih
  | binary op a b iha ihb =>
    rcases shape_cases g op a b with ⟨hs, -, k, rfl, -⟩ | ⟨hs, -, k, rfl, -⟩ |
      ⟨m, hs, -, k, rfl, -⟩ | ⟨m, hs, -, k, rfl, -⟩ | hs <;> simp [mentions, leaves, hs, iha, ihb]

theorem names_encode (h : n ∈ (e.encode g).names) : ∃ l ∈ e.leaves, l.solverName = n := by
  induction e with
  | literal k => simp [encode, Term.names] at h
  | leaf k =>
    obtain rfl : n = k.solverName := by simpa [encode, Term.names] using h
    exact ⟨k, by simp [leaves], rfl⟩
  | unary op e ih =>
    refine ih ?_
    cases op with
    | trunc => exact h
    | zext | sext =>
      rw [encode] at h
      split at h <;> exact h
  | binary op a b iha ihb =>
    have either : n ∈ (a.encode g).names ∨ n ∈ (b.encode g).names := by
      rcases shape_cases g op a b with ⟨hs, -⟩ | ⟨hs, -⟩ | ⟨m, hs, -⟩ | ⟨m, hs, -⟩ | hs <;>
        simp [encode, Term.names, hs] at h <;> simp [h]
    rcases either with h | h
    · obtain ⟨l, hl, name⟩ := iha h
      exact ⟨l, by simp [leaves, hl], name⟩
    · obtain ⟨l, hl, name⟩ := ihb h
      exact ⟨l, by simp [leaves, hl], name⟩

theorem names_guards {f : Formula} (hf : f ∈ e.guards g) (hn : n ∈ f.names) :
    ∃ l ∈ e.leaves, l.solverName = n := by
  induction e with
  | literal k => cases hf
  | leaf k => cases hf
  | unary op e ih => exact ih hf
  | binary op a b iha ihb =>
    have left : (∃ l ∈ a.leaves, l.solverName = n) → ∃ l ∈ (binary op a b).leaves, l.solverName = n := by
      rintro ⟨l, hl, name⟩
      exact ⟨l, by simp [leaves, hl], name⟩
    have right : (∃ l ∈ b.leaves, l.solverName = n) → ∃ l ∈ (binary op a b).leaves, l.solverName = n := by
      rintro ⟨l, hl, name⟩
      exact ⟨l, by simp [leaves, hl], name⟩
    rw [guards] at hf
    split at hf
    · exact left (iha hf)
    · exact left (iha hf)
    · exact right (ihb hf)
    · exact right (ihb hf)
    · rcases List.mem_append.1 hf with hf | hf
      · rcases List.mem_append.1 hf with hf | hf
        · exact left (iha hf)
        · exact right (ihb hf)
      · split at hf
        · rcases names_guard? (Option.mem_toList.1 hf) hn with hn | hn
          · exact left (names_encode hn)
          · exact right (names_encode (by simpa using hn))
        · cases hf

end Expr

namespace Clause
variable {g : Guards} {c : Clause} {l : Leaf} {n : String}

/-- All that is asserted for a clause. -/
def formulas (g : Guards) (c : Clause) : List Formula := c.encode g :: c.guards g

theorem leaf_mem_mentions : .leaf l ∈ c.mentions g ↔ l ∈ c.leaves := by
  simp [mentions, leaves, Expr.leaf_mem_mentions]

theorem names_encode (h : n ∈ (c.encode g).names) : ∃ e ∈ c.exprs, n ∈ (e.encode g).names := by
  induction c with
  | atom pred l r =>
    have either : n ∈ (l.encode g).names ∨ n ∈ (r.encode g).names := by
      cases pred <;> simpa [encode, comparison, Formula.names] using h
    simpa [exprs] using either
  | not c ih => exact ih h
  | and a b iha ihb | or a b iha ihb | xor a b iha ihb =>
    rcases List.mem_append.1 h with h | h
    · obtain ⟨e, he, hn⟩ := iha h
      exact ⟨e, by simp [exprs, he], hn⟩
    · obtain ⟨e, he, hn⟩ := ihb h
      exact ⟨e, by simp [exprs, he], hn⟩

theorem names_formulas {f : Formula} (hf : f ∈ c.formulas g) (hn : n ∈ f.names) :
    ∃ l ∈ c.leaves, l.solverName = n := by
  have some_expr : ∃ e ∈ c.exprs, ∃ l ∈ e.leaves, l.solverName = n := by
    rcases List.mem_cons.1 hf with rfl | hf
    · obtain ⟨e, he, hn⟩ := names_encode hn
      exact ⟨e, he, Expr.names_encode hn⟩
    · obtain ⟨e, he, hf⟩ := List.mem_flatMap.1 hf
      exact ⟨e, he, Expr.names_guards hf hn⟩
  obtain ⟨e, he, l, hl, name⟩ := some_expr
  exact ⟨l, List.mem_flatMap.2 ⟨e, he, hl⟩, name⟩

end Clause

namespace Smt

/-- Every leaf of the clause has its width, and all that is asserted for the clause is true. -/
structure Assignment.Accepts (ν : Assignment) (g : Guards) (c : Clause) : Prop where
  width_eq : ∀ l ∈ c.leaves, (ν.env l).width = l.width
  eval_eq : ∀ f ∈ c.formulas g, f.eval ν = some true

def Assignment.Satisfies (ν : Assignment) (g : Guards) (cs : List Clause) : Prop :=
  ∀ c ∈ cs, ν.Accepts g c

def Mention.Fits (ν : Assignment) : Mention → Prop
  | leaf l => (ν.env l).width = l.width
  | const _ => True

def Mention.Ready (s : Session) : Mention → Prop
  | leaf l => l.solverName ∈ s.solver.declared
  | const _ => True

end Smt

theorem Session.Extends.ready {s s' : Session} {m : Mention} (h : s.Extends s') (hm : m.Ready s) :
    m.Ready s' := by
  cases m with
  | leaf l => exact h.declared hm
  | const k => trivial

namespace Dialogue
variable {s s' : Session}

theorem ready_of_prepare {m : Mention} (run : prepare m s = (.ok (), s')) : m.Ready s' := by
  cases m with
  | const k => trivial
  | leaf l =>
    rcases declare_eq_ok run with ⟨mem, rfl⟩ | ⟨-, rfl⟩
    · exact mem
    · exact List.mem_cons_self

theorem ready_of_prepareAll {ms : List Mention} (run : ms.forM prepare s = (.ok (), s')) :
    ∀ m ∈ ms, m.Ready s' := by
  induction ms generalizing s with
  | nil => simp
  | cons m ms ih =>
    obtain ⟨_, t, first, rest⟩ := run_bind_eq_ok run
    have extended : t.Extends s' := (Keeps.forM fun m _ => keeps_prepare m).run rest
    exact List.forall_mem_cons.2 ⟨extended.ready (ready_of_prepare first), ih rest⟩

theorem declared_of_assert {c : Clause} (run : assert c s = (.ok (), s')) :
    ∀ l ∈ c.leaves, l.solverName ∈ s'.solver.declared := by
  have solver : solver s = (.ok s.solver, s) := rfl
  rw [assert, run_bind_ok solver] at run
  obtain ⟨_, t, prepared, asserted⟩ := run_bind_eq_ok run
  have keeps : Keeps Session.Extends ((c.formulas s.solver.config.guards).forM fun f => acknowledge (.assert f)) :=
    .forM fun f _ => keeps_acknowledge nofun nofun
  have extended : t.Extends s' := keeps.run asserted
  intro l hl
  exact extended.declared (ready_of_prepareAll prepared (.leaf l) (Clause.leaf_mem_mentions.2 hl))

end Dialogue

/-- Leaves of one name have one width. -/
def Typed (U : Leaf → Prop) : Prop := ∀ l m, U l → U m → l.solverName = m.solverName → l.width = m.width

namespace Session
variable {s s' : Session} {U : Leaf → Prop} {P : Assignment → Prop}

/-- The models of the levels are those that `P` describes, and a leaf that is declared has its width. -/
structure Told (s : Session) (U : Leaf → Prop) (P : Assignment → Prop) : Prop where
  models : ∀ ν : Assignment, ν.Models s.levels ↔ P ν
  widths : ∀ l, U l → l.solverName ∈ s.solver.declared → ∀ ν, P ν → (ν.env l).width = l.width

namespace Told

theorem declare (told : s.Told U P) (typed : Typed U) {l : Leaf} (hl : U l)
    (run : Dialogue.declare l.solverName l.width s = (.ok (), s')) :
    s'.Told U fun ν => P ν ∧ (ν.env l).width = l.width := by
  rcases Dialogue.declare_eq_ok run with ⟨mem, rfl⟩ | ⟨-, rfl⟩
  · refine ⟨fun ν => ?_, fun m hm hn ν h => told.widths m hm hn ν h.1⟩
    rw [told.models]
    exact ⟨fun h => ⟨h, told.widths l hl mem ν h⟩, fun h => h.1⟩
  · refine ⟨fun ν => ?_, fun m hm hn ν h => ?_⟩
    · rw [levels_named, levels_told, Assignment.models_declare s.levels_ne_nil, told.models]
      rfl
    · rcases List.mem_cons.1 hn with same | hn
      · rw [typed m l hm hl same, ← h.2, Assignment.env, Assignment.env, same]
      · exact told.widths m hm hn ν h.1

theorem assertFormula (told : s.Told U P) {f : Formula}
    (run : Dialogue.acknowledge (.assert f) s = (.ok (), s')) :
    s'.Told U fun ν => P ν ∧ f.eval ν = some true := by
  obtain rfl := Dialogue.acknowledge_eq_ok run
  refine ⟨fun ν => ?_, fun m hm hn ν h => told.widths m hm hn ν h.1⟩
  rw [levels_told, Assignment.models_assert s.levels_ne_nil, told.models]

theorem congr (told : s.Told U P) {Q : Assignment → Prop} (h : ∀ ν, P ν ↔ Q ν) : s.Told U Q where
  models ν := (told.models ν).trans (h ν)
  widths l hl hn ν hν := told.widths l hl hn ν ((h ν).2 hν)

theorem prepare (told : s.Told U P) (typed : Typed U) {m : Mention} (hm : ∀ l, m = .leaf l → U l)
    (run : Dialogue.prepare m s = (.ok (), s')) : s'.Told U fun ν => P ν ∧ m.Fits ν := by
  cases m with
  | leaf l => exact told.declare typed (hm l rfl) run
  | const k =>
    rw [Dialogue.prepare] at run
    split at run <;> cases run
    exact told.congr fun ν => (and_iff_left trivial).symm

theorem prepareAll (told : s.Told U P) (typed : Typed U) {ms : List Mention}
    (hms : ∀ l, .leaf l ∈ ms → U l) (run : ms.forM Dialogue.prepare s = (.ok (), s')) :
    s'.Told U fun ν => P ν ∧ ∀ m ∈ ms, m.Fits ν := by
  induction ms generalizing s P with
  | nil =>
    cases run
    exact told.congr (by simp)
  | cons m ms ih =>
    obtain ⟨_, t, first, rest⟩ := run_bind_eq_ok run
    have told₁ := told.prepare typed (fun l hl => hms l (by simp [hl])) first
    have told₂ := ih told₁ (fun l hl => hms l (by simp [hl])) rest
    refine told₂.congr fun ν => ?_
    rw [List.forall_mem_cons, and_assoc]

theorem assertFormulas (told : s.Told U P) {fs : List Formula}
    (run : fs.forM (fun f => Dialogue.acknowledge (.assert f)) s = (.ok (), s')) :
    s'.Told U fun ν => P ν ∧ ∀ f ∈ fs, f.eval ν = some true := by
  induction fs generalizing s P with
  | nil =>
    cases run
    exact told.congr (by simp)
  | cons f fs ih =>
    obtain ⟨_, t, first, rest⟩ := run_bind_eq_ok run
    refine (ih (told.assertFormula first) rest).congr fun ν => ?_
    rw [List.forall_mem_cons, and_assoc]

theorem assert (told : s.Told U P) (typed : Typed U) {c : Clause} (hc : ∀ l ∈ c.leaves, U l)
    (run : Dialogue.assert c s = (.ok (), s')) :
    s'.Told U (fun ν => P ν ∧ ν.Accepts s.solver.config.guards c) ∧
      ∀ l ∈ c.leaves, l.solverName ∈ s'.solver.declared := by
  refine ⟨?_, Dialogue.declared_of_assert run⟩
  have solver : Dialogue.solver s = (.ok s.solver, s) := rfl
  rw [Dialogue.assert, run_bind_ok solver] at run
  obtain ⟨_, t, prepared, asserted⟩ := run_bind_eq_ok run
  have told₁ := told.prepareAll typed (fun l hl => hc l (Clause.leaf_mem_mentions.1 hl)) prepared
  replace asserted : (c.formulas s.solver.config.guards).forM
    (fun f => Dialogue.acknowledge (.assert f)) t = (.ok (), s') := asserted
  refine (told₁.assertFormulas asserted).congr fun ν => ?_
  have fits : (∀ m ∈ c.mentions s.solver.config.guards, m.Fits ν) ↔
      ∀ l ∈ c.leaves, (ν.env l).width = l.width := by
    constructor
    · intro h l hl
      exact h _ (Clause.leaf_mem_mentions.2 hl)
    · intro h m hm
      cases m with
      | leaf l => exact h l (Clause.leaf_mem_mentions.1 hm)
      | const k => trivial
  rw [fits, and_assoc]
  exact and_congr_right fun _ => ⟨fun h => ⟨h.1, h.2⟩, fun h => ⟨h.1, h.2⟩⟩

theorem assertAll (told : s.Told U P) (typed : Typed U) {cs : List Clause}
    (hcs : ∀ c ∈ cs, ∀ l ∈ c.leaves, U l) (run : Dialogue.assertAll cs s = (.ok (), s')) :
    s'.Told U (fun ν => P ν ∧ ν.Satisfies s.solver.config.guards cs) ∧
      ∀ c ∈ cs, ∀ l ∈ c.leaves, l.solverName ∈ s'.solver.declared := by
  induction cs generalizing s P with
  | nil =>
    cases run
    exact ⟨told.congr (by simp [Assignment.Satisfies]), by simp⟩
  | cons c cs ih =>
    obtain ⟨_, t, first, rest⟩ := run_bind_eq_ok run
    have extends₁ : s.Extends t := (Dialogue.keeps_assert c).run first
    have extends₂ : t.Extends s' := (Dialogue.keeps_assertAll cs).run rest
    obtain ⟨told₁, declared₁⟩ := told.assert typed (hcs c (by simp)) first
    obtain ⟨told₂, declared₂⟩ := ih told₁ (fun c hc => hcs c (by simp [hc])) rest
    rw [extends₁.config_eq] at told₂
    refine ⟨told₂.congr fun ν => ?_, List.forall_mem_cons.2 ⟨fun l hl => ?_, declared₂⟩⟩
    · rw [Assignment.Satisfies, Assignment.Satisfies, List.forall_mem_cons, and_assoc]
    · exact extends₂.declared (declared₁ l hl)

end Told

/-- Only the outermost level is open. The solver was told of the names `ns` and of the formulas `fs`, the
latest first, and it recorded the names. -/
structure Ground (s : Session) (ns : List String) (fs : List Formula) : Prop where
  scopes_eq : s.solver.scopes = [ns]
  declared_eq : s.solver.declared = ns
  levels_eq : ∃ ds : List (String × Nat), ds.map Prod.fst = ns ∧ s.levels = [⟨ds, fs⟩]

namespace Ground
variable {ns : List String} {fs : List Formula}

theorem declare (ground : s.Ground ns fs) {n : String} {w : Nat}
    (run : Dialogue.declare n w s = (.ok (), s')) :
    ∃ ns', s'.Ground ns' fs ∧ ∀ m, m ∈ ns' ↔ m ∈ ns ∨ m = n := by
  rcases Dialogue.declare_eq_ok run with ⟨mem, rfl⟩ | ⟨-, rfl⟩
  · rw [ground.declared_eq] at mem
    refine ⟨ns, ground, fun m => (or_iff_left_of_imp ?_).symm⟩
    rintro rfl
    exact mem
  · obtain ⟨ds, names, levels⟩ := ground.levels_eq
    refine ⟨n :: ns, ⟨?_, ?_, (n, w) :: ds, by rw [List.map_cons, names], ?_⟩, fun m => ?_⟩
    · simp [named, told, ground.scopes_eq]
    · simp [named, told, ground.declared_eq]
    · rw [levels_named, levels_told, levels]
      rfl
    · rw [List.mem_cons, or_comm]

theorem prepareAll (ground : s.Ground ns fs) {ms : List Mention}
    (run : ms.forM Dialogue.prepare s = (.ok (), s')) :
    ∃ ns', s'.Ground ns' fs ∧ ∀ m, m ∈ ns' ↔ m ∈ ns ∨ ∃ l, .leaf l ∈ ms ∧ l.solverName = m := by
  induction ms generalizing s ns with
  | nil =>
    cases run
    exact ⟨ns, ground, by simp⟩
  | cons m ms ih =>
    obtain ⟨_, t, first, rest⟩ := run_bind_eq_ok run
    cases m with
    | leaf l =>
      obtain ⟨ns₁, ground₁, names₁⟩ := ground.declare first
      obtain ⟨ns₂, ground₂, names₂⟩ := ih ground₁ rest
      refine ⟨ns₂, ground₂, fun m => ?_⟩
      rw [names₂, names₁, or_assoc]
      refine or_congr_right ?_
      simp only [List.mem_cons, Mention.leaf.injEq, or_and_right, exists_or, exists_eq_left]
      exact or_congr_left eq_comm
    | const k =>
      have same : t = s := by
        rw [Dialogue.prepare] at first
        split at first <;> cases first
        rfl
      subst same
      obtain ⟨ns₂, ground₂, names₂⟩ := ih ground rest
      exact ⟨ns₂, ground₂, fun m => by simpa using names₂ m⟩

theorem assertFormula (ground : s.Ground ns fs) {f : Formula}
    (run : Dialogue.acknowledge (.assert f) s = (.ok (), s')) : s'.Ground ns (f :: fs) := by
  obtain rfl := Dialogue.acknowledge_eq_ok run
  obtain ⟨ds, names, levels⟩ := ground.levels_eq
  refine ⟨ground.scopes_eq, ground.declared_eq, ds, names, ?_⟩
  rw [levels_told, levels]
  rfl

theorem assertFormulas (ground : s.Ground ns fs) {gs : List Formula}
    (run : gs.forM (fun f => Dialogue.acknowledge (.assert f)) s = (.ok (), s')) :
    s'.Ground ns (gs.reverse ++ fs) := by
  induction gs generalizing s fs with
  | nil =>
    cases run
    exact ground
  | cons f gs ih =>
    obtain ⟨_, t, first, rest⟩ := run_bind_eq_ok run
    simpa using ih (ground.assertFormula first) rest

theorem assert (ground : s.Ground ns fs) {c : Clause} (run : Dialogue.assert c s = (.ok (), s')) :
    ∃ ns', s'.Ground ns' ((c.formulas s.solver.config.guards).reverse ++ fs) ∧
      ∀ m, m ∈ ns' ↔ m ∈ ns ∨ ∃ l ∈ c.leaves, l.solverName = m := by
  have solver : Dialogue.solver s = (.ok s.solver, s) := rfl
  rw [Dialogue.assert, run_bind_ok solver] at run
  obtain ⟨_, t, prepared, asserted⟩ := run_bind_eq_ok run
  obtain ⟨ns', ground', names⟩ := ground.prepareAll prepared
  simp only [Clause.leaf_mem_mentions] at names
  replace asserted : (c.formulas s.solver.config.guards).forM
    (fun f => Dialogue.acknowledge (.assert f)) t = (.ok (), s') := asserted
  exact ⟨ns', ground'.assertFormulas asserted, names⟩

theorem assertAll (ground : s.Ground ns fs) {cs : List Clause}
    (run : Dialogue.assertAll cs s = (.ok (), s')) :
    ∃ ns', s'.Ground ns' ((cs.flatMap (Clause.formulas s.solver.config.guards)).reverse ++ fs) ∧
      ∀ m, m ∈ ns' ↔ m ∈ ns ∨ ∃ c ∈ cs, ∃ l ∈ c.leaves, l.solverName = m := by
  induction cs generalizing s ns fs with
  | nil =>
    cases run
    exact ⟨ns, ground, by simp⟩
  | cons c cs ih =>
    obtain ⟨_, t, first, rest⟩ := run_bind_eq_ok run
    have config : t.solver.config = s.solver.config := ((Dialogue.keeps_assert c).run first).config_eq
    obtain ⟨ns₁, ground₁, names₁⟩ := ground.assert first
    obtain ⟨ns₂, ground₂, names₂⟩ := ih ground₁ rest
    rw [config] at ground₂
    refine ⟨ns₂, by simpa using ground₂, fun m => ?_⟩
    rw [names₂, names₁, or_assoc, List.exists_mem_cons_iff]

end Ground

/-- Only the outermost level is open, and it has the names and the formulas of the clauses. -/
def Grounded (s : Session) (cs : List Clause) : Prop :=
  ∃ ns, s.Ground ns (cs.flatMap (Clause.formulas s.solver.config.guards)).reverse ∧
    ∀ n, n ∈ ns ↔ ∃ c ∈ cs, ∃ l ∈ c.leaves, l.solverName = n

/-- The models of the levels are those of the clauses, whose names stay declared. If scopes are granted,
nothing else is declared or asserted. -/
structure Holds (s : Session) (cs : List Clause) : Prop where
  models : ∀ ν : Assignment, ν.Models s.levels ↔ ν.Satisfies s.solver.config.guards cs
  anchored : ∀ c ∈ cs, ∀ l ∈ c.leaves, s.Anchored l.solverName
  grounded : s.world.host.GrantsScopes → s.Grounded cs

theorem Resumes.holds {cs : List Clause} (h : s.Resumes s') (holds : s.Holds cs) : s'.Holds cs where
  models ν := by rw [h.models, holds.models, h.config_eq]
  anchored c hc l hl := h.anchored _ (holds.anchored c hc l hl)
  grounded granted := by
    rw [h.later.host_eq] at granted
    obtain ⟨solver, levels⟩ := h.restored granted
    obtain ⟨ns, ⟨scopes, declared, told⟩, names⟩ := holds.grounded granted
    rw [← solver] at scopes declared
    rw [← levels] at told
    rw [Grounded, h.config_eq]
    exact ⟨ns, ⟨scopes, declared, told⟩, names⟩

structure Fresh (s : Session) : Prop where
  levels_eq : s.levels = [{}]
  declared_eq : s.solver.declared = []
  scopes_eq : s.solver.scopes = [[]]

theorem Fresh.told (h : s.Fresh) (U : Leaf → Prop) : s.Told U fun _ => True where
  models ν := by simpa [Assignment.Models, h.levels_eq] using ν.meets_empty
  widths l _ hn := by simp [h.declared_eq] at hn

theorem Fresh.ground (h : s.Fresh) : s.Ground [] [] := ⟨h.scopes_eq, h.declared_eq, [], rfl, h.levels_eq⟩

theorem Fresh.anchored (h : s.Fresh) (ext : s.Extends s') {n : String} (hn : n ∈ s'.solver.declared) :
    s'.Anchored n := by
  obtain ⟨added, eq, -⟩ := ext.scopes [] [] h.scopes_eq
  exact ⟨hn, [], added ++ [], eq, by simp⟩

end Session

namespace Dialogue
variable {s s' : Session} {e : Engine}

theorem load_eq_ok (run : load e s = (.ok (), s')) :
    ∃ t, assertAll e.facts s = (.ok (), t) ∧ check t = (.ok .sat, s') := by
  obtain ⟨_, t, asserted, rest⟩ := run_bind_eq_ok run
  obtain ⟨answer, t', checked, rest⟩ := run_bind_eq_ok rest
  cases answer with
  | sat =>
    cases rest
    exact ⟨t, asserted, checked⟩
  | unsat =>
    obtain ⟨error, t'', -, failed⟩ := run_bind_eq_ok rest
    cases failed
  | unknown => cases rest

theorem load_ok (fresh : s.Fresh) (typed : Typed fun l => ∃ c ∈ e.facts, l ∈ c.leaves)
    (run : load e s = (.ok (), s')) :
    s.world.Later s'.world ∧ s'.solver.config = s.solver.config ∧ s'.Holds e.facts := by
  obtain ⟨t, asserted, checked⟩ := load_eq_ok run
  have ext : s.Extends t := (keeps_assertAll e.facts).run asserted
  obtain ⟨told, declared⟩ := (fresh.told _).assertAll typed (fun c hc l hl => ⟨c, hc, hl⟩) asserted
  obtain ⟨ns, ground, names⟩ := fresh.ground.assertAll asserted
  obtain rfl : s' = t.told .checkSat := by rw [← check_run, checked]
  refine ⟨trans_of World.Later ext.later (World.later_told _ _), ext.config_eq, fun ν => ?_,
    fun c hc l hl => fresh.anchored ext (declared c hc l hl), fun _ => ⟨ns, ?_, by simpa using names⟩⟩
  · rw [Session.levels_told]
    refine (told.models ν).trans ?_
    rw [true_and, ← ext.config_eq]
    rfl
  · rw [List.append_nil, ← ext.config_eq] at ground
    obtain ⟨ds, recorded, levels⟩ := ground.levels_eq
    exact ⟨ground.scopes_eq, ground.declared_eq, ds, recorded, (Session.levels_told .checkSat t).trans levels⟩

end Dialogue
end SsaFacts
