import SsaFacts.Proofs.Captures
import SsaFacts.Proofs.Folding
import SsaFacts.Proofs.Forest
import SsaFacts.Proofs.Stated

/-! Reducing the captured facts loses no model and adds none: the classes hold what the simple equalities
say, and a fact is dropped only where it holds anyway. -/
namespace SsaFacts

/-- A bit-vector of model width for every value of a program. -/
structure Valuation (p : Program) where
  value : ValueId → Vec
  width_value : ∀ v, (value v).width = p.modelWidth v

def Node.width (p : Program) : Node → Nat
  | value v => p.modelWidth v
  | literal l => l.width

def Node.Named (p : Program) : Node → Prop
  | value v => p.isConstant v = false
  | literal _ => True

def Node.Alike (p : Program) (a b : Node) : Prop :=
  a = b ∨ a.Named p ∧ b.Named p ∧ a.width p = b.width p

theorem Node.Alike.width_eq {p : Program} {a b : Node} (h : a.Alike p b) : a.width p = b.width p := by
  rcases h with rfl | ⟨-, -, h⟩
  · rfl
  · exact h

theorem Node.Alike.named {p : Program} {a b : Node} (h : a.Alike p b) (hb : b.Named p) : a.Named p := by
  rcases h with rfl | ⟨ha, -, -⟩
  · exact hb
  · exact ha

theorem Node.equivalence_alike (p : Program) : Equivalence (Node.Alike p) where
  refl _ := .inl rfl
  symm := by
    rintro a b (rfl | ⟨ha, hb, same⟩)
    · exact .inl rfl
    · exact .inr ⟨hb, ha, same.symm⟩
  trans := by
    rintro a b c (rfl | ⟨ha, hb, same⟩) (rfl | ⟨hb', hc, same'⟩)
    · exact .inl rfl
    · exact .inr ⟨hb', hc, same'⟩
    · exact .inr ⟨ha, hb, same⟩
    · exact .inr ⟨ha, hc, same.trans same'⟩

namespace Valuation
variable {p : Program} (ρ : Valuation p)

def env (l : Leaf) : Vec := ρ.value l.value

def node : Node → Vec
  | .value v => ρ.value v
  | .literal l => l.vec

def Satisfies (δ : ZeroDivision) (cs : List Clause) : Prop := ∀ c ∈ cs, c.denote δ ρ.env = true

protected theorem ext {ρ σ : Valuation p} (h : ∀ v, ρ.value v = σ.value v) : ρ = σ := by
  obtain ⟨f, hf⟩ := ρ
  obtain ⟨k, hk⟩ := σ
  obtain rfl : f = k := funext h
  rfl

theorem width_node (n : Node) : (ρ.node n).width = n.width p := by
  cases n with
  | value v => exact ρ.width_value v
  | literal l => rfl

end Valuation

namespace Expr
variable {p : Program} {e : Expr} {n : Node}

theorem plainNode?_eq_some (h : e.plainNode? = some n) :
    (∃ l, e = .literal l ∧ n = .literal l) ∨ ∃ v w, e = .result v w ∧ n = .value v := by
  unfold plainNode? at h
  split at h
  · cases h
    exact .inl ⟨_, rfl, rfl⟩
  · rename_i v w
    cases h
    exact .inr ⟨v, w, rfl, rfl⟩
  · cases h

theorem Stated.width_node (stated : e.Stated p) (h : e.plainNode? = some n) : n.width p = e.width := by
  rcases plainNode?_eq_some h with ⟨l, rfl, rfl⟩ | ⟨v, w, rfl, rfl⟩
  · rfl
  · obtain ⟨u, -, hu⟩ := stated
    cases hu
    rfl

theorem Stated.named_node (stated : e.Stated p) (h : e.plainNode? = some n) : n.Named p := by
  rcases plainNode?_eq_some h with ⟨l, rfl, rfl⟩ | ⟨v, w, rfl, rfl⟩
  · trivial
  · obtain ⟨u, hu, eq⟩ := stated
    cases eq
    exact hu

theorem denote_plainNode (ρ : Valuation p) (δ : ZeroDivision) (h : e.plainNode? = some n) :
    e.denote δ ρ.env = ρ.node n := by
  rcases plainNode?_eq_some h with ⟨l, rfl, rfl⟩ | ⟨v, w, rfl, rfl⟩ <;> rfl

end Expr

theorem Predicate.truth_eq_iff {x y : Vec} (h : x.width = y.width) :
    Predicate.eq.truth x y = true ↔ x = y := by
  obtain ⟨w, a⟩ := x
  obtain ⟨b, rfl⟩ := Vec.exists_bits h.symm
  rw [Predicate.truth_mk, Vec.mk.injEq, heq_eq_eq]
  simp [Predicate.test]

namespace Clause
variable {p : Program} {f : Clause} {a b : Node}

theorem simpleEq?_eq_some (h : f.simpleEq? = some (a, b)) :
    ∃ l r, f = .atom .eq l r ∧ l.plainNode? = some a ∧ r.plainNode? = some b := by
  unfold simpleEq? at h
  split at h
  · rename_i l r
    refine ⟨l, r, rfl, ?_⟩
    cases ha : l.plainNode? <;> cases hb : r.plainNode? <;> simp_all
  · cases h

theorem Stated.alike_simpleEq (stated : f.Stated p) (h : f.simpleEq? = some (a, b)) :
    (a.width p = boolWidth ∨ a.width p = wordWidth) ∧ a.Alike p b := by
  obtain ⟨l, r, rfl, ha, hb⟩ := simpleEq?_eq_some h
  obtain ⟨sl, sr, same⟩ := stated
  rw [Node.Alike, sl.width_node ha, sr.width_node hb]
  exact ⟨sl.width_cases, .inr ⟨sl.named_node ha, sr.named_node hb, same⟩⟩

theorem Stated.denote_simpleEq (stated : f.Stated p) (h : f.simpleEq? = some (a, b)) (δ : ZeroDivision)
    (ρ : Valuation p) : f.denote δ ρ.env = true ↔ ρ.node a = ρ.node b := by
  have same := (stated.alike_simpleEq h).2.width_eq
  obtain ⟨l, r, rfl, ha, hb⟩ := simpleEq?_eq_some h
  rw [denote, Expr.denote_plainNode ρ δ ha, Expr.denote_plainNode ρ δ hb]
  exact Predicate.truth_eq_iff (by rw [ρ.width_node, ρ.width_node, same])

end Clause

def Capture.equalities (c : Capture) (p : Program) : List (Node × Node) :=
  c.facts.filterMap fun f =>
    f.simpleEq?.filter fun (a, b) => a.fixed (c.isFixed p) && b.fixed (c.isFixed p)

namespace Classes
variable {p : Program} {c c' : Classes} {a b : Node}

/-- Every node may stand for its representative: no class mixes widths or names a constant. -/
def Uniform (c : Classes) (p : Program) : Prop := ∀ n, (c.root n).Alike p n

theorem uniform_empty : empty.Uniform p := fun n => .inl (root_empty n)

theorem Joins.uniform (j : c.Joins a b c') (h : c.Uniform p) (alike : a.Alike p b) : c'.Uniform p :=
  j.respects (Node.equivalence_alike p) alike h

theorem identify_ok (rooted : c.Rooted) (uniform : c.Uniform p)
    (ha : a.width p = boolWidth ∨ a.width p = wordWidth) (same : a.width p = b.width p)
    (ns : List Notice) : ∃ ns', c.identify a b ns = (.ok (c.unite a b).1, ns') := by
  have sized {n : Node} {k : Literal} (hn : n.width p = a.width p) (hk : c.root n = .literal k) :
      k.sized := by
    have width : k.width = a.width p := by
      rw [← hn, ← (uniform n).width_eq, hk]
      rfl
    refine Literal.sized_iff.2 ?_
    rcases ha with ha | ha <;> rw [width, ha] <;> decide
  unfold identify
  rcases hu : c.unite a b with ⟨d, conflict⟩
  cases conflict with
  | none => exact ⟨ns, rfl⟩
  | some pair =>
    obtain ⟨hk, hl⟩ := unite_conflict rooted (show (c.unite a b).2 = some (pair.1, pair.2) by rw [hu])
    have writable : ∀ l ∈ (Notice.conflictingLiterals pair.1 pair.2).literals, l.sized := by
      simpa [Notice.literals] using ⟨sized rfl hk, sized same.symm hl⟩
    exact ⟨_, run_bind_ok (note_ok writable ns)⟩

/-- Absorbing facts over program values runs into no fault and joins their fixed simple equalities. -/
theorem absorb_ok (isFixed : ValueId → Bool) {facts : List Clause} (rooted : c.Rooted)
    (uniform : c.Uniform p) (stated : ∀ f ∈ facts, f.Stated p) (ns : List Notice) :
    ∃ c' merged ns', c.absorb isFixed facts ns = (.ok (c', merged), ns') ∧
      JoinsAll c (facts.filterMap fun f =>
        f.simpleEq?.filter fun (a, b) => a.fixed isFixed && b.fixed isFixed) c' := by
  unfold absorb
  generalize 0 = merged
  induction facts generalizing c merged ns with
  | nil => exact ⟨c, merged, ns, rfl, .nil rooted⟩
  | cons f rest ih =>
    have later := fun g hg => stated g (List.mem_cons_of_mem f hg)
    rw [List.foldlM_cons, List.filterMap_cons]
    cases hf : f.simpleEq? with
    | none => exact ih rooted uniform later ns merged
    | some pair =>
      obtain ⟨a, b⟩ := pair
      by_cases hfixed : (a.fixed isFixed && b.fixed isFixed) = true
      · obtain ⟨model, alike⟩ := (stated f (by simp)).alike_simpleEq hf
        obtain ⟨ns₁, run⟩ := identify_ok rooted uniform model alike.width_eq ns
        have joined := joins_unite rooted a b
        obtain ⟨c', merged', ns', run', all⟩ :=
          ih joined.rooted (joined.uniform uniform alike) later ns₁ (merged + 1)
        have first : (do return (← c.identify a b, merged + 1) : Noted (Classes × Nat)) ns =
            (.ok ((c.unite a b).1, merged + 1), ns₁) := run_bind_ok run
        refine ⟨c', merged', ns', ?_, ?_⟩
        · rw [← run']
          simp only [hfixed, if_true]
          exact run_bind_ok first
        · rw [Option.filter_some, if_pos hfixed]
          exact .cons joined all
      · obtain ⟨c', merged', ns', run', all⟩ := ih rooted uniform later ns merged
        refine ⟨c', merged', ns', ?_, ?_⟩
        · rw [← run']
          simp only [hfixed]
          rfl
        · rw [Option.filter_some, if_neg hfixed]
          exact all

theorem denote_canonicalLeaf (c : Classes) (ρ : Valuation p) (δ : ZeroDivision) (l : Leaf) :
    (c.canonicalLeaf l).denote δ ρ.env = ρ.node (c.root (.value l.value)) := by
  unfold canonicalLeaf
  split <;> · rw [‹c.root (.value l.value) = _›]; rfl

theorem denote_canonical (c : Classes) (ρ : Valuation p) (δ : ZeroDivision) (f : Clause) :
    (c.canonical f).denote δ ρ.env = f.denote δ fun l => ρ.node (c.root (.value l.value)) := by
  rw [canonical, Clause.denote_subst]
  simp only [denote_canonicalLeaf]

theorem canonicalLeaf_plainLeaf (c : Classes) (v : ValueId) :
    c.canonicalLeaf (p.plainLeaf v) =
      match c.root (.value v) with
      | .literal k => .literal k
      | .value r => .result r (p.modelWidth v) := by
  unfold canonicalLeaf
  simp only [Leaf.value, Program.plainLeaf, Ref.value]
  cases c.root (.value v) <;> rfl

theorem Uniform.canonicalExpr_stated (h : c.Uniform p) {e : Expr} (stated : e.Stated p) :
    (c.canonicalExpr e).Stated p ∧ (c.canonicalExpr e).width = e.width := by
  induction e with
  | literal l => exact ⟨stated, rfl⟩
  | leaf l =>
    obtain ⟨v, hv, rfl⟩ := stated
    have alike := h (.value v)
    have eq : c.canonicalExpr (.leaf (p.plainLeaf v)) = _ := c.canonicalLeaf_plainLeaf v
    rw [eq]
    cases hr : c.root (.value v) with
    | literal k =>
      have width : k.width = p.modelWidth v := by
        have same := alike.width_eq
        rwa [hr] at same
      exact ⟨by rw [Expr.Stated, width]; exact p.modelWidth_cases v, width⟩
    | value r =>
      rw [hr] at alike
      have width : p.modelWidth r = p.modelWidth v := alike.width_eq
      exact ⟨⟨r, alike.named hv, by rw [Program.plainLeaf, width]⟩, rfl⟩
  | unary op e ih => exact ⟨(ih stated).1, rfl⟩
  | binary op l r ihl ihr =>
    obtain ⟨sl, wl⟩ := ihl stated.1
    obtain ⟨sr, wr⟩ := ihr stated.2.1
    exact ⟨⟨sl, sr, wl.trans (stated.2.2.trans wr.symm)⟩, wl⟩

theorem Uniform.canonical_stated (h : c.Uniform p) {f : Clause} (stated : f.Stated p) :
    (c.canonical f).Stated p := by
  induction f with
  | atom pred l r =>
    obtain ⟨sl, wl⟩ := h.canonicalExpr_stated stated.1
    obtain ⟨sr, wr⟩ := h.canonicalExpr_stated stated.2.1
    exact ⟨sl, sr, wl.trans (stated.2.2.trans wr.symm)⟩
  | not f ih => exact ih stated
  | and a b iha ihb | or a b iha ihb | xor a b iha ihb => exact ⟨iha stated.1, ihb stated.2⟩

end Classes

namespace Valuation
variable {p : Program}

instance : Inhabited (Valuation p) where
  default := { value v := ⟨p.modelWidth v, 0⟩, width_value _ := rfl }

/-- Every value is sent to what its representative has. -/
def through (ρ : Valuation p) (c : Classes) (h : c.Uniform p) : Valuation p where
  value v := ρ.node (c.root (.value v))
  width_value v := (ρ.width_node _).trans (h (.value v)).width_eq

theorem node_through (ρ : Valuation p) (c : Classes) (h : c.Uniform p) (n : Node) :
    (ρ.through c h).node n = ρ.node (c.root n) := by
  cases n with
  | value v => rfl
  | literal l => rw [Classes.root_literal]; rfl

theorem denote_through (ρ : Valuation p) (c : Classes) (h : c.Uniform p) (δ : ZeroDivision)
    (f : Clause) : f.denote δ (ρ.through c h).env = (c.canonical f).denote δ ρ.env :=
  (c.denote_canonical ρ δ f).symm

end Valuation

namespace Capture
variable {p : Program} {c : Capture} {classes : Classes} {a b : Node}

theorem mem_equalities : (a, b) ∈ c.equalities p ↔
    ∃ f ∈ c.facts, f.simpleEq? = some (a, b) ∧ a.fixed (c.isFixed p) ∧ b.fixed (c.isFixed p) := by
  simp [equalities, Option.filter_eq_some_iff]

theorem uniform (stated : ∀ f ∈ c.facts, f.Stated p)
    (joined : Classes.JoinsAll .empty (c.equalities p) classes) : classes.Uniform p := by
  refine joined.respects (Node.equivalence_alike p) (fun a b hab => ?_) Classes.uniform_empty
  obtain ⟨f, hf, eq, -⟩ := mem_equalities.1 hab
  exact ((stated f hf).alike_simpleEq eq).2

end Capture

namespace Engine

/-- What the engine of a program holds: the classes that the captured equalities give, and the captured
facts in terms of their representatives, without those that simplify to true. -/
structure Reduced (e : Engine) : Prop where
  stated : ∀ f ∈ e.capture.facts, f.Stated e.program
  joined : Classes.JoinsAll .empty (e.capture.equalities e.program) e.classes
  mem_facts : ∀ c, c ∈ e.facts ↔
    (∃ f ∈ e.capture.facts, e.classes.canonical f = c) ∧ c.simplify ≠ .ok (some true)

theorem ofSubject_ok {subject : Subject} {config : Config} {ns ns₁ : List Notice} {capture : Capture}
    (captured : subject.capture config.disable ns = (.ok capture, ns₁)) :
    ∃ e ns₂, ofSubject subject config ns = (.ok e, ns₂) ∧ e.subject = subject ∧ e.config = config ∧
      e.capture = capture ∧ e.solver = none ∧ e.Reduced := by
  have stated := subject.capture_stated config.disable capture ⟨ns, ns₁, captured⟩
  obtain ⟨classes, merged, ns₂, absorbed, joined⟩ := Classes.absorb_ok
    (capture.isFixed subject.program) Classes.rooted_empty Classes.uniform_empty stated ns₁
  have uniform := Capture.uniform stated joined
  have sorted : ∀ c ∈ capture.facts.map classes.canonical, c.WellSorted := by
    intro c hc
    obtain ⟨f, hf, rfl⟩ := List.mem_map.1 hc
    exact (uniform.canonical_stated (stated f hf)).wellSorted
  obtain ⟨facts, reduced, mem⟩ := Clause.nontrivial_ok sorted
  refine ⟨{ subject, config, capture, classes, facts }, ns₂, ?_, rfl, rfl, rfl, rfl, stated, joined, ?_⟩
  · unfold ofSubject
    rw [run_bind_ok captured, run_bind_ok absorbed]
    exact run_bind_ok (run_lift_ok reduced)
  · intro c
    rw [mem c, List.mem_map]

namespace Reduced
variable {e : Engine} {δ : ZeroDivision} {ρ : Valuation e.program}

theorem uniform (h : e.Reduced) : e.classes.Uniform e.program :=
  Capture.uniform h.stated h.joined

/-- In a model of the captured facts every node has the value of its representative. -/
theorem node_root (h : e.Reduced) (sat : ρ.Satisfies δ e.capture.facts) (n : Node) :
    ρ.node (e.classes.root n) = ρ.node n := by
  have eqv : Equivalence fun a b : Node => ρ.node a = ρ.node b :=
    ⟨fun _ => rfl, fun h => h.symm, fun h h' => h.trans h'⟩
  refine h.joined.respects eqv (fun a b hab => ?_) (fun n => by rw [Classes.root_empty]) n
  obtain ⟨f, hf, eq, -⟩ := Capture.mem_equalities.1 hab
  exact ((h.stated f hf).denote_simpleEq eq δ ρ).1 (sat f hf)

theorem satisfies_facts (h : e.Reduced) (sat : ρ.Satisfies δ e.capture.facts) :
    ρ.Satisfies δ e.facts := by
  intro c hc
  obtain ⟨⟨f, hf, rfl⟩, -⟩ := (h.mem_facts c).1 hc
  rw [Classes.denote_canonical]
  simp only [h.node_root sat]
  exact sat f hf

/-- A captured fact holds through the classes if its reduced form holds or was dropped. -/
theorem satisfies_captured (h : e.Reduced) (sat : ρ.Satisfies δ e.facts) :
    (ρ.through e.classes h.uniform).Satisfies δ e.capture.facts := by
  intro f hf
  rw [ρ.denote_through]
  by_cases dropped : (e.classes.canonical f).simplify = .ok (some true)
  · exact Clause.denote_of_simplify (h.uniform.canonical_stated (h.stated f hf)).wellSorted dropped
  · exact sat _ ((h.mem_facts _).2 ⟨⟨f, hf, rfl⟩, dropped⟩)

/-- Where the equalities link two different literals, some reduced fact is false throughout. -/
theorem exists_unsatisfiable (h : e.Reduced) {k l : Literal} (ne : k ≠ l)
    (linked : Relation.EqvGen (fun a b => (a, b) ∈ e.capture.equalities e.program)
      (.literal k) (.literal l)) :
    ∃ c ∈ e.facts, ∀ δ (ρ : Valuation e.program), c.denote δ ρ.env = false := by
  obtain ⟨a, b, hab, k, l, ne, ha, hb⟩ := h.joined.exists_apart ne linked
  obtain ⟨f, hf, eq, -⟩ := Capture.mem_equalities.1 hab
  have isFalse : ∀ δ (ρ : Valuation e.program), (e.classes.canonical f).denote δ ρ.env = false := by
    intro δ ρ
    have same := (h.stated f hf).denote_simpleEq eq δ (ρ.through e.classes h.uniform)
    rw [ρ.denote_through, ρ.node_through, ρ.node_through, ha, hb] at same
    rw [Bool.eq_false_iff]
    intro isTrue
    exact ne (Literal.vec_injective (same.1 isTrue))
  refine ⟨_, (h.mem_facts _).2 ⟨⟨f, hf, rfl⟩, fun dropped => ?_⟩, isFalse⟩
  have sorted := (h.uniform.canonical_stated (h.stated f hf)).wellSorted
  have isTrue : (e.classes.canonical f).denote Smt.zeroDivision (default : Valuation e.program).env = true :=
    Clause.denote_of_simplify sorted dropped
  rw [isFalse] at isTrue
  cases isTrue

end Reduced

/-- Reducing the captured facts preserves their models. It always succeeds. In a model of the captured
facts the members of a class agree and the reduced facts hold; a model of the reduced facts, read through
the classes, is one of the captured facts; and if the equalities link two different literals then some
reduced fact has no model. -/
theorem ofSubject_preserves_models {subject : Subject} (config : Config) {ns ns₁ : List Notice}
    {capture : Capture} (captured : subject.capture config.disable ns = (.ok capture, ns₁)) :
    ∃ e ns₂, ofSubject subject config ns = (.ok e, ns₂) ∧ e.capture = capture ∧
      ∀ δ : ZeroDivision,
        (∀ ρ : Valuation subject.program, ρ.Satisfies δ capture.facts →
          (∀ m n, e.classes.root m = e.classes.root n → ρ.node m = ρ.node n) ∧
            ρ.Satisfies δ e.facts) ∧
        (∀ ρ : Valuation subject.program, ρ.Satisfies δ e.facts →
          ∃ σ : Valuation subject.program, (∀ v, σ.value v = ρ.node (e.classes.root (.value v))) ∧
            σ.Satisfies δ capture.facts) ∧
        (∀ k l, k ≠ l →
          Relation.EqvGen (fun a b => (a, b) ∈ capture.equalities subject.program)
            (.literal k) (.literal l) →
          ∃ c ∈ e.facts, ∀ ρ : Valuation subject.program, c.denote δ ρ.env = false) := by
  obtain ⟨e, ns₂, run, rfl, -, rfl, -, reduced⟩ := ofSubject_ok captured
  refine ⟨e, ns₂, run, rfl, fun δ => ⟨fun ρ sat => ⟨fun m n same => ?_, ?_⟩, fun ρ sat => ?_, ?_⟩⟩
  · have hm : ρ.node (e.classes.root m) = ρ.node m := reduced.node_root sat m
    have hn : ρ.node (e.classes.root n) = ρ.node n := reduced.node_root sat n
    rw [← hm, same, hn]
  · exact reduced.satisfies_facts sat
  · exact ⟨ρ.through e.classes reduced.uniform, fun v => rfl, reduced.satisfies_captured sat⟩
  · intro k l ne linked
    obtain ⟨c, hc, isFalse⟩ := reduced.exists_unsatisfiable ne linked
    exact ⟨c, hc, isFalse δ⟩

end Engine

/-- An input is marked as equal to 5 and to 6. -/
def Subject.markedTwice : Subject :=
  .straightLine [5, 6] [.call (.direct 2) [], .call (.direct 1) [2, 0], .call (.direct 1) [2, 1]]

theorem Engine.ofSubject_preserves_models_of_conflict :
    ∃ e ns, Engine.ofSubject .markedTwice {} [] = (.ok e, ns) ∧
      ∃ c ∈ e.facts, ∀ ρ : Valuation Subject.markedTwice.program,
        c.denote Smt.zeroDivision ρ.env = false := by
  let five : Clause := .atom .eq (.result 2 32) (.ofInt 32 5)
  let six : Clause := .atom .eq (.result 2 32) (.ofInt 32 6)
  have sorted : Clause.sort [five, six] = .ok [five, six] :=
    Clause.sort_eq_ok (by decide +kernel) (.refl _) (by decide +kernel) (by decide +kernel)
  have edges : Subject.markedTwice.onceEdgeFacts [] = (.ok [five, six], []) := by
    with_unfolding_all rfl
  have captured : Subject.markedTwice.capture false [] =
      (.ok { fixed := [2, 3, 4], facts := [five, six] }, []) :=
    Subject.capture_eq rfl rfl rfl edges rfl sorted
  obtain ⟨e, ns, run, -, models⟩ := ofSubject_preserves_models {} captured
  refine ⟨e, ns, run, (models Smt.zeroDivision).2.2 (.ofInt 32 5) (.ofInt 32 6) (by decide) ?_⟩
  have linked (z : Int) (h : z = 5 ∨ z = 6) : (.value 2, .literal (.ofInt 32 z)) ∈
      Capture.equalities { fixed := [2, 3, 4], facts := [five, six] } Subject.markedTwice.program := by
    rcases h with rfl | rfl <;> decide +kernel
  exact .trans _ _ _ (.symm _ _ (.rel _ _ (linked 5 (.inl rfl)))) (.rel _ _ (linked 6 (.inr rfl)))

end SsaFacts
