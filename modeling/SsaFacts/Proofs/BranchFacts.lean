import SsaFacts.Overrides
import SsaFacts.Proofs.Linking
import SsaFacts.Proofs.Meaning
import SsaFacts.Realize

/-! Facts about edges that are not taken. On a walk that takes the edges its conditions select, the edges of a
dominator that do not lead on to a block are not taken at the last visit to the dominator. -/
namespace SsaFacts

/-- A terminator takes an edge, given by its position, where the leaves have the values of `ρ`. -/
inductive Takes (p : Program) (δ : ZeroDivision) (ρ : Leaf → Vec) : Terminator → Nat → Prop
  | ifTrue {cond : ValueId} {t f : BlockId} {e : Expr} (leaf : p.leaf cond = .ok e)
      (set : (e.denote δ ρ).bits ≠ 0) : Takes p δ ρ (.condBr cond t f) 0
  | ifFalse {cond : ValueId} {t f : BlockId} {e : Expr} (leaf : p.leaf cond = .ok e)
      (clear : (e.denote δ ρ).bits = 0) : Takes p δ ρ (.condBr cond t f) 1
  | case {cond value : ValueId} {d dest : BlockId} {cases : List (ValueId × BlockId)} {j : Nat} {e e' : Expr}
      (leaf : p.leaf cond = .ok e) (here : cases[j]? = some (value, dest)) (leaf' : p.leaf value = .ok e')
      (same : e.denote δ ρ = e'.denote δ ρ) : Takes p δ ρ (.switch cond d cases) (j + 1)
  | default {cond : ValueId} {d : BlockId} {cases : List (ValueId × BlockId)} {e : Expr}
      (leaf : p.leaf cond = .ok e)
      (other : ∀ c ∈ cases, ∀ e', p.leaf c.1 = .ok e' → e.denote δ ρ ≠ e'.denote δ ρ) :
      Takes p δ ρ (.switch cond d cases) 0
  | free {term : Terminator} {k : Nat} (none : term.condition? = none) : Takes p δ ρ term k

/-- The case values of a switch are literals that differ from each other. -/
def Program.DistinctCases (p : Program) : Terminator → Prop
  | .switch _ _ cases =>
    ∃ ls : List Literal, cases.map (fun c => p.leaf c.1) = ls.map (fun l => .ok (.literal l)) ∧ ls.Nodup
  | _ => True

/-- A clause states that a terminator does not take an edge. -/
inductive Excludes (p : Program) : Terminator → Nat → Clause → Prop
  | ifTrue {cond : ValueId} {t f : BlockId} {e : Expr} (leaf : p.leaf cond = .ok e)
      (width : e.width = boolWidth) : Excludes p (.condBr cond t f) 0 (.atom .eq e (.literal (.bool false)))
  | ifFalse {cond : ValueId} {t f : BlockId} {e : Expr} (leaf : p.leaf cond = .ok e)
      (width : e.width = boolWidth) : Excludes p (.condBr cond t f) 1 (.atom .eq e (.literal (.bool true)))
  | case {cond value : ValueId} {d dest : BlockId} {cases : List (ValueId × BlockId)} {j : Nat} {e e' : Expr}
      (leaf : p.leaf cond = .ok e) (here : cases[j]? = some (value, dest)) (leaf' : p.leaf value = .ok e')
      (width : e.width = e'.width) : Excludes p (.switch cond d cases) (j + 1) (.atom .ne e e')
  | default {cond : ValueId} {d : BlockId} {cases : List (ValueId × BlockId)} {cs : List Clause} {c : Clause}
      (each : List.Forall₂ (fun x a => ∃ e e', p.leaf cond = .ok e ∧ p.leaf x.1 = .ok e' ∧
        e.width = e'.width ∧ a = .atom .eq e e') cases cs)
      (any : Clause.any cs = some c) : Excludes p (.switch cond d cases) 0 c

namespace Clause
variable {δ : ZeroDivision} {ρ : Leaf → Vec}

theorem compare_eq_ok {pred : Predicate} {l r : Expr} {c : Clause} :
    compare pred l r = .ok c ↔ l.width = r.width ∧ c = .atom pred l r := by
  rw [compare]
  split <;> simp_all [eq_comm]

theorem denote_foldl_or (cs : List Clause) (c : Clause) :
    (cs.foldl .or c).denote δ ρ = (c.denote δ ρ || cs.any (·.denote δ ρ)) := by
  induction cs generalizing c with
  | nil => simp
  | cons d cs ih => simp [ih, denote, Bool.or_assoc]

theorem denote_any {cs : List Clause} {c : Clause} (any : Clause.any cs = some c) :
    c.denote δ ρ = cs.any (·.denote δ ρ) := by
  cases cs with
  | nil => cases any
  | cons d cs =>
    cases any
    rw [denote_foldl_or, List.any_cons]

end Clause

theorem Vec.ext_bits {x y : Vec} (width : x.width = y.width) : x.bits = y.fit x.width ↔ x = y := by
  obtain ⟨w, a⟩ := x
  obtain ⟨w', b⟩ := y
  obtain rfl : w = w' := width
  simp

namespace Subject
variable {s : Subject} {b : BlockId} {i : Nat} {c : Clause} {x : Block}

theorem excludes_of_avoidBranch (found : s.avoidBranch b i = .ok (some c))
    (hx : s.program.blocks[b]? = some x) : Excludes s.program x.term i c := by
  unfold avoidBranch at found
  rw [Program.block_eq_ok.2 hx, Checked.ok_bind] at found
  split at found
  case h_1 cond t f term =>
    rw [term]
    obtain ⟨seen, -, found⟩ := Checked.bind_eq_ok.1 found
    split at found
    · cases found
    obtain ⟨w, -, found⟩ := Checked.bind_eq_ok.1 found
    split at found
    · cases found
    split at found
    · obtain ⟨e, leaf, found⟩ := Checked.bind_eq_ok.1 found
      obtain ⟨width, rfl⟩ := Clause.compare_eq_ok.1 (Checked.eq_ok_of_some found)
      exact .ifTrue leaf width
    · obtain ⟨e, leaf, found⟩ := Checked.bind_eq_ok.1 found
      obtain ⟨width, rfl⟩ := Clause.compare_eq_ok.1 (Checked.eq_ok_of_some found)
      exact .ifFalse leaf width
    · cases found
  case h_2 cond d cases term =>
    rw [term]
    obtain ⟨seen, -, found⟩ := Checked.bind_eq_ok.1 found
    split at found
    · cases found
    split at found
    · obtain ⟨cs, mapped, any⟩ := Checked.bind_eq_ok.1 found
      refine .default ((forall₂_of_mapM_eq_ok mapped).imp fun y a equal => ?_) (Except.ok.inj any)
      obtain ⟨e, leaf, equal⟩ := Checked.bind_eq_ok.1 equal
      obtain ⟨e', leaf', equal⟩ := Checked.bind_eq_ok.1 equal
      obtain ⟨width, rfl⟩ := Clause.compare_eq_ok.1 equal
      exact ⟨e, e', leaf, leaf', width, rfl⟩
    · split at found
      · cases found
      case h_2 j value dest here =>
        obtain ⟨e, leaf, found⟩ := Checked.bind_eq_ok.1 found
        obtain ⟨e', leaf', found⟩ := Checked.bind_eq_ok.1 found
        obtain ⟨width, rfl⟩ := Clause.compare_eq_ok.1 (Checked.eq_ok_of_some found)
        exact .case leaf here leaf' width
  case h_3 => cases found

end Subject

namespace Excludes
variable {p : Program} {δ : ZeroDivision} {ρ : Leaf → Vec} {term : Terminator} {i k : Nat} {c : Clause}

theorem literal_at {cases : List (ValueId × BlockId)} {ls : List Literal} {j : Nat} {value : ValueId}
    {dest : BlockId} {e : Expr} (literals : cases.map (fun c => p.leaf c.1) = ls.map fun l => .ok (.literal l))
    (here : cases[j]? = some (value, dest)) (leaf : p.leaf value = .ok e) :
    ∃ l, ls[j]? = some l ∧ e = .literal l := by
  have at_j := congrArg (·[j]?) literals
  simp only [List.getElem?_map, here, Option.map_some, leaf] at at_j
  obtain ⟨l, hl, equal⟩ := Option.map_eq_some_iff.1 at_j.symm
  exact ⟨l, hl, (Except.ok.inj equal).symm⟩

theorem denote_eq_true (excludes : Excludes p term i c) (takes : Takes p δ ρ term k) (ne : i ≠ k)
    (typed : ∀ l, (ρ l).width = l.width) (distinct : p.DistinctCases term) : c.denote δ ρ = true := by
  have width_eq (e : Expr) : (e.denote δ ρ).width = e.width := Expr.width_denote fun l _ => typed l
  have truth_eq {e e' : Expr} (width : e.width = e'.width) :
      (Clause.atom .eq e e').denote δ ρ = true ↔ e.denote δ ρ = e'.denote δ ρ := by
    rw [← Vec.ext_bits ((width_eq e).trans (width.trans (width_eq e').symm))]
    simp [Clause.denote, Predicate.truth, Predicate.test]
  have truth_ne {e e' : Expr} (width : e.width = e'.width) :
      (Clause.atom .ne e e').denote δ ρ = true ↔ e.denote δ ρ ≠ e'.denote δ ρ := by
    rw [ne_eq, ← Vec.ext_bits ((width_eq e).trans (width.trans (width_eq e').symm))]
    simp [Clause.denote, Predicate.truth, Predicate.test]
  have leaf_eq {v : ValueId} {e e' : Expr} (leaf : p.leaf v = .ok e) (leaf' : p.leaf v = .ok e') : e = e' :=
    Except.ok.inj (leaf.symm.trans leaf')
  cases excludes with
  | ifTrue leaf width =>
    rw [truth_eq width]
    cases takes with
    | ifTrue => exact absurd rfl ne
    | ifFalse leaf' clear =>
      cases leaf_eq leaf leaf'
      obtain ⟨x, value⟩ := Vec.exists_bits ((width_eq _).trans width)
      rw [value] at clear ⊢
      exact congrArg (Vec.mk boolWidth) clear
    | free none => cases none
  | ifFalse leaf width =>
    rw [truth_eq width]
    cases takes with
    | ifTrue leaf' set =>
      cases leaf_eq leaf leaf'
      obtain ⟨x, value⟩ := Vec.exists_bits ((width_eq _).trans width)
      rw [value] at set ⊢
      have one : ∀ x : BitVec boolWidth, x ≠ 0 → x = 1 := by decide
      exact congrArg (Vec.mk boolWidth) (one x set)
    | ifFalse => exact absurd rfl ne
    | free none => cases none
  | case leaf here leaf' width =>
    rw [truth_ne width]
    cases takes with
    | case leaf₁ here₁ leaf₁' same =>
      cases leaf_eq leaf leaf₁
      rw [same]
      intro equal
      obtain ⟨ls, literals, nodup⟩ := distinct
      -- Two cases with the same value would be at one position.
      obtain ⟨l, hl, rfl⟩ := literal_at literals here leaf'
      obtain ⟨l₁, hl₁, rfl⟩ := literal_at literals here₁ leaf₁'
      rw [← Literal.vec_injective equal] at hl
      have position := (List.getElem?_inj (List.getElem?_eq_some_iff.1 hl).1 nodup).1 (hl.trans hl₁.symm)
      exact ne (congrArg (· + 1) position)
    | default leaf₁ other =>
      cases leaf_eq leaf leaf₁
      exact other _ (List.mem_of_getElem? here) _ leaf'
    | free none => cases none
  | default each any =>
    rw [Clause.denote_any any, List.any_eq_true]
    cases takes with
    | @case _ _ _ _ _ j _ _ leaf₁ here leaf₁' same =>
      obtain ⟨length, each⟩ := List.forall₂_iff_get.1 each
      obtain ⟨inside, value⟩ := List.getElem?_eq_some_iff.1 here
      obtain ⟨e, e', leaf, leaf', width, equal⟩ := each j inside (length ▸ inside)
      rw [List.get_eq_getElem, value] at leaf'
      cases leaf_eq leaf leaf₁
      cases leaf_eq leaf' leaf₁'
      exact ⟨_, equal ▸ List.get_mem _ ⟨j, length ▸ inside⟩, (truth_eq width).2 same⟩
    | default => exact absurd rfl ne
    | free none => cases none

end Excludes

/-! ### Walks -/

/-- A visit to a block, with the values that the leaves have there. -/
structure Visit where
  block : BlockId
  values : Leaf → Vec

/-- A walk from a block, the last visit first, on which every visit takes the edge that its values select. -/
inductive Walk (p : Program) (δ : ZeroDivision) (start : BlockId) : List Visit → Prop
  | start {v : Visit} (here : v.block = start) : Walk p δ start [v]
  | step {v w : Visit} {visits : List Visit} {x : Block} {k : Nat} (walk : Walk p δ start (v :: visits))
      (hx : p.blocks[v.block]? = some x) (takes : Takes p δ v.values x.term k)
      (edge : x.term.successors[k]? = some w.block) : Walk p δ start (w :: v :: visits)

namespace Walk
variable {p : Program} {δ : ZeroDivision} {start up below : BlockId} {v w : Visit} {visits later earlier : List Visit}

/-- A walk follows the edges of the program. -/
theorem path (walk : Walk p δ start (v :: visits)) :
    Path p.targets start ((v :: visits).map (·.block)) v.block := by
  generalize same : v :: visits = all at walk
  induction walk generalizing v visits with
  | start here =>
    cases same
    rw [List.map_singleton, here]
    exact .refl
  | step walk hx takes edge ih =>
    cases same
    exact (ih rfl).step (Program.mem_targets.2 ⟨_, hx, List.mem_of_getElem? edge⟩)

/-- Any visit but the last one took the edge to the next one. -/
theorem takes (walk : Walk p δ start (later ++ w :: v :: earlier)) :
    ∃ x k, p.blocks[v.block]? = some x ∧ Takes p δ v.values x.term k ∧
      x.term.successors[k]? = some w.block := by
  generalize same : later ++ w :: v :: earlier = all at walk
  induction walk generalizing later with
  | start here => cases later <;> simp at same
  | step walk hx takes edge ih =>
    cases later with
    | nil =>
      cases same
      exact ⟨_, _, hx, takes, edge⟩
    | cons u later =>
      obtain ⟨rfl, rest⟩ := List.cons.inj same
      exact ih rest

/-- At the last visit to a strict dominator `up` of `below`, where `below` dominates the end, a walk takes an
edge that leads to `below` without passing `up` again. -/
theorem last_visit (walk : Walk p δ start (w :: visits)) (dominates : Dominates p.targets start below w.block)
    (above : Dominates p.targets start up below) (ne : up ≠ below) :
    ∃ v x k c, (w :: visits).find? (·.block = up) = some v ∧ p.blocks[up]? = some x ∧
      Takes p δ v.values x.term k ∧ x.term.successors[k]? = some c ∧ Avoids p.targets up c below := by
  have path := walk.path
  have reaches : Reaches p.targets start below := dominates.reaches ⟨_, path⟩
  have first : Avoids p.targets below start up := not_dominates_iff.1 fun back =>
    ne (above.antisymm back reaches)
  obtain ⟨u, hu, same⟩ := List.mem_map.1 ((above.trans dominates) _ path)
  obtain ⟨v, found⟩ := Option.isSome_iff_exists.1
    (List.find?_isSome (p := fun v : Visit => v.block = up) |>.2 ⟨u, hu, decide_eq_true same⟩)
  obtain ⟨here, later, earlier, split, other⟩ := List.find?_eq_some_iff_append.1 found
  obtain rfl : v.block = up := of_decide_eq_true here
  -- What comes after the visit passes `below` and does not come back.
  have rest : Path p.targets v.block (later.map (·.block) ++ [v.block]) w.block := by
    rw [split, List.map_append, List.map_cons] at path
    exact path.cut.2
  have passed := dominates.mem_of_avoids first rest
  obtain ⟨front, next, rfl⟩ : ∃ front next, later = front ++ [next] := by
    rcases List.eq_nil_or_concat later with rfl | ⟨front, next, rfl⟩
    · simp at passed
    · exact ⟨front, next, List.concat_eq_append⟩
  rw [List.append_assoc, List.singleton_append] at split
  obtain ⟨x, k, hx, takes, edge⟩ := (split ▸ walk).takes
  refine ⟨v, x, k, next.block, found, hx, takes, edge, ?_⟩
  simp only [List.map_append, List.map_cons, List.map_nil, List.append_assoc, List.singleton_append] at rest passed
  obtain ⟨between, onward, cut⟩ := List.append_of_mem passed
  have out : v.block ∉ front.map (·.block) ++ [next.block] := by
    intro again
    obtain ⟨u, hu, same⟩ := List.mem_map.1 (by simpa using again : v.block ∈ (front ++ [next]).map (·.block))
    have := other u hu
    simp [same] at this
  have toBelow : Path p.targets next.block (below :: onward) below := by
    have after := rest.cut.2
    rw [cut] at after
    exact after.cut.1
  exact ⟨_, toBelow, fun again => out (cut ▸ List.mem_append_right _ again)⟩

end Walk

/-! ### The facts on the way up from a block -/

section
variable {p : Program} {e b d : BlockId}

theorem Closest.unique {next : Nat → List Nat} {start c d b : Nat} (first : Closest next start c b)
    (second : Closest next start d b) (reaches : Reaches next start b) : c = d :=
  (second.below c first.ne first.dominates).antisymm (first.below d second.ne second.dominates)
    (second.dominates.reaches reaches)

theorem Closest.ne_start {next : Nat → List Nat} {start d b : Nat} (closest : Closest next start d b) :
    b ≠ start := by
  rintro rfl
  exact closest.ne closest.dominates.eq_start

/-- The strict dominators of a block. -/
def Program.above (p : Program) (e b : BlockId) : Set BlockId := {d | d ≠ b ∧ Dominates p.targets e d b}

theorem Program.finite_above (reaches : Reaches p.targets e b) : (p.above e b).Finite := by
  obtain ⟨vs, path⟩ := reaches
  exact vs.finite_toSet.subset fun d above => above.2 vs path

theorem Closest.ncard_above_lt (closest : Closest p.targets e d b) (reaches : Reaches p.targets e b) :
    (p.above e d).ncard < (p.above e b).ncard := by
  refine Set.ncard_lt_ncard ⟨fun c above => ⟨?_, above.2.trans closest.dominates⟩, fun sub => ?_⟩
    (Program.finite_above reaches)
  · rintro rfl
    exact above.1 (above.2.antisymm closest.dominates (closest.dominates.reaches reaches))
  · exact (sub ⟨closest.ne, closest.dominates⟩).1 rfl

end

namespace Subject
variable {s : Subject} {g : FlowGraph} {f : FuncId} {e b up below : BlockId} {i n : Nat} {x : Block}

/-- The steps up from a block are those from its dominators to their immediate dominators. -/
theorem mem_dominatorSteps (confined : s.program.Confined) (shows_p : g.Shows s.program)
    (idom : s.survey.idom? = (Dominators.ofProgram s.program g).idom?) (he : s.program.IsEntry f e)
    (reaches : Reaches s.program.targets e b) (enough : (s.program.above e b).ncard ≤ n) :
    (up, below) ∈ s.dominatorSteps (some e) n b ↔
      Dominates s.program.targets e below b ∧ Closest s.program.targets e up below := by
  -- Each step leaves fewer strict dominators above, so the bound lasts up to the entry.
  induction n generalizing b with
  | zero =>
    have empty := (Set.ncard_eq_zero (Program.finite_above reaches)).1 (Nat.le_zero.1 enough)
    refine iff_of_false List.not_mem_nil fun ⟨dominates, closest⟩ => ?_
    have mem : up ∈ s.program.above e b := by
      refine ⟨?_, closest.dominates.trans dominates⟩
      rintro rfl
      exact closest.ne (closest.dominates.antisymm dominates (dominates.reaches reaches))
    rw [empty] at mem
    cases mem
  | succ n ih =>
    unfold dominatorSteps
    by_cases same : b = e
    · subst same
      rw [if_pos rfl]
      exact iff_of_false List.not_mem_nil fun ⟨dominates, closest⟩ => closest.ne_start dominates.eq_start
    obtain ⟨d, parent, closest⟩ := Dominators.exists_closest confined shows_p he reaches same
    have fewer := closest.ncard_above_lt reaches
    rw [if_neg fun equal => same (Option.some.inj equal), idom, parent]
    simp only [List.mem_cons, Prod.mk.injEq, ih (closest.dominates.reaches reaches) (by omega)]
    constructor
    · rintro (⟨rfl, rfl⟩ | ⟨dominates, closest'⟩)
      · exact ⟨.refl _, closest⟩
      · exact ⟨dominates.trans closest.dominates, closest'⟩
    · rintro ⟨dominates, closest'⟩
      by_cases here : below = b
      · subst here
        exact .inl ⟨closest'.unique closest reaches, rfl⟩
      · exact .inr ⟨closest.below below here dominates, closest'⟩

theorem excludeEdge_gives (s : Subject) (b : BlockId) (i : Nat) :
    Gives (s.excludeEdge b i) fun o => ∀ c, c ∈ o ↔ s.avoidBranch b i = .ok (some c) := by
  have avoid : Gives (s.avoidBranch b i) fun o => ∀ c, c ∈ o ↔ s.avoidBranch b i = .ok (some c) := by
    intro o found c
    rw [show s.avoidBranch b i = .ok o from found, Except.ok.injEq, Option.mem_def]
  unfold excludeEdge
  refine .after fun block => ?_
  dsimp only
  split
  · exact .after fun _ => avoid.lift
  · exact avoid.lift

/-- The facts of one step are the exclusions of edges that do not lead on. -/
theorem edgesAside_gives (hx : s.program.blocks[up]? = some x) :
    Gives (s.edgesAside up below) fun cs => ∀ c, c ∈ cs ↔ ∃ i dest, x.term.successors[i]? = some dest ∧
      dest ∉ s.survey.graph.reachBack below [up] ∧ s.avoidBranch up i = .ok (some c) := by
  have block : Gives (s.program.block up) (· = x) := fun y found =>
    Except.ok.inj (found.symm.trans (Program.block_eq_ok.2 hx))
  unfold edgesAside
  refine block.lift.bind fun y same => ?_
  subst same
  intro cs returned c
  rw [Gives.mem_filterMapM (fun edge _ => s.excludeEdge_gives up edge.2) cs returned c]
  simp only [List.mem_filter, Prod.exists, List.mem_zipIdx_iff_getElem?]
  grind

/-- A clause excludes an edge of a strict dominator `up` of `b` that does not lead on: from it the next
dominator `below` is only reached by passing `up` again. -/
def Aside (s : Subject) (e b up : BlockId) (c : Clause) : Prop :=
  ∃ below x i dest, Dominates s.program.targets e below b ∧ Closest s.program.targets e up below ∧
    s.program.blocks[up]? = some x ∧ x.term.successors[i]? = some dest ∧
    ¬Avoids s.program.targets up dest below ∧ s.avoidBranch up i = .ok (some c)

theorem entryOf_eq (confined : s.program.Confined) (he : s.program.IsEntry f e)
    (reaches : Reaches s.program.targets e b) : s.entryOf b = some e := by
  obtain ⟨x, hx, rfl⟩ := confined.reached he reaches
  obtain ⟨fn, hf, head⟩ := he
  rw [entryOf, hx, Option.bind_some, hf, Option.bind_some, head]

section
variable (confined : s.program.Confined) (shows_p : s.survey.graph.Shows s.program) (he : s.program.IsEntry f e)
include confined shows_p he

/-- The facts that are stated for a block are the exclusions of edges that its dominators do not take. -/
theorem branchFacts_gives (idom : s.survey.idom? = (Dominators.ofProgram s.program s.survey.graph).idom?)
    (reaches : Reaches s.program.targets e b) :
    Gives (s.branchFacts b) fun cs => ∀ c, c ∈ cs ↔ ∃ up, s.Aside e b up c := by
  have inside {d : BlockId} (dominates : Dominates s.program.targets e d b) : d < s.survey.graph.size :=
    shows_p.lt_of_reaches confined he (dominates.reaches reaches)
  have enough : (s.program.above e b).ncard ≤ s.survey.graph.size := by
    have sub : s.program.above e b ⊆ Set.Iio s.survey.graph.size := fun d above => inside above.2
    simpa using Set.ncard_le_ncard sub
  unfold branchFacts
  rw [entryOf_eq confined he reaches]
  refine (Gives.mem_flatten_mapM (R := fun step c => ∃ x i dest,
    s.program.blocks[step.1]? = some x ∧ x.term.successors[i]? = some dest ∧
      ¬Avoids s.program.targets step.1 dest step.2 ∧ s.avoidBranch step.1 i = .ok (some c)) ?_).bind ?_
  · rintro ⟨up, below⟩ mem cs returned c
    obtain ⟨dominates, closest⟩ := (mem_dominatorSteps confined shows_p idom he reaches enough).1 mem
    obtain ⟨x, hx, -⟩ := confined.reached he ((closest.dominates.trans dominates).reaches reaches)
    rw [edgesAside_gives hx cs returned c]
    simp only [shows_p.mem_reachBack_singleton (inside dominates), hx, Option.some.injEq,
      exists_and_left, exists_eq_left']
  · intro css each
    refine .pure fun c => (each c).trans ?_
    simp only [Prod.exists, mem_dominatorSteps confined shows_p idom he reaches enough, Aside]
    constructor
    · rintro ⟨up, below, ⟨dominates, closest⟩, x, i, dest, rest⟩
      exact ⟨up, below, x, i, dest, dominates, closest, rest⟩
    · rintro ⟨up, below, x, i, dest, dominates, closest, rest⟩
      exact ⟨up, below, ⟨dominates, closest⟩, x, i, dest, rest⟩

end

/-- An edge that does not lead on is not taken at the last visit to its block, so its exclusion is true of the
values there. -/
theorem Aside.last_visit {δ : ZeroDivision} {visits : List Visit} {w : Visit} {c : Clause}
    (aside : s.Aside e w.block up c) (walk : Walk s.program δ e (w :: visits))
    (typed : ∀ v ∈ w :: visits, ∀ l, (v.values l).width = l.width)
    (distinct : ∀ x, s.program.blocks[up]? = some x → s.program.DistinctCases x.term) :
    ∃ v, (w :: visits).find? (·.block = up) = some v ∧ c.denote δ v.values = true := by
  obtain ⟨below, x, i, dest, dominates, closest, hx, edge, back, avoid⟩ := aside
  obtain ⟨v, x', k, dest', found, hx', takes, edge', on⟩ := walk.last_visit dominates closest.dominates closest.ne
  cases hx.symm.trans hx'
  have ne : i ≠ k := by
    rintro rfl
    cases edge.symm.trans edge'
    exact back on
  exact ⟨v, found, (excludes_of_avoidBranch avoid hx).denote_eq_true takes ne
    (typed v (List.mem_of_find?_eq_some found)) (distinct x hx)⟩

/-- Take a function whose switches have distinct cases, and a walk through it on which every visit takes the
edge that its values select. The facts stated for the block where the walk ends are the exclusions of those
edges of its strict dominators that lead on to the next dominator only by passing their own block again.
Each of them is true of the values at the last visit to the dominator, in whatever context it is stated. -/
theorem branchFacts_sound {base : Survey} {marked : List BlockId} {o : Overrides} {δ : ZeroDivision}
    {last : Visit} {visits : List Visit} {cs : List Clause} {ns ns' : List Notice}
    (confined : s.program.Confined) (made : Survey.ofProgram s.program marked = .ok base)
    (survey : s.survey = o.apply base) (he : s.program.IsEntry f e)
    (distinct : ∀ (b : BlockId) (x : Block), s.program.blocks[b]? = some x → x.func = f →
      s.program.DistinctCases x.term)
    (walk : Walk s.program δ e (last :: visits))
    (typed : ∀ v ∈ last :: visits, ∀ l, (v.values l).width = l.width)
    (run : s.branchFacts last.block ns = (.ok cs, ns')) :
    (∀ c, c ∈ cs ↔ ∃ up, s.Aside e last.block up c) ∧
    ∀ up c, s.Aside e last.block up c → Dominates s.program.targets e up last.block ∧
      ∃ v, (last :: visits).find? (·.block = up) = some v ∧ c.denote δ v.values = true ∧
        ∀ (capture : Capture) (context : Context) (σ : Leaf → Vec),
          (∀ l ∈ c.leaves, σ (capture.tag s.program context l) = v.values l) →
          (c.mapLeaves (capture.tag s.program context)).denote δ σ = true := by
  obtain ⟨forest, calls, execution, parts⟩ := Survey.exists_parts made
  have graph : s.survey.graph = base.graph := by
    rw [survey]
    rfl
  have idom : s.survey.idom? = (Dominators.ofProgram s.program s.survey.graph).idom? := by
    rw [graph, ← parts.idom_eq, survey]
    rfl
  have shows_p : s.survey.graph.Shows s.program := graph ▸ Survey.shows_graph confined made
  have reaches : Reaches s.program.targets e last.block := ⟨_, walk.path⟩
  refine ⟨branchFacts_gives confined shows_p he idom reaches cs ⟨ns, ns', run⟩, fun up c aside => ?_⟩
  have ⟨below, _, _, _, dominates, closest, _⟩ := aside
  have above := closest.dominates.trans dominates
  obtain ⟨v, found, holds⟩ := aside.last_visit walk typed fun x hx => by
    obtain ⟨x', hx', func⟩ := confined.reached he (above.reaches reaches)
    cases hx.symm.trans hx'
    exact distinct up x hx func
  refine ⟨above, v, found, holds, fun capture context σ agree => ?_⟩
  rw [Clause.mapLeaves, Clause.denote_subst, ← holds]
  exact Clause.denote_congr agree

end Subject

/-- A search that is taken up again where what it found does not do. -/
def Program.searching : Program where
  values := #[{ ty := .ptr, kind := .param 0 0 }, { ty := .int 1, kind := .inst 1 (.load 0) },
    { ty := .int 1, kind := .const 1 }, { ty := .int 1, kind := .const 0 }]
  blocks := #[
    { func := 0, name := "entry", term := .br 1 },
    { func := 0, name := "head", insts := [1], term := .switch 1 2 [(2, 3), (3, 2)] },
    { func := 0, name := "body", term := .br 1 },
    { func := 0, name := "found", term := .condBr 1 4 1 },
    { func := 0, name := "exit", term := .ret none }]
  functions := #[{ name := "main", params := [0], ret := .void, blocks := [0, 1, 2, 3, 4] }]

/-- A visit at which all leaves have one value. -/
def Visit.constant (b : BlockId) (value : Nat) : Visit where
  block := b
  values l := ⟨l.width, .ofNat l.width value⟩

/-- The search goes around twice: through its body, and back from where it found something. -/
def Visit.search : List Visit :=
  [constant 4 0, constant 3 1, constant 1 1, constant 3 0, constant 1 1, constant 2 0, constant 1 0, constant 0 0]

def Clause.searchFacts : List Clause :=
  let loaded := .result 1 boolWidth
  [.atom .eq loaded (.literal (.bool true)),
    .or (.atom .eq loaded (.ofInt boolWidth 1)) (.atom .eq loaded (.ofInt boolWidth 0)),
    .atom .ne loaded (.ofInt boolWidth 0)]

theorem Walk.search (δ : ZeroDivision) : Walk .searching δ 0 Visit.search := by
  have entry : Walk .searching δ 0 [.constant 0 0] := .start rfl
  have head := entry.step (w := .constant 1 0) (k := 0) rfl (.free rfl) rfl
  have body := head.step (w := .constant 2 0) rfl (.case (j := 1) rfl rfl rfl rfl) rfl
  have again := body.step (w := .constant 1 1) (k := 0) rfl (.free rfl) rfl
  have found := again.step (w := .constant 3 0) rfl (.case (j := 0) rfl rfl rfl rfl) rfl
  have back := found.step (w := .constant 1 1) rfl (.ifFalse rfl rfl) rfl
  have found := back.step (w := .constant 3 1) rfl (.case (j := 0) rfl rfl rfl rfl) rfl
  exact found.step rfl (.ifTrue rfl (by decide : (1 : BitVec boolWidth) ≠ 0)) rfl

namespace Subject
open Program

theorem branchFacts_sound_searching :
    searching.Confined ∧ ∃ base, Survey.ofProgram searching [] = .ok base ∧
      Subject.branchFacts { program := searching, survey := ({} : Overrides).apply base } 4 [] =
        (.ok Clause.searchFacts, []) ∧
      ∀ c ∈ Clause.searchFacts, ∃ up v, Visit.search.find? (·.block = up) = some v ∧
        c.denote (fun _ _ x => x) v.values = true := by
  have confined : searching.Confined := by decide
  have found : (Survey.ofProgram searching []).toOption.map (fun base =>
      Subject.branchFacts { program := searching, survey := ({} : Overrides).apply base } 4 []) =
        some (.ok Clause.searchFacts, []) := by cbv
  obtain ⟨base, made, run⟩ := Survey.exists_of_map_eq found
  have entry : searching.IsEntry 0 0 := ⟨_, rfl, rfl⟩
  have cases : ∀ x ∈ searching.blocks.toList, searching.DistinctCases x.term := by
    have literals : searching.DistinctCases (.switch 1 2 [(2, 3), (3, 2)]) :=
      ⟨[.ofInt boolWidth 1, .ofInt boolWidth 0], rfl, by decide⟩
    simpa [searching, DistinctCases] using literals
  have typed : ∀ v ∈ Visit.search, ∀ l, (v.values l).width = l.width := by
    simp [Visit.search, Visit.constant]
  obtain ⟨stated, holds⟩ := branchFacts_sound
    (s := { program := searching, survey := ({} : Overrides).apply base }) (o := {}) confined made rfl entry
    (fun b x hx _ => cases x (Array.mem_toList_iff.2 (Array.mem_of_getElem? hx)))
    (Walk.search fun _ _ x => x) typed run
  refine ⟨confined, base, made, run, fun c hc => ?_⟩
  obtain ⟨up, aside⟩ := (stated c).1 hc
  obtain ⟨-, v, last, true_at, -⟩ := holds up c aside
  exact ⟨up, v, last, true_at⟩

end Subject
end SsaFacts
