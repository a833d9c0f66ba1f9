import SsaFacts.Facts.Loops
import SsaFacts.Proofs.ExecutionCounts
import SsaFacts.Proofs.CountingLoops

/-! The body of a loop: its instructions that are in none of its inner loops. -/
namespace SsaFacts

open LoopForest (IsNatural Inside Holds blockSets inside_iff)

theorem Latch.inLoop {next : Nat → List Nat} {start h l : Nat} (latch : Latch next start h l) :
    InLoop next start h l := by
  by_cases same : l = h
  · exact .inl same
  · exact .inr ⟨l, latch, [l], .refl, by simpa using Ne.symm same⟩

/-! ### Blocks of a loop's own -/

namespace Survey
variable {p : Program} {marked : List BlockId} {s : Survey} {i : LoopId} {l : Loop} {f : FuncId} {e b : BlockId}

theorem loopDepth_eq (innermost : s.innermost? b = some i) (hl : s.loops[i]? = some l) : s.loopDepth b = l.depth := by
  rw [loopDepth, innermost, Option.bind_some, hl]

section
variable (regular : p.Regular) (confined : p.Confined) (made : ofProgram p marked = .ok s) (he : p.IsEntry f e)
include regular confined made he

/-- A loop with a block is the innermost one around the block if it is as deep, and is otherwise less deep. -/
theorem depth_le (hl : s.loops[i]? = some l) (reaches : Reaches p.targets e b) (inside : b ∈ l.blocks) :
    l.depth ≤ s.loopDepth b ∧ (s.loopDepth b = l.depth → s.innermost? b = some i ∧
      ∀ (j : LoopId) x, s.loops[j]? = some x → b ∈ x.blocks → l.blocks ⊆ x.blocks) := by
  obtain ⟨forest, calls, execution, parts⟩ := exists_parts made
  have gathered := LoopForest.gathered_ofProgram regular confined (shows_graph confined made) parts.forest_eq
  obtain ⟨y, hy, -⟩ := confined.reached he reaches
  have innermost := parts.innermost_eq b (Array.getElem?_eq_some_iff.1 hy).1
  have get (j : LoopId) : s.loops[j]? = forest.loops.toList[j]? := by rw [parts.loops_eq, Array.getElem?_toList]
  rw [get] at hl
  have holds : Holds forest.loops.toList b i := ⟨l, hl, inside⟩
  obtain ⟨k, chosen⟩ : ∃ k, forest.innermost? b = some k :=
    Option.ne_none_iff_exists'.1 fun none => LoopForest.innermost?_eq_none.1 none i holds
  obtain ⟨⟨y, hy, -⟩, least⟩ := (gathered.innermost?_eq_some confined he reaches).1 chosen
  have depth := loopDepth_eq (innermost.trans chosen) ((get k).trans hy)
  by_cases same : k = i
  · subst same
    cases hl.symm.trans hy
    refine ⟨depth.ge, fun _ => ⟨innermost.trans chosen, fun j x hx mem => ?_⟩⟩
    rw [get] at hx
    exact (inside_iff hl hx).1 (least j ⟨x, hx, mem⟩)
  · have deeper := gathered.nested.ncard_lt (least i holds) same
    rw [← gathered.nested.depth k y hy, ← gathered.nested.depth i l hl, ← depth] at deeper
    exact ⟨deeper.le, fun same => absurd same deeper.ne'⟩

theorem innermost?_header (hl : s.loops[i]? = some l) (natural : IsNatural p e l) :
    s.innermost? l.header = some i := by
  obtain ⟨forest, calls, execution, parts⟩ := exists_parts made
  have gathered := LoopForest.gathered_ofProgram regular confined (shows_graph confined made) parts.forest_eq
  obtain ⟨y, hy, -⟩ := confined.reached he natural.reaches_header
  rw [parts.loops_eq, ← Array.getElem?_toList] at hl
  rw [parts.innermost_eq l.header (Array.getElem?_eq_some_iff.1 hy).1,
    gathered.innermost?_eq_some confined he natural.reaches_header]
  refine ⟨⟨l, hl, natural.header_mem⟩, ?_⟩
  rintro j ⟨x, hx, mem⟩
  exact gathered.inside_of_header_mem confined hl hx mem

theorem exists_loop_of_latch {h latch : BlockId} (isLatch : Latch p.targets e h latch) :
    ∃ (j : LoopId) (x : Loop), s.loops[j]? = some x ∧ x.header = h ∧ IsNatural p e x := by
  obtain ⟨forest, calls, execution, parts⟩ := exists_parts made
  have gathered := LoopForest.gathered_ofProgram regular confined (shows_graph confined made) parts.forest_eq
  obtain ⟨j, x, hx, func, header⟩ := (gathered.existsUnique_header he isLatch).exists
  obtain ⟨e', natural⟩ := gathered.natural x (List.mem_of_getElem? hx)
  obtain rfl := (func ▸ natural.entry).unique he
  exact ⟨j, x, by rw [parts.loops_eq, ← Array.getElem?_toList, hx], header, natural⟩

/-- The loops around a block that is reached are natural loops of its function. -/
theorem natural_of_mem (hl : s.loops[i]? = some l) (reaches : Reaches p.targets e b) (inside : b ∈ l.blocks) :
    IsNatural p e l := by
  obtain ⟨forest, calls, execution, parts⟩ := exists_parts made
  have gathered := LoopForest.gathered_ofProgram regular confined (shows_graph confined made) parts.forest_eq
  rw [parts.loops_eq, ← Array.getElem?_toList] at hl
  exact (gathered.natural_of_mem confined he reaches hl inside).2

/-- The edges that do not enter a block from the same loops or from further out are the back edges and those that
leave a deeper loop. -/
theorem entersShallow_eq_false_iff {source dest : BlockId} (reaches : Reaches p.targets e source)
    (edge : dest ∈ p.targets source) :
    s.entersShallow source dest = false ↔
      Dominates p.targets e dest source ∨ s.loopDepth dest < s.loopDepth source := by
  unfold entersShallow
  constructor
  · intro around
    split at around
    case isTrue other =>
      rw [decide_eq_false_iff_not] at around
      exact .inr (by omega)
    case isFalse same =>
      split at around
      case h_1 l headed =>
        obtain ⟨chosen, header⟩ := Option.filter_eq_some_iff.1 headed
        obtain ⟨i, -, hl⟩ := Option.bind_eq_some_iff.1 chosen
        have inside : source ∈ l.blocks := by simpa [Loop.contains] using around
        have natural := natural_of_mem regular confined made he hl reaches inside
        rw [← of_decide_eq_true header]
        exact .inl ((natural.mem_blocks source).1 inside).dominates
      case h_2 => cases around
  · rintro (dominates | deeper)
    · have isLatch : Latch p.targets e dest source := ⟨reaches, edge, dominates⟩
      obtain ⟨i, l, hl, rfl, natural⟩ := exists_loop_of_latch regular confined made he isLatch
      have inside : source ∈ l.blocks := (natural.mem_blocks source).2 isLatch.inLoop
      have innermost := innermost?_header regular confined made he hl natural
      have deep := (depth_le regular confined made he hl reaches inside).1
      -- the innermost loop around the header is the one that the latch is in
      have headed : s.headed? l.header = some l := by
        rw [headed?, innermost, Option.bind_some, hl, Option.filter_some]
        simp
      rw [loopDepth_eq innermost hl, headed]
      split
      case isTrue => simpa using deep
      case isFalse => simpa [Loop.contains] using inside
    · rw [if_pos (by omega)]
      simp [deeper.le]

end
end Survey

namespace Subject
variable {s : Subject} {l : Loop} {b : BlockId}

def Own (s : Subject) (l : Loop) (v : ValueId) : Prop :=
  ∃ b, s.program.home? v = some b ∧ s.ownBlock l b = true

theorem ownBlock_iff : s.ownBlock l b = true ↔ b ∈ l.blocks ∧ s.survey.loopDepth b = l.depth := by
  rw [ownBlock, Bool.and_eq_true, Loop.contains, List.contains_iff_mem, decide_eq_true_eq]

end Subject

/-- A φ is not defined by what flows in if one of the edges leads around or leaves a deeper loop. -/
theorem Subject.inUser_phi_eq_none {s : Subject} {b : BlockId} {v : ValueId} {incoming : List (BlockId × ValueId)}
    {edge : BlockId × ValueId} (regular : s.program.Regular) (mem : v ∈ s.program.instsOf b)
    (isPhi : s.program.op? v = .ok (some (.phi incoming))) (listed : edge ∈ incoming)
    (around : s.survey.entersShallow edge.1 b = false) : s.inUser v = .ok none := by
  have some_around : ¬(incoming.all fun edge => s.survey.entersShallow edge.1 b) = true := by
    rw [List.all_eq_true]
    intro all
    rw [all edge listed] at around
    cases around
  unfold inUser
  rw [isPhi, Checked.ok_bind]
  dsimp only
  unfold inPhi
  rw [regular.blockOf? mem, Checked.ok_bind]
  exact if_neg some_around

theorem Path.rotate {next : Nat → List Nat} {a b : Nat} {vs : List Nat} (cycle : Path next a vs a) (mem : b ∈ vs)
    (turns : 1 < vs.length) : ∃ ws, Path next b ws b ∧ 1 < ws.length ∧ ∀ x, x ∈ ws ↔ x ∈ vs := by
  obtain ⟨front, back, rfl⟩ := List.append_of_mem mem
  obtain ⟨before, after⟩ := cycle.cut
  refine ⟨_, after.append before, ?_, fun x => ?_⟩
  · simp only [List.length_append, List.length_cons, List.length_tail, List.length_nil] at turns ⊢
    omega
  · rw [after.mem_append before]
    simp only [List.mem_append, List.mem_cons, List.not_mem_nil]
    tauto

namespace Subject

/-- Every cycle through a block of the loop's own that does not pass the header has a block that dominates the
others. -/
def Reducible (s : Subject) (l : Loop) (e : BlockId) : Prop :=
  ∀ b vs, s.ownBlock l b = true → Path s.program.targets b vs b → 1 < vs.length → l.header ∉ vs →
    Headed s.program.targets e vs

variable {s : Subject} {marked : List BlockId} {i : LoopId} {l : Loop} {e b : BlockId} {v : ValueId}

theorem Reducible.of_ascending
    (ascending : ∀ a ∈ s.program.blockIds, ∀ b ∈ s.program.targets a, b = l.header ∨ a < b) : s.Reducible l e := by
  intro b vs _ cycle turns out
  have up (x y : BlockId) (edge : y ∈ s.program.targets x) : y = l.header ∨ x < y := by
    obtain ⟨block, hx, -⟩ := Program.mem_targets.1 edge
    exact ascending x (List.mem_range.2 (Array.getElem?_eq_some_iff.1 hx).1) y edge
  rcases cycle.lt_of_ascending up out with rfl | below
  · exact absurd turns (lt_irrefl 1)
  · exact absurd below (lt_irrefl b)

section
variable (ssa : s.program.Ssa) (made : Survey.ofProgram s.program marked = .ok s.survey)
  (hl : s.survey.loops[i]? = some l) (natural : IsNatural s.program e l)
include ssa made hl natural

theorem header_mem_cycle (reducible : s.Reducible l e) (own : s.ownBlock l b = true)
    (reaches : Reaches s.program.targets e b) {vs : List BlockId} (cycle : Path s.program.targets b vs b)
    (turns : 1 < vs.length) : l.header ∈ vs := by
  by_contra out
  obtain ⟨inside, depth⟩ := ownBlock_iff.1 own
  obtain ⟨h, mem, dominates⟩ := reducible b vs own cycle turns out
  obtain ⟨member, latch, isLatch⟩ := InLoop.of_cycle reaches cycle turns mem dominates
  obtain ⟨j, x, hx, rfl, natural'⟩ := Survey.exists_loop_of_latch ssa.regular ssa.confined made natural.entry isLatch
  have around := ((Survey.depth_le ssa.regular ssa.confined made natural.entry hl reaches inside).2 depth).2 j x hx
    ((natural'.mem_blocks b).2 member)
  have above := ((natural'.mem_blocks _).1 (around natural.header_mem)).dominates
  have below : InLoop s.program.targets e l.header x.header := by
    have other : b ≠ l.header := fun same => out (same ▸ cycle.mem_first)
    obtain ⟨latch', isLatch', rest⟩ := ((natural.mem_blocks b).1 inside).resolve_left other
    exact .inr ⟨latch', isLatch', (Avoids.of_mem cycle out mem).trans rest⟩
  exact out (above.antisymm below.dominates natural.reaches_header ▸ mem)

theorem own_of_mem_header (mem : v ∈ s.program.instsOf l.header) : s.Own l v := by
  have innermost := Survey.innermost?_header ssa.regular ssa.confined made natural.entry hl natural
  exact ⟨l.header, ssa.regular.home?_eq mem,
    ownBlock_iff.2 ⟨natural.header_mem, Survey.loopDepth_eq innermost hl⟩⟩

omit hl in
/-- The φs of the header are not defined by what flows in, since one of the edges leads around. -/
theorem inUser_phi_of_header {incoming : List (BlockId × ValueId)} (mem : v ∈ s.program.instsOf l.header)
    (isPhi : s.program.op? v = .ok (some (.phi incoming))) : s.inUser v = .ok none := by
  obtain ⟨latch, isLatch⟩ := natural.latch
  obtain ⟨edge, listed, rfl⟩ := List.mem_map.1 ((ssa.sources _ v incoming mem isPhi latch).2 isLatch.edge)
  exact inUser_phi_eq_none ssa.regular mem isPhi listed ((Survey.entersShallow_eq_false_iff ssa.regular ssa.confined
    made natural.entry isLatch.reaches isLatch.edge).2 (.inl isLatch.dominates))

end
end Subject

/-! ### Instructions that run -/

theorem Subject.reaches_of_observed {s : Subject} {marked : List BlockId} {l : Loop} {e b : BlockId} {v : ValueId}
    (ssa : s.program.Ssa) (made : Survey.ofProgram s.program marked = .ok s.survey) (natural : IsNatural s.program e l)
    (inside : b ∈ l.blocks) (mem : v ∈ s.program.instsOf b) (observed : s.observed v = .ok true) :
    Reaches s.program.targets e b := by
  obtain ⟨forest, calls, execution, parts⟩ := Survey.exists_parts made
  obtain ⟨x, hx, listed⟩ := Program.mem_instsOf.1 mem
  obtain ⟨x', hx', func⟩ := natural.func_of_mem ssa.confined inside
  cases hx.symm.trans hx'
  suffices reached : b ∈ s.survey.graph.reached s.program by
    obtain ⟨e', he, reaches⟩ := Survey.exists_reaches ssa.regular ssa.confined made
      (ssa.regular.mem_blocksOf.2 ⟨x, hx, func⟩) reached
    exact natural.entry.unique he ▸ reaches
  by_contra out
  have dead : s.survey.instDead v = true := by
    rw [parts.instDead_eq, List.contains_iff_mem]
    have placed := ssa.regular.mem_blocksOf.2 ⟨x, hx, func⟩
    exact (Execution.mem_instDead parts.execution_eq).2 ⟨_, b, placed, mem, by simp [Survey.setting, out]⟩
  obtain ⟨y, hy, alive⟩ := Checked.bind_eq_ok.1 observed
  obtain ⟨z, op, hz, kind⟩ := ssa.regular.placed b x hx v listed
  cases (Program.value_eq_ok.1 hy).symm.trans hz
  rw [kind] at alive
  split at alive
  · cases alive
  · rw [dead] at alive
    cases alive

/-! ### Filling in values -/

namespace Valuation
variable {p : Program} {v : ValueId}

/-- Whatever the values of `us` are, some value of `v` makes `P` true. -/
def Settled (P : Valuation p → Prop) (v : ValueId) (us : List ValueId) : Prop :=
  ∀ ρ : Valuation p, ∃ x : Vec, x.width = p.modelWidth v ∧
    ∀ σ : Valuation p, σ.value v = x → (∀ u ∈ us, σ.read u = ρ.read u) → P σ

/-- What settles one value each is made true one after the other, if each depends on values that are settled
before. -/
theorem exists_filling {α : Type} [Preorder α] {P : ValueId → Valuation p → Prop} {rank : ValueId → α}
    {vs : List ValueId} (nodup : vs.Nodup) (sorted : vs.Pairwise fun u v => rank u ≤ rank v)
    (settled : ∀ v ∈ vs, ∃ us, Settled (P v) v us ∧ ∀ u ∈ us, u ∈ vs → rank u < rank v) (ρ : Valuation p) :
    ∃ σ : Valuation p, (∀ u, u ∉ vs → σ.value u = ρ.value u) ∧ ∀ v ∈ vs, P v σ := by
  induction vs generalizing ρ with
  | nil => exact ⟨ρ, fun _ _ => rfl, by simp⟩
  | cons v vs ih =>
    obtain ⟨fresh, nodup⟩ := List.nodup_cons.1 nodup
    obtain ⟨above, sorted⟩ := List.pairwise_cons.1 sorted
    obtain ⟨⟨us, first, lower⟩, others⟩ := List.forall_mem_cons.1 settled
    obtain ⟨x, width, makes⟩ := first ρ
    obtain ⟨σ, same, true⟩ := ih nodup sorted (fun w hw => (others w hw).imp fun _ settled =>
      ⟨settled.1, fun u used hu => settled.2 u used (.tail _ hu)⟩) (ρ.set v x width)
    refine ⟨σ, fun u out => ?_, List.forall_mem_cons.2 ⟨makes σ ?_ fun u used => read_congr ?_, true⟩⟩
    · rw [List.mem_cons, not_or] at out
      rw [same u out.2, value_set_of_ne width out.1]
    · rw [same v fresh, value_set_self]
    · have ne : u ≠ v := by
        rintro rfl
        exact lt_irrefl _ (lower u used List.mem_cons_self)
      have out : u ∉ vs := fun hu => (lower u used (.tail _ hu)).not_ge (above u hu)
      rw [same u out, value_set_of_ne width ne]

end Valuation

namespace Program
variable {p : Program} {e b d : BlockId} {u v : ValueId} {order : List BlockId}

theorem idxOf_lt_of_sublist {l : List ValueId} (nodup : l.Nodup) (sublist : [u, v].Sublist l) :
    l.idxOf u < l.idxOf v := by
  induction l with
  | nil => cases sublist
  | cons x l ih =>
    obtain ⟨fresh, nodup⟩ := List.nodup_cons.1 nodup
    have other {w : ValueId} (mem : w ∈ l) : x ≠ w := by
      rintro rfl
      exact fresh mem
    cases sublist with
    | cons _ sublist =>
      rw [List.idxOf_cons_ne _ (other (sublist.subset (by simp))),
        List.idxOf_cons_ne _ (other (sublist.subset (by simp)))]
      exact Nat.succ_lt_succ (ih nodup sublist)
    | cons_cons _ sublist =>
      rw [List.idxOf_cons_self, List.idxOf_cons_ne _ (other (List.singleton_sublist.1 sublist))]
      exact Nat.succ_pos _

def position (p : Program) (order : List BlockId) (v : ValueId) : ℕ ×ₗ ℕ :=
  let b := (p.home? v).getD 0
  toLex (order.idxOf b, (p.instsOf b).idxOf v)

theorem exists_numbers (confined : p.Confined) (e : BlockId) : ∃ order, Numbers p.targets e order := by
  obtain ⟨g, -, shows_p⟩ := FlowGraph.ofProgram_ok confined
  have numbers := g.numbers_reversePostorder (fun a b edge =>
    (shows_p.edge_lt confined ((shows_p.mem_next a b).1 edge)).2) e
  refine ⟨_, numbers.nodup, fun b => (numbers.mem_iff b).trans ?_, fun b hb ne => ?_⟩
  · exact exists_congr fun vs => shows_p.path_iff
  · obtain ⟨a, ha, edge, before⟩ := numbers.parent b hb ne
    exact ⟨a, ha, (shows_p.mem_next a b).1 edge, before⟩

/-- What is defined in a dominator, or before in the same block, stands before. -/
theorem position_lt (regular : p.Regular) (numbers : Numbers p.targets e order) (reaches : Reaches p.targets e b)
    (homeU : p.home? u = some d) (homeV : p.home? v = some b) (dominates : Dominates p.targets e d b)
    (before : d = b → [u, v].Sublist (p.instsOf b)) : p.position order u < p.position order v := by
  have hb := (numbers.mem_iff b).2 reaches
  rw [position, position, homeU, homeV, Option.getD_some, Option.getD_some, Prod.Lex.toLex_lt_toLex]
  by_cases same : d = b
  · subst same
    obtain ⟨x, hx, -⟩ := mem_instsOf.1 ((before rfl).subset List.mem_cons_self)
    exact .inr ⟨rfl, idxOf_lt_of_sublist (instsOf_eq hx ▸ regular.distinct d x hx) (before rfl)⟩
  · have hd := (numbers.mem_iff d).2 (dominates.reaches reaches)
    exact .inl (lt_of_le_of_ne (numbers.idxOf_le hb dominates) fun eq => same ((List.idxOf_inj hd).1 eq))

end Program

namespace Subject
variable {s : Subject} {l : Loop} {v : ValueId} {c : Clause} {cs : List Clause}

structure Asserts (s : Subject) (l : Loop) (v : ValueId) (c : Clause) : Prop where
  own : s.Own l v
  observed : s.observed v = .ok true
  found : s.inUser v = .ok (some c)

theorem mem_inLoopBody (ssa : s.program.Ssa) (found : s.inLoopBody l = .ok cs) : c ∈ cs ↔ ∃ v, s.Asserts l v c := by
  have each (v : ValueId) : Gives (do if ← s.observed v then s.inUser v else return none) fun o =>
      ∀ c, c ∈ o ↔ s.observed v = .ok true ∧ s.inUser v = .ok (some c) := by
    refine Gives.bind (P := fun seen => s.observed v = .ok seen) (fun _ seen => seen) fun seen hseen => ?_
    cases seen with
    | false =>
      refine .pure fun c => ?_
      simp [hseen]
    | true =>
      rintro o defined c
      have defined : s.inUser v = .ok o := defined
      rw [defined, hseen, Option.mem_def]
      simp
  rw [Gives.mem_filterMapM (fun v _ => each v) cs found c]
  simp only [List.mem_flatMap, List.mem_filter, decide_eq_true_eq]
  constructor
  · rintro ⟨v, ⟨b, ⟨inside, depth⟩, mem⟩, observed, defined⟩
    exact ⟨v, ⟨b, ssa.regular.home?_eq mem, ownBlock_iff.2 ⟨inside, depth⟩⟩, observed, defined⟩
  · rintro ⟨v, ⟨b, home, own⟩, observed, defined⟩
    exact ⟨v, ⟨b, ownBlock_iff.1 own, ssa.listed v b home⟩, observed, defined⟩

section
variable {marked : List BlockId} {e : BlockId} {δ : ZeroDivision} (ssa : s.program.Ssa)
  (made : Survey.ofProgram s.program marked = .ok s.survey) (natural : IsNatural s.program e l)
  (sized : ∀ v op, s.Own l v → s.program.op? v = .ok (some op) → op.Sized s.program)
include ssa made natural sized

/-- A fact of the body settles the instruction that it defines, given instructions that stand before it. -/
theorem Asserts.exists_settled {order : List BlockId} (numbers : Numbers s.program.targets e order)
    (asserts : s.Asserts l v c) :
    ∃ us, Valuation.Settled (p := s.program) (fun σ => c.denote δ σ.env = true) v us ∧
      ∀ u ∈ us, ∀ d, s.program.home? u = some d → s.program.position order u < s.program.position order v := by
  have sized (op : Op) := sized v op asserts.own
  obtain ⟨⟨b, home, own⟩, observed, found⟩ := asserts
  have mem := ssa.listed v b home
  have inside := (ownBlock_iff.1 own).1
  have reaches := reaches_of_observed ssa made natural inside mem observed
  obtain ⟨op, isOp⟩ := Program.exists_op home
  by_cases phi : ∃ incoming, op = .phi incoming
  · obtain ⟨incoming, rfl⟩ := phi
    have ne : b ≠ l.header := by
      rintro rfl
      rw [inUser_phi_of_header ssa made natural mem isOp] at found
      cases found
    have notStart : b ≠ e := by
      rintro rfl
      exact ne ((natural.mem_blocks b).1 inside).dominates.eq_start.symm
    -- What flows in from a block that comes before is defined there or above.
    obtain ⟨a, ha, edge, before⟩ := numbers.parent b ((numbers.mem_iff b).2 reaches) notStart
    obtain ⟨⟨a, u⟩, into, rfl⟩ := List.mem_map.1 ((ssa.sources b v incoming mem isOp a).2 edge)
    refine ⟨[u], fun ρ => ⟨ρ.read u, ?_, fun σ value reads => ?_⟩, ?_⟩
    · rw [ρ.width_read]
      exact (inPhi_iff (δ := δ) (ρ := ρ) isOp found).1 _ into
    · refine (inPhi_iff isOp found).2.2 ⟨_, into, ?_⟩
      rw [σ.read_of_op isOp, value, reads u (by simp)]
    · intro w hw d home'
      obtain rfl := List.mem_singleton.1 hw
      have above := ssa.incoming v incoming isOp _ into _ _ d natural.entry home'
      rw [Program.position, Program.position, home, home', Option.getD_some, Option.getD_some,
        Prod.Lex.toLex_lt_toLex]
      exact .inl ((numbers.idxOf_le ha above).trans_lt before)
  · have notPhi : ∀ incoming, op ≠ .phi incoming := fun incoming same => phi ⟨incoming, same⟩
    refine ⟨op.operands, fun ρ => ?_, fun u used d home' => ?_⟩
    · obtain ⟨y, result, fixes⟩ := inUser_fixes (δ := δ) (ρ := ρ) isOp notPhi (sized op isOp) found
      refine ⟨y, fixes.width_eq, fun σ value reads => ?_⟩
      obtain ⟨z, result', fixes'⟩ := inUser_fixes (δ := δ) (ρ := σ) isOp notPhi (sized op isOp) found
      rw [Op.result?_congr reads, result] at result'
      cases result'
      exact fixes'.denote_iff.2 (by rw [σ.read_of_op isOp, value])
    · obtain ⟨available, before⟩ := ssa.operands b v op mem isOp notPhi u used
      exact Program.position_lt ssa.regular numbers reaches home' home (available _ _ d natural.entry home')
        fun same => before (same ▸ home')

/-- The facts of a body are made true by choosing the values of its instructions, where some may be kept. -/
theorem exists_body (found : s.inLoopBody l = .ok cs) (τ : Valuation s.program) (kept : ValueId → Prop)
    (holds : ∀ v c, kept v → s.Asserts l v c → ∀ σ : Valuation s.program,
      (∀ u, (s.Own l u → kept u) → σ.value u = τ.value u) → c.denote δ σ.env = true) :
    ∃ σ : Valuation s.program, (∀ u, (s.Own l u → kept u) → σ.value u = τ.value u) ∧
      ∀ c ∈ cs, c.denote δ σ.env = true := by
  classical
  obtain ⟨order, numbers⟩ := Program.exists_numbers ssa.confined e
  let vs := (s.program.valueIds.filter fun v => (∃ c, s.Asserts l v c) ∧ ¬kept v).mergeSort fun u v =>
    s.program.position order u ≤ s.program.position order v
  have mem (v : ValueId) : v ∈ vs ↔ (∃ c, s.Asserts l v c) ∧ ¬kept v := by
    rw [List.mem_mergeSort, List.mem_filter, decide_eq_true_eq, and_iff_right_iff_imp]
    rintro ⟨⟨c, ⟨b, home, -⟩, -⟩, -⟩
    exact List.mem_range.2 (Program.lt_of_home? home)
  have nodup : vs.Nodup := (List.mergeSort_perm _ _).nodup_iff.2 (List.nodup_range.filter _)
  have sorted : vs.Pairwise fun u v => s.program.position order u ≤ s.program.position order v := by
    refine (List.pairwise_mergeSort ?_ ?_ _).imp fun le => of_decide_eq_true le
    · simp only [decide_eq_true_eq]
      exact fun a b c first second => first.trans second
    · simp only [Bool.or_eq_true, decide_eq_true_eq]
      exact fun a b => le_total _ _
  have settled : ∀ v ∈ vs, ∃ us, Valuation.Settled (p := s.program)
      (fun σ => ∀ c, s.Asserts l v c → c.denote δ σ.env = true) v us ∧
      ∀ u ∈ us, u ∈ vs → s.program.position order u < s.program.position order v := by
    intro v hv
    obtain ⟨⟨c, asserts⟩, -⟩ := (mem v).1 hv
    obtain ⟨us, settled, before⟩ := asserts.exists_settled (δ := δ) ssa made natural sized numbers
    refine ⟨us, fun ρ => ?_, fun u used hu => ?_⟩
    · obtain ⟨x, width, makes⟩ := settled ρ
      refine ⟨x, width, fun σ value reads c' asserts' => ?_⟩
      have same := asserts'.found
      rw [asserts.found] at same
      cases same
      exact makes σ value reads
    · obtain ⟨⟨c', ⟨d, home, -⟩, -⟩, -⟩ := (mem u).1 hu
      exact before u used d home
  obtain ⟨σ, same, filled⟩ := Valuation.exists_filling nodup sorted settled τ
  have agrees : ∀ u, (s.Own l u → kept u) → σ.value u = τ.value u := by
    intro u own
    refine same u fun hu => ?_
    obtain ⟨⟨c, asserts⟩, notKept⟩ := (mem u).1 hu
    exact notKept (own asserts.own)
  refine ⟨σ, agrees, fun c hc => ?_⟩
  obtain ⟨v, asserted⟩ := (mem_inLoopBody ssa found).1 hc
  by_cases keeps : kept v
  · exact holds v c keeps asserted σ agrees
  · exact filled v ((mem v).2 ⟨⟨c, asserted⟩, keeps⟩) c asserted

end
end Subject

/-! ### What is read of a survey -/

namespace Survey

structure Readings where
  loops : Array Loop
  innermost? : BlockId → Option LoopId
  funcDead : FuncId → Bool
  instDead : ValueId → Bool

def readings (s : Survey) : Readings where
  loops := s.loops
  innermost? := s.innermost?
  funcDead := s.funcDead
  instDead := s.instDead

def withReadings (s : Survey) (r : Readings) : Survey :=
  { s with loops := r.loops, innermost? := r.innermost?, funcDead := r.funcDead, instDead := r.instDead }

/-- The readings for a program of which only the first function runs, and all of it. -/
def Readings.ofLoops (loops : Array Loop) (innermost : Array (Option LoopId)) : Readings where
  loops := loops
  innermost? b := innermost.getD b none
  funcDead f := !List.contains [0] f
  instDead := List.contains []

instance inhabited : Inhabited Survey where
  default := {
    graph := ⟨#[], #[]⟩, loops := #[], topLoops := fun _ => [], innermost? := fun _ => none, idom? := fun _ => none
    callSites := fun _ => [], callees := fun _ => [], funcOnce := fun _ => false, funcDead := fun _ => false
    instOnce := fun _ => false, instDead := fun _ => false, mustAlias := fun _ _ => .ok false
    mayWrite := fun _ _ => .ok false, marked := fun _ => false }

theorem exists_withReadings {p : Program} {r : Readings} (found : (ofProgram p []).toOption.map readings = some r) :
    ∃ s : Survey, ofProgram p [] = .ok (s.withReadings r) := by
  obtain ⟨s, made, rfl⟩ := exists_of_map_eq found
  exact ⟨s, made⟩

end Survey

namespace Subject
variable {p : Program} {r : Survey.Readings} {l : Loop} {v : ValueId}

theorem address?_congr (s s' : Survey) {e : Expr} {steps : List GepStep} :
    address? { program := p, survey := s } e steps = address? { program := p, survey := s' } e steps := by
  induction steps generalizing e with
  | nil => rfl
  | cons step rest ih =>
    simp only [address?, ih]
    rfl

theorem inUser_withReadings (s s' : Survey) :
    inUser { program := p, survey := s.withReadings r } v = inUser { program := p, survey := s'.withReadings r } v := by
  have gep (base : ValueId) (steps : List GepStep) : inGep { program := p, survey := s.withReadings r } v base steps =
      inGep { program := p, survey := s'.withReadings r } v base steps := by
    simp only [inGep, address?_congr (s.withReadings r) (s'.withReadings r)]
    rfl
  simp only [inUser, gep]
  rfl

theorem inLoop_withReadings (s s' : Survey) :
    inLoop { program := p, survey := s.withReadings r } l = inLoop { program := p, survey := s'.withReadings r } l := by
  have body : inLoopBody { program := p, survey := s.withReadings r } l =
      inLoopBody { program := p, survey := s'.withReadings r } l := by
    simp only [inLoopBody, inUser_withReadings s s']
    rfl
  have bound : loopBound { program := p, survey := s.withReadings r } l =
      loopBound { program := p, survey := s'.withReadings r } l := by
    simp only [loopBound, recurrentBound, body]
    rfl
  simp only [inLoop, body, bound]

end Subject

end SsaFacts
