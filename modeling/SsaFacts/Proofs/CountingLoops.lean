import SsaFacts.Proofs.LoopNesting
import SsaFacts.Proofs.Runs

/-! Loops that count their iterations. A run enters a loop through its header only, where the counting φ
becomes 0 if it comes from outside and one more if it comes around. -/
namespace SsaFacts

open LoopForest (IsNatural)

theorem Program.mem_instsOf_of_mem_phis {p : Program} {b : BlockId} {v : ValueId}
    {all : List (ValueId × List (BlockId × ValueId))} {incoming : List (BlockId × ValueId)}
    (found : p.phis b = .ok all) (mem : (v, incoming) ∈ all) : v ∈ p.instsOf b := by
  obtain ⟨x, hx, found⟩ := Checked.bind_eq_ok.1 found
  obtain ⟨ops, mapped, ⟨⟩⟩ := Checked.bind_eq_ok.1 found
  have each : Gives (x.insts.mapM fun i => return (i, ← p.op? i)) fun ops => ∀ y ∈ ops, y.1 ∈ x.insts :=
    Gives.mapM fun i hi => .after fun o => .pure hi
  rw [instsOf_eq (block_eq_ok.1 hx)]
  exact each ops mapped _ (mem_of_mem_leading mem)

/-! ### What is recorded of a loop -/

namespace LoopForest
variable {p : Program} {g : FlowGraph} {d : Dominators} {reached : List BlockId} {l : Loop} {v : ValueId}

/-- The counting φ of a loop and its trip count are those that are looked for. -/
structure Annotated (p : Program) (g : FlowGraph) (d : Dominators) (l : Loop) : Prop where
  uncounted : l.induction = none → l.tripCount = none
  counted : ∀ v, l.induction = some v → induction? p l = .ok (some v) ∧ tripCount? p g d l v = .ok l.tripCount

theorem not_annotated_nest {base : Nat} {f : FuncId} {edges : List (BlockId × BlockId)}
    (mem : l ∈ nest base (discover g f edges)) : l.induction = none ∧ l.tripCount = none := by
  obtain ⟨⟨x, i⟩, hx, rfl⟩ := List.mem_map.1 mem
  have found := List.mem_mergeSort.1 (List.fst_mem_of_mem_zipIdx hx)
  obtain ⟨h, -, rfl⟩ := List.mem_map.1 found
  exact ⟨rfl, rfl⟩

theorem annotated_ofFunction {base : Nat} {f : FuncId} {loops : List Loop}
    (made : ofFunction p g d reached base f = .ok loops) : ∀ l ∈ loops, Annotated p g d l := by
  suffices each : Gives (ofFunction p g d reached base f) fun loops => ∀ l ∈ loops, Annotated p g d l from
    each loops made
  refine Gives.mapM fun l mem => ?_
  obtain ⟨uncounted, endless⟩ := not_annotated_nest mem
  refine Gives.bind (P := fun o => induction? p l = .ok o) (fun _ found => found) fun o found => ?_
  cases o with
  | none =>
    refine .pure ⟨fun _ => endless, fun v same => ?_⟩
    rw [uncounted] at same
    cases same
  | some v =>
    refine Gives.bind (P := fun n => tripCount? p g d l v = .ok n) (fun _ counted => counted) fun n counted => ?_
    refine .pure ⟨fun none => ?_, fun v' same => ?_⟩
    · cases none
    · cases same
      exact ⟨found, counted⟩

theorem annotated_ofProgram {forest : LoopForest} (made : ofProgram p g d reached = .ok forest) :
    ∀ l ∈ forest.loops, Annotated p g d l := by
  obtain ⟨loops, run, ⟨⟩⟩ := Checked.bind_eq_ok.1 made
  have step (fs : List FuncId) (prior : Array Loop) (each : ∀ l ∈ prior, Annotated p g d l)
      (run : fs.foldlM (fun loops f => do
        return loops ++ (← ofFunction p g d reached loops.size f).toArray) prior = .ok loops) :
      ∀ l ∈ loops, Annotated p g d l := by
    induction fs generalizing prior with
    | nil =>
      cases run
      exact each
    | cons f fs ih =>
      rw [List.foldlM_cons] at run
      obtain ⟨_, grow, run⟩ := Checked.bind_eq_ok.1 run
      obtain ⟨own, first, ⟨⟩⟩ := Checked.bind_eq_ok.1 grow
      refine ih _ (fun l mem => ?_) run
      rcases Array.mem_append.1 mem with mem | mem
      · exact each l mem
      · exact annotated_ofFunction first l (List.mem_toArray.1 mem)
  exact step _ #[] (by simp) run

end LoopForest

namespace Survey
variable {p : Program} {marked : List BlockId} {s : Survey} {i : LoopId} {l : Loop}

theorem exists_natural (regular : p.Regular) (confined : p.Confined) (made : ofProgram p marked = .ok s)
    (hl : s.loops[i]? = some l) : ∃ e, IsNatural p e l := by
  obtain ⟨forest, calls, execution, parts⟩ := exists_parts made
  have gathered := LoopForest.gathered_ofProgram regular confined (shows_graph confined made) parts.forest_eq
  rw [parts.loops_eq] at hl
  exact gathered.natural l (Array.mem_toList_iff.2 (Array.mem_of_getElem? hl))

theorem annotated (made : ofProgram p marked = .ok s) (hl : s.loops[i]? = some l) :
    LoopForest.Annotated p s.graph (.ofProgram p s.graph) l := by
  obtain ⟨forest, calls, execution, parts⟩ := exists_parts made
  rw [parts.loops_eq] at hl
  exact LoopForest.annotated_ofProgram parts.forest_eq l (Array.mem_of_getElem? hl)

theorem exists_loop_of_map_eq {α : Type} {x : α} (view : Survey → Loop → α)
    (found : (ofProgram p marked).toOption.map (fun s => s.loops[i]?.map (view s)) = some (some x)) :
    ∃ s l, ofProgram p marked = .ok s ∧ s.loops[i]? = some l ∧ view s l = x := by
  obtain ⟨s, made, found⟩ := exists_of_map_eq found
  obtain ⟨l, hl, same⟩ := Option.map_eq_some_iff.1 found
  exact ⟨s, l, made, hl, same⟩

end Survey

/-- The φ that counts the iterations of a loop, with the edges `enter` and `back` that lead into it. -/
structure Counts (p : Program) (l : Loop) (iv : ValueId) (incoming : List (BlockId × ValueId))
    (enter back : BlockId × ValueId) : Prop where
  listed : iv ∈ p.instsOf l.header
  isPhi : p.op? iv = .ok (some (.phi incoming))
  split : l.splitIncoming? incoming = some (enter, back)
  zero : p.const? enter.2 = .ok (some 0)
  increment : LoopForest.isIncrement p back.2 iv = .ok true

theorem LoopForest.exists_counts {p : Program} {l : Loop} {iv : ValueId} (found : induction? p l = .ok (some iv)) :
    ∃ incoming enter back, Counts p l iv incoming enter back := by
  obtain ⟨phis, listed, found⟩ := Checked.bind_eq_ok.1 found
  obtain ⟨⟨phi, incoming⟩, mem, found⟩ := Checked.exists_of_findSomeM? found
  dsimp only at found
  split at found
  case h_1 => cases found
  case h_2 a init b next split =>
    obtain ⟨c, const, found⟩ := Checked.bind_eq_ok.1 found
    split at found
    case isFalse => cases found
    case isTrue zero =>
      obtain ⟨increments, increment, found⟩ := Checked.bind_eq_ok.1 found
      split at found
      case isFalse => cases found
      case isTrue yes =>
        cases found
        exact ⟨incoming, _, _, Program.mem_instsOf_of_mem_phis listed mem, Program.op?_of_mem_phis listed mem, split,
          zero ▸ const, yes ▸ increment⟩

namespace Counts
variable {p : Program} {l : Loop} {iv : ValueId} {incoming : List (BlockId × ValueId)} {enter back : BlockId × ValueId}

theorem edges (counts : Counts p l iv incoming enter back) :
    (∀ edge, edge ∈ incoming ↔ edge = enter ∨ edge = back) ∧
      l.contains enter.1 = false ∧ l.contains back.1 = true := by
  have split := counts.split
  unfold Loop.splitIncoming? at split
  split at split
  case h_1 a b =>
    split at split <;> cases split <;> simp_all [or_comm]
  case h_2 => cases split

theorem exists_leaf (counts : Counts p l iv incoming enter back) : ∃ e, p.leaf iv = .ok e :=
  Program.exists_leaf_of_op counts.isPhi

theorem two_edges (counts : Counts p l iv incoming enter back) : ¬incoming.length ≠ 2 := by
  have split := counts.split
  unfold Loop.splitIncoming? at split
  split at split
  case h_1 => simp
  case h_2 => cases split

theorem exists_increment (counts : Counts p l iv incoming enter back) :
    ∃ one, p.const? one = .ok (some 1) ∧
      (p.op? back.2 = .ok (some (.binary .add iv one)) ∨ p.op? back.2 = .ok (some (.binary .add one iv))) := by
  obtain ⟨op, isOp, found⟩ := Checked.bind_eq_ok.1 counts.increment
  split at found
  case h_1 a b =>
    rw [isOp]
    have right (found : (do
        if b = iv then return (← p.const? a) = some 1
        return false) = Except.ok true) : b = iv ∧ p.const? a = .ok (some 1) := by
      split at found
      case isTrue same =>
        obtain ⟨c, const, one⟩ := Checked.bind_eq_ok.1 found
        exact ⟨same, const.trans (congrArg _ (of_decide_eq_true (Except.ok.inj one)))⟩
      case isFalse => cases found
    dsimp only at found
    by_cases same : a = iv
    · rw [if_pos same] at found
      obtain ⟨c, const, found⟩ := Checked.bind_eq_ok.1 found
      by_cases one : c = some 1
      · exact ⟨b, const.trans (congrArg _ one), .inl (by rw [same])⟩
      · rw [if_neg one] at found
        obtain ⟨same, const⟩ := right found
        exact ⟨a, const, .inr (by rw [same])⟩
    · rw [if_neg same] at found
      obtain ⟨same, const⟩ := right found
      exact ⟨a, const, .inr (by rw [same])⟩
  case h_2 => cases found

/-- Where it has been computed, what comes around is one more than the counting φ. -/
theorem read_back {δ : ZeroDivision} {ρ : Valuation p} (counts : Counts p l iv incoming enter back)
    (computes : ∀ op, p.op? back.2 = .ok (some op) → ρ.Computes δ back.2 op) :
    ∃ x : BitVec (p.modelWidth iv), ρ.read iv = ⟨_, x⟩ ∧ ρ.read back.2 = ⟨_, x + 1⟩ := by
  obtain ⟨x, hx⟩ := Vec.exists_bits (ρ.width_read iv)
  refine ⟨x, hx, ?_⟩
  obtain ⟨one, const, isOp⟩ := counts.exists_increment
  have sum {a b : ValueId} (isOp : p.op? back.2 = .ok (some (.binary .add a b))) :
      p.modelWidth a = p.modelWidth b ∧ ρ.read back.2 = BinOp.add.value δ (ρ.read a) (ρ.read b) := by
    have computed := computes _ isOp
    exact ⟨computed.agree, (ρ.read_of_op isOp).trans (computed.value_eq _ rfl)⟩
  rcases isOp with isOp | isOp
  · obtain ⟨width, value⟩ := sum isOp
    rw [value, hx, ρ.read_const const, ← width, BinOp.value_mk]
    simp [BinOp.apply]
  · obtain ⟨width, value⟩ := sum isOp
    rw [value, hx, ρ.read_const const, width, BinOp.value_mk]
    simp [BinOp.apply, BitVec.add_comm]

end Counts

/-! ### Runs through a loop -/

namespace LoopForest.IsNatural
variable {p : Program} {e a b : BlockId} {l : Loop}

theorem eq_header_of_edge (natural : IsNatural p e l) (edge : b ∈ p.targets a) (inside : b ∈ l.blocks)
    (outside : a ∉ l.blocks) : b = l.header := by
  rw [natural.mem_blocks] at inside outside
  by_contra ne
  obtain ⟨latch, isLatch, rest⟩ := inside.resolve_left ne
  have other : l.header ≠ a := by
    rintro rfl
    exact outside .header
  exact outside (.inr ⟨latch, isLatch, (Avoids.edge other (Ne.symm ne) edge).trans rest⟩)

end LoopForest.IsNatural

namespace Trace
variable {p : Program} {δ : ZeroDivision} {e : BlockId} {l : Loop} {iv : ValueId} {t : Passage p}
  {before : List (Passage p)} {incoming : List (BlockId × ValueId)} {enter back : BlockId × ValueId}

/-- At the end of the latch, what comes around is one more than the counting φ. -/
theorem read_back {f : FuncId} (ssa : p.Ssa) (he : p.IsEntry f e) (counts : Counts p l iv incoming enter back)
    (trace : Trace p δ e (t :: before)) (latch : t.block = back.1) :
    ∃ x : BitVec (p.modelWidth iv), t.values.read iv = ⟨_, x⟩ ∧ t.values.read back.2 = ⟨_, x + 1⟩ := by
  refine counts.read_back (δ := δ) fun op isOp => ?_
  have notPhi : ∀ incoming, op ≠ .phi incoming := by
    rintro incoming rfl
    obtain ⟨one, -, isSum | isSum⟩ := counts.exists_increment <;> cases isOp.symm.trans isSum
  obtain ⟨home, hhome⟩ := Program.exists_home isOp
  have available := ssa.incoming iv incoming counts.isPhi back ((counts.edges.1 back).2 (.inr rfl))
  exact trace.computes_of_dominates ssa he (ssa.listed _ _ hhome) isOp notPhi
    (latch ▸ available f e home he hhome)

/-- A block of a counting loop is entered from outside the loop, along the back edge, or from within. -/
theorem loop_cases (ssa : p.Ssa) (natural : IsNatural p e l) (counts : Counts p l iv incoming enter back)
    (trace : Trace p δ e (t :: before)) (inside : t.block ∈ l.blocks) :
    ∃ s earlier, before = s :: earlier ∧
      (t.block = l.header ∧ s.block = enter.1 ∧ s.block ∉ l.blocks ∧ t.values.value iv = s.values.read enter.2 ∨
       t.block = l.header ∧ s.block = back.1 ∧ s.block ∈ l.blocks ∧ t.values.value iv = s.values.read back.2 ∨
       t.block ≠ l.header ∧ s.block ∈ l.blocks ∧ t.values.value iv = s.values.value iv) := by
  by_cases header : t.block = l.header
  · obtain ⟨s, earlier, u, rfl, edge, value⟩ := trace.reads ssa (header ▸ counts.listed) counts.isPhi
    obtain ⟨mem, out, into⟩ := counts.edges
    rw [Loop.contains, List.contains_eq_mem, decide_eq_false_iff_not] at out
    rw [Loop.contains, List.contains_iff_mem] at into
    refine ⟨s, earlier, rfl, ?_⟩
    rcases (mem _).1 edge with same | same
    · rw [← same] at out ⊢
      exact .inl ⟨header, rfl, out, value⟩
    · rw [← same] at into ⊢
      exact .inr (.inl ⟨header, rfl, into, value⟩)
  · cases trace with
    | enter here body =>
      have dominates := ((natural.mem_blocks _).1 inside).dominates
      rw [here] at dominates header
      exact absurd (List.mem_singleton.1 (dominates _ .refl)).symm header
    | @step s _ earlier x k trace hx takes edge body =>
      refine ⟨s, earlier, rfl, .inr (.inr ⟨header, ?_, body.value_eq fun mem => header ?_⟩)⟩
      · by_contra outside
        have edge : t.block ∈ p.targets s.block := Program.mem_targets.2 ⟨x, hx, List.mem_of_getElem? edge⟩
        exact header (natural.eq_header_of_edge edge inside outside)
      · have home := ssa.regular.home?_eq mem
        rw [ssa.regular.home?_eq counts.listed] at home
        exact (Option.some.inj home).symm

end Trace

end SsaFacts
