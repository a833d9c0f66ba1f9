import SsaFacts.Proofs.LoopNesting

/-! Instructions that are said to run at most once. They are in no natural loop, so the cycles that they are
on, if any, are those that none of their blocks dominates. -/
namespace SsaFacts

namespace Program
variable {p : Program} {b c : BlockId} {i : ValueId}

/-- The instructions that run along a way, which lists its last block first. -/
def along (p : Program) (vs : List BlockId) : List ValueId := vs.reverse.flatMap p.instsOf

namespace Regular

theorem eq_of_mem_instsOf (regular : p.Regular) (hb : i ∈ p.instsOf b) (hc : i ∈ p.instsOf c) : b = c :=
  Option.some.inj (Except.ok.inj ((regular.blockOf? hb).symm.trans (regular.blockOf? hc)))

theorem count_along (regular : p.Regular) (hi : i ∈ p.instsOf b) (vs : List BlockId) :
    (p.along vs).count i = vs.count b := by
  have each (c : BlockId) : (p.instsOf c).count i = if c = b then 1 else 0 := by
    split
    case isTrue same =>
      subst same
      obtain ⟨x, hx, mem⟩ := mem_instsOf.1 hi
      rw [instsOf_eq hx]
      exact List.count_eq_one_of_mem (regular.distinct c x hx) mem
    case isFalse ne =>
      exact List.count_eq_zero_of_not_mem fun hc => ne (regular.eq_of_mem_instsOf hc hi)
  rw [along, ← List.count_reverse (a := b)]
  induction vs.reverse with
  | nil => rfl
  | cons c rest ih =>
    rw [List.flatMap_cons, List.count_append, ih, each, List.count_cons]
    simp only [beq_iff_eq]
    omega

end Regular
end Program

namespace Execution
variable {s : Setting} {execution : Execution} {i : ValueId}

theorem funcOnce_eq (made : ofSetting s = .ok execution) : onceFunctions s = .ok execution.funcOnce := by
  obtain ⟨once, saturated, ⟨⟩⟩ := Checked.bind_eq_ok.1 made
  exact saturated

theorem mem_instOnce (made : ofSetting s = .ok execution) :
    i ∈ execution.instOnce ↔ ∃ f b, b ∈ s.program.blocksOf f ∧ i ∈ s.program.instsOf b ∧
      f ∈ s.reached ∧ s.runs b = true ∧ f ∈ execution.funcOnce ∧ s.inLoop b = false := by
  obtain ⟨once, saturated, ⟨⟩⟩ := Checked.bind_eq_ok.1 made
  simp only [List.mem_filterMap, List.mem_flatMap, List.mem_map, Program.functionIds, List.mem_range]
  constructor
  · rintro ⟨⟨f, b, j⟩, ⟨f', -, b', hb, j', hj, same⟩, chosen⟩
    cases same
    obtain ⟨holds, same⟩ := Option.ite_none_right_eq_some.1 chosen
    cases same
    simp only [Bool.and_eq_true, Bool.not_eq_true', Bool.or_eq_false_iff, Bool.not_eq_false',
      List.contains_iff_mem] at holds
    exact ⟨f, b, hb, hj, holds.1.1.1, holds.1.1.2, holds.1.2, holds.2⟩
  · rintro ⟨f, b, hb, hi, reached, runs, funcOnce, outside⟩
    have inside : f < s.program.functions.size := by
      obtain ⟨fn, hf, -⟩ := Program.mem_blocksOf.1 hb
      exact (Array.getElem?_eq_some_iff.1 hf).1
    refine ⟨(f, b, i), ⟨f, inside, b, hb, i, hi, rfl⟩, if_pos ?_⟩
    simp [reached, runs, funcOnce, outside]

theorem mem_instDead (made : ofSetting s = .ok execution) :
    i ∈ execution.instDead ↔ ∃ f b, b ∈ s.program.blocksOf f ∧ i ∈ s.program.instsOf b ∧
      ¬(f ∈ s.reached ∧ s.runs b = true) := by
  obtain ⟨once, saturated, ⟨⟩⟩ := Checked.bind_eq_ok.1 made
  simp only [List.mem_filterMap, List.mem_flatMap, List.mem_map, Program.functionIds, List.mem_range]
  constructor
  · rintro ⟨⟨f, b, j⟩, ⟨f', -, b', hb, j', hj, same⟩, chosen⟩
    cases same
    obtain ⟨dead, same⟩ := Option.ite_none_right_eq_some.1 chosen
    cases same
    exact ⟨f, b, hb, hj, by simpa [imp_iff_not_or] using dead⟩
  · rintro ⟨f, b, hb, hi, dead⟩
    have inside : f < s.program.functions.size := by
      obtain ⟨fn, hf, -⟩ := Program.mem_blocksOf.1 hb
      exact (Array.getElem?_eq_some_iff.1 hf).1
    exact ⟨(f, b, i), ⟨f, inside, b, hb, i, hi, rfl⟩, if_pos (by simpa [imp_iff_not_or] using dead)⟩

end Execution

def Headed (next : Nat → List Nat) (start : Nat) (vs : List Nat) : Prop :=
  ∃ h ∈ vs, ∀ x ∈ vs, Dominates next start h x

namespace Survey
variable {p : Program} {marked : List BlockId} {s : Survey} {i : ValueId} {f : FuncId} {b e : BlockId}

/-- The block of an instruction that runs at most once is reached and in no loop. -/
theorem outside_of_instOnce (made : ofProgram p marked = .ok s) (once : s.instOnce i = true) :
    ∃ f b, b ∈ p.blocksOf f ∧ i ∈ p.instsOf b ∧ s.funcOnce f = true ∧ b ∈ s.graph.reached p ∧
      s.innermost? b = none := by
  obtain ⟨forest, calls, execution, parts⟩ := exists_parts made
  rw [parts.instOnce_eq, List.contains_iff_mem, Execution.mem_instOnce parts.execution_eq] at once
  obtain ⟨f, b, hb, hi, -, runs, funcOnce, outside⟩ := once
  refine ⟨f, b, hb, hi, ?_, ?_, ?_⟩
  · rwa [parts.funcOnce_eq, List.contains_iff_mem]
  · simp only [setting, Bool.and_eq_true, List.contains_iff_mem] at runs
    exact runs.1
  · simpa [setting] using outside

/-- A block of a function that is reached is reached from the function's entry. -/
theorem exists_reaches (regular : p.Regular) (confined : p.Confined) (made : ofProgram p marked = .ok s)
    (hb : b ∈ p.blocksOf f) (reached : b ∈ s.graph.reached p) : ∃ e, p.IsEntry f e ∧ Reaches p.targets e b := by
  obtain ⟨f', e, he, reaches⟩ := ((shows_graph confined made).mem_reached confined).1 reached
  obtain ⟨x, hx, rfl⟩ := regular.mem_blocksOf.1 hb
  obtain ⟨x', hx', rfl⟩ := confined.reached he reaches
  cases hx.symm.trans hx'
  exact ⟨e, he, reaches⟩

theorem not_headed (regular : p.Regular) (confined : p.Confined) (made : ofProgram p marked = .ok s)
    (he : p.IsEntry f e) (reaches : Reaches p.targets e b) (none : s.innermost? b = none) {vs : List BlockId}
    (cycle : Path p.targets b vs b) (turns : 1 < vs.length) : ¬Headed p.targets e vs := by
  rintro ⟨h, mem, dominates⟩
  obtain ⟨inside, l, latch⟩ := InLoop.of_cycle reaches cycle turns mem dominates
  exact not_inLoop regular confined made he reaches none latch inside

/-- In a program whose functions do not branch into each other, an instruction that is said to run at most
once is in a block that is reached, and none of the blocks of a cycle that it is on dominates the cycle. If
every cycle through its block has such a block, there is none, and the instruction runs at most once along
every way from the entry of its function. -/
theorem instOnce_on_no_cycle (regular : p.Regular) (confined : p.Confined) (made : ofProgram p marked = .ok s)
    (once : s.instOnce i = true) :
    ∃ f e b, p.IsEntry f e ∧ p.blockOf? i = .ok (some b) ∧ i ∈ p.instsOf b ∧ Reaches p.targets e b ∧
      (∀ vs, Path p.targets b vs b → 1 < vs.length → ¬Headed p.targets e vs) ∧
      ((∀ vs, Path p.targets b vs b → 1 < vs.length → Headed p.targets e vs) →
        (∀ vs, Path p.targets b vs b → vs.length = 1) ∧
        ∀ vs c, Path p.targets e vs c → (p.along vs).count i ≤ 1) := by
  obtain ⟨f, b, hb, hi, -, reached, none⟩ := outside_of_instOnce made once
  obtain ⟨e, he, reaches⟩ := exists_reaches regular confined made hb reached
  have unheaded (vs : List BlockId) (cycle : Path p.targets b vs b) (turns : 1 < vs.length) :
      ¬Headed p.targets e vs := not_headed regular confined made he reaches none cycle turns
  refine ⟨f, e, b, he, regular.blockOf? hi, hi, reaches, unheaded, fun headed => ?_⟩
  have straight (vs : List BlockId) (cycle : Path p.targets b vs b) : ¬1 < vs.length := fun turns =>
    unheaded vs cycle turns (headed vs cycle turns)
  refine ⟨fun vs cycle => ?_, fun vs c path => ?_⟩
  · have nonempty := List.length_pos_of_mem cycle.mem_last
    have := straight vs cycle
    omega
  · rw [regular.count_along hi]
    by_contra twice
    obtain ⟨ws, cycle, turns⟩ := path.exists_cycle (by omega : 1 < vs.count b)
    exact straight ws cycle turns

def passed : Program where
  values := #[
    { ty := .int 1, kind := .param 0 0 },
    { ty := .ptr, kind := .inst 1 (.alloca 8) },
    { ty := .ptr, kind := .inst 2 (.alloca 8) }]
  blocks := #[
    { func := 0, name := "entry", term := .br 1 },
    { func := 0, name := "loop", insts := [1], term := .condBr 0 1 2 },
    { func := 0, name := "exit", insts := [2], term := .ret none }]
  functions := #[{ name := "main", params := [0], ret := .void, blocks := [0, 1, 2] }]

theorem instOnce_on_no_cycle_passed :
    passed.Regular ∧ passed.Confined ∧ ∃ s, ofProgram passed [] = .ok s ∧ s.instOnce 2 = true ∧
      ∀ vs c, Path passed.targets 0 vs c → (passed.along vs).count 2 ≤ 1 := by
  have regular : passed.Regular := by decide
  have confined : passed.Confined := by decide
  have found : (ofProgram passed []).toOption.map (·.instOnce 2) = some true := by cbv
  obtain ⟨s, made, once⟩ := exists_of_map_eq found
  obtain ⟨f, e, b, he, hb, -, -, -, counts⟩ := instOnce_on_no_cycle regular confined made once
  obtain rfl : b = 2 := by
    have here : passed.blockOf? 2 = .ok (some 2) := rfl
    rw [here] at hb
    cases hb
    rfl
  obtain rfl : e = 0 := by
    obtain ⟨fn, hf, head⟩ := he
    obtain ⟨inside, rfl⟩ := Array.getElem?_eq_some_iff.1 hf
    obtain rfl : f = 0 := Nat.lt_one_iff.1 inside
    cases head
    rfl
  refine ⟨regular, confined, s, made, once, (counts fun vs cycle turns => ?_).2⟩
  rw [cycle.eq_of_leaf rfl] at turns
  exact absurd turns (by decide)

/-- Two blocks that branch to each other, both entered from the first block. -/
def braided : Program where
  values := #[{ ty := .int 1, kind := .param 0 0 }, { ty := .ptr, kind := .inst 1 (.alloca 8) }]
  blocks := #[
    { func := 0, name := "entry", term := .condBr 0 1 2 },
    { func := 0, name := "left", insts := [1], term := .br 2 },
    { func := 0, name := "right", term := .condBr 0 1 3 },
    { func := 0, name := "exit", term := .ret none }]
  functions := #[{ name := "main", params := [0], ret := .void, blocks := [0, 1, 2, 3] }]

/-- An instruction of the cycle is said to run at most once, and runs twice. -/
theorem instOnce_twice_braided :
    braided.Regular ∧ braided.Confined ∧ ∃ s, ofProgram braided [] = .ok s ∧ s.instOnce 1 = true ∧
      braided.IsEntry 0 0 ∧ Path braided.targets 1 [1, 2, 1] 1 ∧ Path braided.targets 0 [1, 2, 1, 0] 1 ∧
      (braided.along [1, 2, 1, 0]).count 1 = 2 := by
  have found : (ofProgram braided []).toOption.map (·.instOnce 1) = some true := by cbv
  obtain ⟨s, made, once⟩ := exists_of_map_eq found
  have turn : Path braided.targets 1 [1, 2, 1] 1 := .step (.step .refl (by decide)) (by decide)
  have walk : Path braided.targets 0 [1, 2, 1, 0] 1 :=
    .step (.step (.step .refl (by decide)) (by decide)) (by decide)
  exact ⟨by decide, by decide, s, made, once, ⟨_, rfl, rfl⟩, turn, walk, by decide⟩

end Survey
end SsaFacts
