import SsaFacts.Proofs.LoopBodies

/-! What flows around a loop defines no φ. Whether an edge leads around is read off the depths of its ends and the
innermost loop of its destination; on the graph, it is the edges to a dominating block and those that leave a loop
without entering as many. -/
namespace SsaFacts

open LoopForest (Holds)

/-- The number of natural loops around a block. -/
noncomputable def Program.nesting (p : Program) (entry b : BlockId) : Nat :=
  {h | (∃ l, Latch p.targets entry h l) ∧ InLoop p.targets entry h b}.ncard

namespace Survey
variable {p : Program} {marked : List BlockId} {s : Survey} {f : FuncId} {e b : BlockId}

theorem loopDepth_eq_nesting (regular : p.Regular) (confined : p.Confined) (made : ofProgram p marked = .ok s)
    (he : p.IsEntry f e) (reaches : Reaches p.targets e b) : s.loopDepth b = p.nesting e b := by
  obtain ⟨forest, calls, execution, parts⟩ := exists_parts made
  have gathered := LoopForest.gathered_ofProgram regular confined (shows_graph confined made) parts.forest_eq
  have depth : s.loopDepth b = {i | Holds forest.loops.toList b i}.ncard := by
    obtain ⟨y, hy, -⟩ := confined.reached he reaches
    have innermost := parts.innermost_eq b (Array.getElem?_eq_some_iff.1 hy).1
    rw [← gathered.depth_innermost? confined he reaches, loopDepth, innermost, parts.loops_eq]
    simp only [Array.getElem?_toList]
    cases (forest.innermost? b).bind (forest.loops[·]?) <;> rfl
  rw [depth, Program.nesting]
  -- a loop is known by its header
  have natural {i : LoopId} (holds : Holds forest.loops.toList b i) :
      ∃ l, forest.loops.toList[i]? = some l ∧ l.func = f ∧ LoopForest.IsNatural p e l ∧ b ∈ l.blocks := by
    obtain ⟨l, hl, mem⟩ := holds
    obtain ⟨func, natural⟩ := gathered.natural_of_mem confined he reaches hl mem
    exact ⟨l, hl, func, natural, mem⟩
  choose loop listed func natural mem using @natural
  refine Set.ncard_congr (fun i holds => (loop holds).header) (fun i holds => ?_) (fun i j hi hj same => ?_) ?_
  · exact ⟨(natural holds).latch, ((natural holds).mem_blocks b).1 (mem holds)⟩
  · exact gathered.unique i j _ _ (listed hi) (listed hj) ((func hi).trans (func hj).symm) same
  · rintro h ⟨⟨l, latch⟩, inside⟩
    obtain ⟨i, x, hx, hf, rfl⟩ := (gathered.existsUnique_header he latch).exists
    obtain ⟨e', natural'⟩ := gathered.natural x (List.mem_of_getElem? hx)
    obtain rfl := (hf ▸ natural'.entry).unique he
    have holds : Holds forest.loops.toList b i := ⟨x, hx, (natural'.mem_blocks b).2 inside⟩
    refine ⟨i, holds, ?_⟩
    rw [Option.some.inj ((listed holds).symm.trans hx)]

end Survey

/-- An edge between reached blocks is taken for one that does not simply enter its destination just if it leads
back to a block that dominates its source or leaves more loops than it enters. A φ that lists such an edge is not
defined by what flows in. -/
theorem Subject.inUser_phi_of_backEdge {s : Subject} {marked : List BlockId} {f : FuncId} {e source dest : BlockId}
    (regular : s.program.Regular) (confined : s.program.Confined)
    (made : Survey.ofProgram s.program marked = .ok s.survey) (he : s.program.IsEntry f e)
    (reaches : Reaches s.program.targets e source) (edge : dest ∈ s.program.targets source) :
    (s.survey.entersShallow source dest = false ↔ Dominates s.program.targets e dest source ∨
        s.program.nesting e dest < s.program.nesting e source) ∧
      (Dominates s.program.targets e dest source ∨ s.program.nesting e dest < s.program.nesting e source →
        ∀ phi ∈ s.program.instsOf dest, ∀ incoming, s.program.op? phi = .ok (some (.phi incoming)) →
          ∀ x, (source, x) ∈ incoming → s.inUser phi = .ok none) := by
  have around : s.survey.entersShallow source dest = false ↔ Dominates s.program.targets e dest source ∨
      s.program.nesting e dest < s.program.nesting e source := by
    rw [Survey.entersShallow_eq_false_iff regular confined made he reaches edge,
      Survey.loopDepth_eq_nesting regular confined made he reaches,
      Survey.loopDepth_eq_nesting regular confined made he (reaches.step edge)]
  refine ⟨around, fun back phi mem incoming isPhi x listed => ?_⟩
  exact inUser_phi_eq_none regular mem isPhi listed (around.2 back)

/-- A loop with two latches, one of which heads a loop inside it, and a φ in each header. -/
def Program.rewound : Program where
  values := #[
    { ty := .int 1, kind := .param 0 0 }, { ty := .int 1, kind := .const 0 }, { ty := .int 1, kind := .const 1 },
    { ty := .int 1, kind := .inst 1 (.phi [(0, 1), (2, 2), (3, 4)]) },
    { ty := .int 1, kind := .inst 3 (.phi [(1, 3), (3, 1)]) },
    { ty := .int 1, kind := .inst 4 (.phi [(3, 4)]) }]
  blocks := #[
    { func := 0, name := "entry", term := .br 1 },
    { func := 0, name := "outer", insts := [3], term := .condBr 0 2 3 },
    { func := 0, name := "again", term := .br 1 },
    { func := 0, name := "inner", insts := [4], term := .switch 0 3 [(1, 1), (2, 4)] },
    { func := 0, name := "exit", insts := [5], term := .ret none }]
  functions := #[{ name := "main", params := [0], ret := .void, blocks := [0, 1, 2, 3, 4] }]

/-- The edges from the inner loop to the outer header and out of both loops are found at once: the first leads to a
block that dominates the inner loop, and the second leaves a deeper nest. -/
theorem Subject.inUser_phi_of_backEdge_rewound : ∃ survey, Survey.ofProgram .rewound [] = .ok survey ∧
    let s : Subject := { program := .rewound, survey }
    survey.entersShallow 0 1 = true ∧ survey.entersShallow 3 1 = false ∧ survey.entersShallow 3 4 = false ∧
      s.inUser 3 = .ok none ∧ s.inUser 5 = .ok none ∧ ¬Dominates s.program.targets 0 4 3 := by
  have read : (Survey.ofProgram .rewound []).toOption.map (fun survey =>
      (survey.entersShallow 0 1, survey.entersShallow 3 1, survey.entersShallow 3 4)) =
      some (true, false, false) := by cbv
  obtain ⟨survey, made, answers⟩ := Survey.exists_of_map_eq read
  obtain ⟨enters, around, leaves⟩ := by simpa only [Prod.mk.injEq] using answers
  have regular : Program.rewound.Regular := by decide
  have confined : Program.rewound.Confined := by decide
  have entry : Program.rewound.IsEntry 0 0 := ⟨_, rfl, rfl⟩
  have walk : Path Program.rewound.targets 0 [3, 1, 0] 3 := .step (.step .refl (by decide)) (by decide)
  have rewinds : 1 ∈ Program.rewound.targets 3 ∧ 3 ∈ Program.rewound.instsOf 1 := by decide
  have exits : 4 ∈ Program.rewound.targets 3 ∧ 5 ∈ Program.rewound.instsOf 4 := by decide
  obtain ⟨back, outer⟩ := inUser_phi_of_backEdge (s := { program := .rewound, survey }) regular confined made entry
    ⟨_, walk⟩ rewinds.1
  obtain ⟨left, last⟩ := inUser_phi_of_backEdge (s := { program := .rewound, survey }) regular confined made entry
    ⟨_, walk⟩ exits.1
  refine ⟨survey, made, enters, around, leaves, outer (back.1 around) 3 rewinds.2 _ rfl 4 (by decide),
    last (left.1 leaves) 5 exits.2 _ rfl 4 (by decide), fun dominates => ?_⟩
  simpa using dominates _ walk

end SsaFacts
