import SsaFacts.Proofs.BranchFacts

/-! Edges into marked blocks. An edge is excluded for a block that every way from the entry to a return passes,
ways into marked blocks aside, so that a run which returns decides the branch and decides it against the edge. -/
namespace SsaFacts

namespace FlowGraph
variable {p : Program} {g : FlowGraph}

theorem targets_lt_of_ofProgram (made : ofProgram p = .ok g) : ∀ a, ∀ b ∈ p.targets a, b < p.blocks.size := by
  intro a b edge
  obtain ⟨⟨⟩, looped, -⟩ := Checked.bind_eq_ok.1 made
  exact forIn_blocks.1 looped b (mem_successors.2 ⟨a, edge⟩)

theorem shows_of_ofProgram (made : ofProgram p = .ok g) : g.Shows p := by
  obtain ⟨g', made', shows_p⟩ := ofProgram_ok_of_targets (targets_lt_of_ofProgram made)
  cases made.symm.trans made'
  exact shows_p

end FlowGraph

namespace Program
variable {p : Program} {e r : BlockId} {vs : List BlockId}

def ReturnsAt (p : Program) (b : BlockId) : Prop :=
  ∃ x : Block, p.blocks[b]? = some x ∧ x.term.isReturn = true

theorem ReturnsAt.path_lt (returns : p.ReturnsAt r) (path : Path p.targets e vs r) :
    ∀ b ∈ vs, b < p.blocks.size := by
  have inside {b : BlockId} {x : Block} (hx : p.blocks[b]? = some x) : b < p.blocks.size :=
    (Array.getElem?_eq_some_iff.1 hx).1
  obtain ⟨x, hx, -⟩ := returns
  have last := inside hx
  clear hx
  induction path with
  | refl => simpa using last
  | step _ edge ih =>
    obtain ⟨y, hy, -⟩ := mem_targets.1 edge
    exact List.forall_mem_cons.2 ⟨last, ih (inside hy)⟩

end Program

namespace Subject
variable {s : Subject} {f : FuncId} {e b : BlockId} {c : Clause} {cs : List Clause} {ns ns' : List Notice}

/-- Every way from `e` to a return that enters no marked block of the function passes `b`. -/
def Inevitable (s : Subject) (f : FuncId) (e b : BlockId) : Prop :=
  ∀ vs r, Path s.program.targets e vs r → s.program.ReturnsAt r →
    (∀ c ∈ vs, c ∈ s.program.blocksOf f → s.survey.marked c = false) → b ∈ vs

/-- The exclusion of an edge into a marked block, stated for a block that decides between edges and that no way
to a return can go around. -/
def ExcludesAt (s : Subject) (f : FuncId) (e b : BlockId) (c : Clause) : Prop :=
  b ∈ s.program.blocksOf f ∧ s.Inevitable f e b ∧ ∃ x i dest, s.program.blocks[b]? = some x ∧
    1 < x.term.successors.length ∧ x.term.successors[i]? = some dest ∧ s.survey.marked dest = true ∧
    s.avoidBranch b i = .ok (some c)

section
variable (made : FlowGraph.ofProgram s.program = .ok s.survey.graph)
include made

theorem mem_reach {sink : List BlockId} : b ∈ s.survey.graph.reach e sink ↔
    ∃ vs, Path s.program.targets e vs b ∧ ∀ c ∈ vs, c < s.program.blocks.size ∧ c ∉ sink := by
  have shows_p := FlowGraph.shows_of_ofProgram made
  rw [FlowGraph.mem_reach_iff, shows_p.size_eq]
  simp only [shows_p.path_iff]

theorem postDominatesEntry_iff : s.postDominatesEntry e b (s.program.blocksOf f) = true ↔ s.Inevitable f e b := by
  rw [postDominatesEntry, Bool.not_eq_true', List.any_eq_false]
  constructor
  · intro none vs r path isReturn unmarked
    by_contra out
    have found : r ∈ s.survey.graph.reach e (b :: (s.program.blocksOf f).filter s.survey.marked) := by
      refine (mem_reach made).2 ⟨vs, path, fun c mem => ⟨isReturn.path_lt path c mem, fun sunk => ?_⟩⟩
      rcases List.mem_cons.1 sunk with rfl | sunk
      · exact out mem
      · obtain ⟨listed, isMarked⟩ := List.mem_filter.1 sunk
        rw [unmarked c mem listed] at isMarked
        cases isMarked
    obtain ⟨x, hx, term⟩ := isReturn
    refine none r found ?_
    rw [hx]
    exact term
  · intro inevitable r found isReturn
    obtain ⟨vs, path, free⟩ := (mem_reach made).1 found
    have isReturn : s.program.ReturnsAt r := by
      split at isReturn
      case h_1 x hx => exact ⟨x, hx, isReturn⟩
      case h_2 => cases isReturn
    have passed := inevitable vs r path isReturn fun c mem listed => by
      by_contra isMarked
      exact (free c mem).2 (List.mem_cons_of_mem _ (List.mem_filter.2 ⟨listed, by simpa using isMarked⟩))
    exact (free b passed).2 List.mem_cons_self

/-- The facts of a function's edges into marked blocks are those exclusions. -/
theorem edgeExclusions_gives : Gives (s.edgeExclusions f) fun cs =>
    ∀ c, c ∈ cs ↔ ∃ e b, s.program.IsEntry f e ∧ s.ExcludesAt f e b c := by
  have function : Gives (s.program.function f) fun fn => s.program.functions[f]? = some fn := fun fn found =>
    Program.function_eq_ok.1 found
  have block (b : BlockId) : Gives (s.program.block b) fun x => s.program.blocks[b]? = some x := fun x found =>
    Program.block_eq_ok.1 found
  unfold edgeExclusions
  refine function.lift.bind fun fn hf => ?_
  cases head : fn.entryBlock? with
  | none =>
    refine .pure fun c => iff_of_false List.not_mem_nil ?_
    rintro ⟨e, b, ⟨fn', hf', head'⟩, -⟩
    cases hf.symm.trans hf'
    cases head.symm.trans head'
  | some e =>
    have entry (e' : BlockId) : s.program.IsEntry f e' ↔ e = e' := by
      constructor
      · rintro ⟨fn', hf', head'⟩
        cases hf.symm.trans hf'
        exact Option.some.inj (head.symm.trans head')
      · rintro rfl
        exact ⟨fn, hf, head⟩
    refine (Gives.mem_flatten_mapM (R := fun b c => s.ExcludesAt f e b c) fun b listed => ?_).bind fun css each =>
      .pure fun c => ?_
    · refine (block b).lift.bind fun x hx => ?_
      dsimp only
      split
      case isTrue test =>
        obtain ⟨branches, inevitable⟩ := by simpa only [Bool.and_eq_true, decide_eq_true_eq] using test
        rw [postDominatesEntry_iff made] at inevitable
        intro cs returned c
        rw [Gives.mem_filterMapM (fun edge _ => s.excludeEdge_gives b edge.2) cs returned c]
        simp only [List.mem_filter, Prod.exists, List.mem_zipIdx_iff_getElem?, ExcludesAt, hx, Option.some.injEq,
          exists_and_left, exists_eq_left']
        grind
      case isFalse test =>
        refine .pure fun c => iff_of_false List.not_mem_nil ?_
        rintro ⟨-, inevitable, x', i, dest, hx', branches, -⟩
        cases hx.symm.trans hx'
        rw [← postDominatesEntry_iff made] at inevitable
        exact test (by simp [branches, inevitable])
    · rw [each]
      simp only [entry, ExcludesAt]
      grind

end

namespace ExcludesAt
variable {δ : ZeroDivision} {last : Visit} {visits : List Visit} (excludes : s.ExcludesAt f e b c)
  (walk : Walk s.program δ e (last :: visits))
  (unmarked : ∀ v ∈ last :: visits, s.survey.marked v.block = false)
include excludes walk unmarked

/-- On a walk that enters no marked block and ends at a return, a block is passed for which an exclusion is
stated. -/
theorem visited (isReturn : s.program.ReturnsAt last.block) : ∃ v ∈ visits, v.block = b := by
  obtain ⟨-, inevitable, x, i, dest, hx, branches, -⟩ := excludes
  have passed := inevitable _ _ walk.path isReturn fun c mem _ => by
    obtain ⟨v, hv, rfl⟩ := List.mem_map.1 mem
    exact unmarked v hv
  obtain ⟨v, hv, same⟩ := List.mem_map.1 passed
  refine ⟨v, (List.mem_cons.1 hv).resolve_left ?_, same⟩
  -- The block decides between edges, so the walk does not end there.
  rintro rfl
  obtain ⟨y, hy, term⟩ := isReturn
  rw [same, hx] at hy
  cases hy
  cases hterm : x.term <;> simp [hterm, Terminator.isReturn, Terminator.successors] at term branches

/-- The exclusion is true whenever the walk leaves the block, if no two cases of the block have one literal. -/
theorem denote_eq_true (distinct : ∀ x, s.program.blocks[b]? = some x → s.program.DistinctCases x.term)
    (typed : ∀ v ∈ last :: visits, ∀ l, (v.values l).width = l.width) :
    ∀ v ∈ visits, v.block = b → c.denote δ v.values = true := by
  obtain ⟨-, -, x, i, dest, hx, -, edge, isMarked, avoid⟩ := excludes
  rintro v hv rfl
  obtain ⟨later, earlier, split⟩ := List.append_of_mem hv
  obtain ⟨front, w, split⟩ : ∃ front w, last :: visits = front ++ w :: v :: earlier := by
    rw [split]
    rcases List.eq_nil_or_concat (last :: later) with none | ⟨front, w, same⟩
    · cases none
    · exact ⟨front, w, by rw [← List.cons_append, same]; simp⟩
  obtain ⟨x', k, hx', takes, edge'⟩ := (split ▸ walk).takes
  cases hx.symm.trans hx'
  have ne : i ≠ k := by
    rintro rfl
    cases edge.symm.trans edge'
    rw [unmarked w (split ▸ by simp)] at isMarked
    cases isMarked
  exact (excludes_of_avoidBranch avoid hx).denote_eq_true takes ne (typed v (List.mem_cons_of_mem _ hv))
    (distinct x hx)

end ExcludesAt

/-- The exclusions that are stated for a function are those of edges into marked blocks, for the blocks that
every way from the entry to a return passes without entering a marked block. So a run that enters no marked
block and returns decides the branch of each of them, and where no two cases of the block have one literal, it
decides against the edge. -/
theorem edgeExclusions_inevitable {base : Survey} {marked : List BlockId} {o : Overrides}
    (made : Survey.ofProgram s.program marked = .ok base) (survey : s.survey = o.apply base)
    (run : s.edgeExclusions f ns = (.ok cs, ns')) :
    (∀ c, c ∈ cs ↔ ∃ e b, s.program.IsEntry f e ∧ s.ExcludesAt f e b c) ∧
    ∀ e b c, s.ExcludesAt f e b c →
      (∀ vs r, Path s.program.targets e vs r → s.program.ReturnsAt r → (∀ a ∈ vs, s.survey.marked a = false) →
        b ∈ vs) ∧
      ∀ (δ : ZeroDivision) (last : Visit) (visits : List Visit), Walk s.program δ e (last :: visits) →
        s.program.ReturnsAt last.block → (∀ v ∈ last :: visits, s.survey.marked v.block = false) →
        (∃ v ∈ visits, v.block = b) ∧
        ((∀ x, s.program.blocks[b]? = some x → s.program.DistinctCases x.term) →
          (∀ v ∈ last :: visits, ∀ l, (v.values l).width = l.width) →
            ∀ v ∈ visits, v.block = b → c.denote δ v.values = true) := by
  obtain ⟨forest, calls, execution, parts⟩ := Survey.exists_parts made
  have graph : FlowGraph.ofProgram s.program = .ok s.survey.graph := by
    rw [survey]
    exact parts.graph_eq
  refine ⟨edgeExclusions_gives graph cs ⟨ns, ns', run⟩, fun e b c excludes => ⟨?_, ?_⟩⟩
  · intro vs r path isReturn unmarked
    exact excludes.2.1 vs r path isReturn fun a mem _ => unmarked a mem
  · intro δ last visits walk isReturn unmarked
    exact ⟨excludes.visited walk unmarked isReturn, excludes.denote_eq_true walk unmarked⟩

end Subject

/-- Two tests that lead to marked blocks where they fail. -/
def Program.guarded : Program where
  values := #[{ ty := .int 1, kind := .param 0 0 }, { ty := .int 1, kind := .param 0 1 },
    { ty := .int 1, kind := .const 1 }]
  blocks := #[
    { func := 0, name := "entry", term := .condBr 0 1 2 },
    { func := 0, name := "failed", term := .unreachable },
    { func := 0, name := "checked", term := .switch 1 3 [(2, 4)] },
    { func := 0, name := "exit", term := .ret none },
    { func := 0, name := "failed", term := .ret none }]
  functions := #[{ name := "main", params := [0, 1], ret := .void, blocks := [0, 1, 2, 3, 4] }]

def Visit.guardedRun : List Visit := [constant 3 0, constant 2 0, constant 0 0]

def Clause.guardedFacts : List Clause :=
  [.atom .eq (.result 0 boolWidth) (.literal (.bool false)), .atom .ne (.result 1 boolWidth) (.ofInt boolWidth 1)]

/-- A test that is not made where the function waits or gives up. -/
def Program.waiting : Program where
  values := #[{ ty := .int 1, kind := .param 0 0 }, { ty := .int 1, kind := .param 0 1 }]
  blocks := #[
    { func := 0, name := "wait", term := .indirectBr 0 [0, 1, 2] },
    { func := 0, name := "stuck", term := .unreachable },
    { func := 0, name := "check", term := .condBr 1 3 4 },
    { func := 0, name := "failed", term := .unreachable },
    { func := 0, name := "exit", term := .ret none }]
  functions := #[{ name := "main", params := [0, 1], ret := .void, blocks := [0, 1, 2, 3, 4] }]

theorem Walk.guardedRun (δ : ZeroDivision) : Walk .guarded δ 0 Visit.guardedRun := by
  have entry : Walk .guarded δ 0 [.constant 0 0] := .start rfl
  have checked := entry.step (w := .constant 2 0) rfl (.ifFalse rfl rfl) rfl
  refine checked.step rfl (.default rfl fun c mem e' leaf => ?_) rfl
  obtain rfl := List.mem_singleton.1 mem
  cases leaf
  exact fun same => absurd (congrArg (fun x : Vec => x.bits.toNat) same) (show ¬(0 : Nat) = 1 by decide)

namespace Subject
open Program

theorem edgeExclusions_inevitable_guarded : ∃ base, Survey.ofProgram guarded [1, 4] = .ok base ∧
    Subject.edgeExclusions { program := guarded, survey := ({} : Overrides).apply base } 0 [] =
      (.ok Clause.guardedFacts, []) ∧
    ∀ c ∈ Clause.guardedFacts, ∃ v ∈ Visit.guardedRun, c.denote (fun _ _ x => x) v.values = true := by
  have found : (Survey.ofProgram guarded [1, 4]).toOption.map (fun base =>
      (Subject.edgeExclusions { program := guarded, survey := ({} : Overrides).apply base } 0 [],
        [3, 2, 0].map base.marked)) = some ((.ok Clause.guardedFacts, []), [false, false, false]) := by cbv
  obtain ⟨base, made, read⟩ := Survey.exists_of_map_eq found
  obtain ⟨run, marks⟩ := by simpa only [Prod.mk.injEq] using read
  obtain ⟨stated, holds⟩ := edgeExclusions_inevitable
    (s := { program := guarded, survey := ({} : Overrides).apply base }) (o := {}) made rfl run
  refine ⟨base, made, run, fun c mem => ?_⟩
  obtain ⟨e, b, ⟨fn, hf, head⟩, excludes⟩ := (stated c).1 mem
  cases hf
  cases head
  have unmarked : ∀ v ∈ Visit.guardedRun, base.marked v.block = false := by
    simpa [Visit.guardedRun, Visit.constant] using marks
  have typed : ∀ v ∈ Visit.guardedRun, ∀ l, (v.values l).width = l.width := by
    simp [Visit.guardedRun, Visit.constant]
  have cases : ∀ x ∈ guarded.blocks.toList, guarded.DistinctCases x.term := by
    have literals : guarded.DistinctCases (.switch 1 3 [(2, 4)]) := ⟨[.ofInt boolWidth 1], rfl, by decide⟩
    simpa [guarded, DistinctCases] using literals
  obtain ⟨⟨v, hv, here⟩, holds⟩ := (holds _ b c excludes).2 _ _ _ (Walk.guardedRun fun _ _ x => x) ⟨_, rfl, rfl⟩
    unmarked
  have distinct (x : Block) (hx : guarded.blocks[b]? = some x) : guarded.DistinctCases x.term :=
    cases x (Array.mem_toList_iff.2 (Array.mem_of_getElem? hx))
  exact ⟨v, List.mem_cons_of_mem _ hv, holds distinct typed v hv here⟩

/-- An edge is excluded for a block that a way without an end goes around, and a way to the end of a block that
has none. -/
theorem edgeExclusions_evaded_waiting : ∃ base, Survey.ofProgram waiting [3] = .ok base ∧
    Subject.edgeExclusions { program := waiting, survey := base } 0 [] =
      (.ok [.atom .eq (.result 1 boolWidth) (.literal (.bool false))], []) ∧
    Subject.ExcludesAt { program := waiting, survey := base } 0 0 2
      (.atom .eq (.result 1 boolWidth) (.literal (.bool false))) ∧
    (∃ way : Nat → BlockId, waiting.IsEntry 0 (way 0) ∧ (∀ n, way (n + 1) ∈ waiting.targets (way n)) ∧
      ∀ n, base.marked (way n) = false ∧ way n ≠ 2) ∧
    Path waiting.targets 0 [1, 0] 1 ∧ waiting.targets 1 = [] ∧ ∀ b ∈ [1, 0], base.marked b = false := by
  have found : (Survey.ofProgram waiting [3]).toOption.map (fun base =>
      (Subject.edgeExclusions { program := waiting, survey := base } 0 [],
        Subject.postDominatesEntry { program := waiting, survey := base } 0 2 (waiting.blocksOf 0),
        Subject.avoidBranch { program := waiting, survey := base } 2 0, [3, 1, 0].map base.marked)) =
      some ((.ok [.atom .eq (.result 1 boolWidth) (.literal (.bool false))], []), true,
        .ok (some (.atom .eq (.result 1 boolWidth) (.literal (.bool false)))), [true, false, false]) := by cbv
  obtain ⟨base, made, read⟩ := Survey.exists_of_map_eq found
  obtain ⟨run, passed, avoid, marks⟩ := by simpa only [Prod.mk.injEq] using read
  obtain ⟨failed, stuck, wait⟩ := by simpa using marks
  obtain ⟨forest, calls, execution, parts⟩ := Survey.exists_parts made
  have inevitable := (postDominatesEntry_iff (s := { program := waiting, survey := base }) parts.graph_eq).1 passed
  have listed : 2 ∈ waiting.blocksOf 0 := by decide
  have again : 0 ∈ waiting.targets 0 := by decide
  refine ⟨base, made, run, ⟨listed, inevitable, _, 0, 3, rfl, Nat.one_lt_two, rfl, failed, avoid⟩, ?_, ?_, rfl,
    by simp [stuck, wait]⟩
  · exact ⟨fun _ => 0, ⟨_, rfl, rfl⟩, fun _ => again, fun _ => ⟨wait, Nat.zero_ne_add_one 1⟩⟩
  · exact .step .refl (by decide)

end Subject
end SsaFacts
