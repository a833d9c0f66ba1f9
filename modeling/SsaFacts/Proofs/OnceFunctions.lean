import SsaFacts.Proofs.ArgumentBinding
import SsaFacts.Proofs.ExecutionCounts
import SsaFacts.Proofs.Reduction
import SsaFacts.Proofs.Remarks
import SsaFacts.Proofs.Substitution

/-! The facts of a function that runs once are captured, and they are not stated again for a question about one
of its instructions. Nothing is lost by that in the default context, nor of a fact about fixed values; a fact about a
value that is not fixed is missing in every other context. -/
namespace SsaFacts

namespace Checked
variable {α β : Type} {xs : List α} {a : α}

theorem exists_of_mapM {f : α → Checked β} {bs : List β} (mapped : xs.mapM f = .ok bs) (mem : a ∈ xs) :
    ∃ b ∈ bs, f a = .ok b := by
  have each := forall₂_of_mapM_eq_ok mapped
  clear mapped
  induction each with
  | nil => cases mem
  | cons first _ ih =>
    rcases List.mem_cons.1 mem with rfl | mem
    · exact ⟨_, List.mem_cons_self, first⟩
    · obtain ⟨b, hb, found⟩ := ih mem
      exact ⟨b, List.mem_cons_of_mem _ hb, found⟩

theorem exists_of_filterMapM {f : α → Checked (Option β)} {bs : List β} (found : xs.filterMapM f = .ok bs)
    (mem : a ∈ xs) : ∃ o, f a = .ok o ∧ ∀ b ∈ o, b ∈ bs := by
  induction xs generalizing bs with
  | nil => cases mem
  | cons x rest ih =>
    rw [List.filterMapM_cons] at found
    obtain ⟨o, hx, found⟩ := bind_eq_ok.1 found
    obtain ⟨tail, ht, kept, subset⟩ : ∃ tail, rest.filterMapM f = .ok tail ∧ (∀ b ∈ o, b ∈ bs) ∧ tail ⊆ bs := by
      cases o with
      | none => exact ⟨bs, found, by simp, List.Subset.refl bs⟩
      | some b =>
        obtain ⟨tail, ht, ⟨⟩⟩ := bind_eq_ok.1 found
        exact ⟨tail, ht, by simp, List.subset_cons_self b tail⟩
    rcases List.mem_cons.1 mem with rfl | mem
    · exact ⟨o, hx, kept⟩
    · obtain ⟨o', ho', inside⟩ := ih ht mem
      exact ⟨o', ho', fun b hb => subset (inside b hb)⟩

end Checked

theorem run_lift_bind_eq_ok {ε σ α β : Type} {x : Except ε α} {f : α → ExceptT ε (StateM σ) β} {b : β} {s s' : σ}
    (run : (liftM x >>= f) s = (.ok b, s')) : ∃ a, x = .ok a ∧ f a s = (.ok b, s') := by
  obtain ⟨a, t, first, run⟩ := run_bind_eq_ok run
  obtain ⟨same, rfl⟩ := Prod.mk.inj (show (x, s) = (.ok a, t) from first)
  exact ⟨a, same, run⟩

/-! ### What is captured -/

theorem Clause.mem_sort {cs ds : List Clause} {c : Clause} (sorted : sort cs = .ok ds) : c ∈ ds ↔ c ∈ cs := by
  obtain ⟨keyed, hk, ⟨⟩⟩ := Checked.bind_eq_ok.1 sorted
  have each := forall₂_of_mapM_eq_ok hk
  have same : keyed.map Prod.snd = cs := by
    clear hk sorted
    induction each with
    | nil => rfl
    | cons first _ ih =>
      obtain ⟨text, -, ⟨⟩⟩ := Checked.bind_eq_ok.1 first
      rw [List.map_cons, ih]
  rw [← same]
  simp only [List.mem_map, List.mem_mergeSort]

namespace Subject
variable {s : Subject} {ns ns' : List Notice} {c : Capture} {disable : Bool}

theorem mem_dropRepeats {α : Type} [DecidableEq α] {xs : List α} {a : α} : a ∈ dropRepeats xs ↔ a ∈ xs := by
  fun_induction dropRepeats xs with
  | case1 => rfl
  | case2 b => rfl
  | case3 b rest ih => simp [ih]
  | case4 b d rest ne ih => simp [ih]

structure Collected (s : Subject) (ns : List Notice) (c : Capture) (top loads edges library : List Clause) :
    Prop where
  fixed_eq : s.fixedValues = .ok c.fixed
  top_eq : s.topLevelFacts c.fixed = .ok top
  loads_eq : s.loadFacts (c.isFixed s.program) = .ok loads
  edges_eq : ∃ ns', s.onceEdgeFacts ns = (.ok edges, ns')
  library_eq : s.libraryFacts (c.isFixed s.program) = .ok library

theorem exists_collected (captured : s.capture disable ns = (.ok c, ns')) :
    ∃ top loads edges library, s.Collected ns c top loads edges library ∧
      ∀ f, f ∈ c.facts ↔ disable = false ∧ (f ∈ top ∨ f ∈ loads ∨ f ∈ edges ∨ f ∈ library) := by
  obtain ⟨fixed, hfixed, rest⟩ := run_lift_bind_eq_ok captured
  obtain ⟨top, htop, rest⟩ := run_lift_bind_eq_ok rest
  obtain ⟨loads, hloads, rest⟩ := run_lift_bind_eq_ok rest
  obtain ⟨edges, t, hedges, rest⟩ := run_bind_eq_ok rest
  obtain ⟨library, hlibrary, rest⟩ := run_lift_bind_eq_ok rest
  obtain ⟨sorted, hsorted, last⟩ := run_lift_bind_eq_ok rest
  cases last
  refine ⟨top, loads, edges, library, ⟨hfixed, htop, hloads, ⟨_, hedges⟩, hlibrary⟩, fun f => ?_⟩
  cases disable with
  | true => simp
  | false => simp [mem_dropRepeats, Clause.mem_sort hsorted]

end Subject

/-! ### Where a function that runs once has its instructions -/

namespace Survey
variable {p : Program} {marked : List BlockId} {s : Survey} {i : ValueId} {f : FuncId} {b : BlockId}

theorem instOnce_of_funcOnce (made : ofProgram p marked = .ok s) (once : s.funcOnce f = true)
    (hb : b ∈ p.blocksOf f) (hi : i ∈ p.instsOf b) (outside : s.innermost? b = none)
    (alive : s.instDead i = false) : s.instOnce i = true := by
  obtain ⟨forest, calls, execution, parts⟩ := exists_parts made
  rw [parts.funcOnce_eq, List.contains_iff_mem] at once
  rw [parts.instDead_eq, ← Bool.not_eq_true, List.contains_iff_mem, Execution.mem_instDead parts.execution_eq] at alive
  obtain ⟨reached, runs⟩ : f ∈ (setting p marked s calls).reached ∧ (setting p marked s calls).runs b = true := by
    by_contra dead
    exact alive ⟨f, b, hb, hi, dead⟩
  rw [parts.instOnce_eq, List.contains_iff_mem]
  exact (Execution.mem_instOnce parts.execution_eq).2 ⟨f, b, hb, hi, reached, runs, once, by simp [setting, outside]⟩

theorem lt_of_not_funcDead (made : ofProgram p marked = .ok s) (alive : s.funcDead f = false) :
    f < p.functions.size := by
  obtain ⟨graph, -, made⟩ := Checked.bind_eq_ok.1 made
  obtain ⟨forest, -, made⟩ := Checked.bind_eq_ok.1 made
  obtain ⟨calls, -, made⟩ := Checked.bind_eq_ok.1 made
  obtain ⟨-, -, made⟩ := Checked.bind_eq_ok.1 made
  obtain ⟨execution, hexecution, made⟩ := Checked.bind_eq_ok.1 made
  obtain ⟨memory, -, made⟩ := Checked.bind_eq_ok.1 made
  cases made
  obtain ⟨once, -, ⟨⟩⟩ := Checked.bind_eq_ok.1 hexecution
  have reached : f ∈ closure (calls.calledBy p) p.functionIds p.entryFunction?.toList := by
    simpa [CallGraph.reachable] using alive
  have listed : f ∈ p.functionIds := by
    cases mem_closure.1 reached with
    | start _ here => exact here
    | edge _ _ here => exact here
  exact List.mem_range.1 listed

end Survey

namespace Subject
variable {s : Subject} {marked : List BlockId} {ns ns' : List Notice} {c : Capture} {f : FuncId} {b : BlockId}
  {i : ValueId} {x : Value} {top loads edges library : List Clause}

theorem exists_observed (hx : s.program.value i = .ok x) : ∃ seen, s.observed i = .ok seen := by
  rw [observed, hx, Checked.ok_bind]
  split
  · exact ⟨_, rfl⟩
  · split <;> exact ⟨_, rfl⟩

theorem inUser_of_not_inst (hx : s.program.value i = .ok x) (other : ∀ b op, x.kind ≠ .inst b op) :
    s.inUser i = .ok none := by
  have none : x.kind.op? = none := by
    cases kind : x.kind with
    | inst b op => exact absurd kind (other b op)
    | _ => rfl
  simp [inUser, Program.op?, Program.kind, hx, none]

namespace Collected
variable (collected : s.Collected ns c top loads edges library)
include collected

theorem mem_fixed (hx : s.program.value i = .ok x) (once : s.runsOnce x i = true) : i ∈ c.fixed := by
  obtain ⟨loaded, -, same⟩ := Checked.bind_eq_ok.1 collected.fixed_eq
  have found := Program.value_eq_ok.1 hx
  have inside : i < s.program.values.size := (Array.getElem?_eq_some_iff.1 found).1
  rw [← Except.ok.inj same, List.mem_filter]
  exact ⟨List.mem_range.2 inside, by simp [found, once]⟩

theorem exists_inUser (mem : i ∈ c.fixed) : ∃ o, s.inUser i = .ok o ∧ ∀ d ∈ o, d ∈ top := by
  obtain ⟨defined, hdefined, rest⟩ := Checked.bind_eq_ok.1 collected.top_eq
  obtain ⟨bound, -, ⟨⟩⟩ := Checked.bind_eq_ok.1 rest
  obtain ⟨o, ho, inside⟩ := Checked.exists_of_filterMapM hdefined mem
  exact ⟨o, ho, fun d hd => List.mem_append_left _ (inside d hd)⟩

theorem exists_inLibraryCall (mem : i ∈ s.program.instructions) :
    ∃ ds, s.inLibraryCall i = .ok ds ∧ ds ⊆ library := by
  obtain ⟨results, hresults, rest⟩ := Checked.bind_eq_ok.1 collected.library_eq
  obtain ⟨extents, -, rest⟩ := Checked.bind_eq_ok.1 rest
  obtain ⟨placed, -, ⟨⟩⟩ := Checked.bind_eq_ok.1 rest
  obtain ⟨ds, mem, found⟩ := Checked.exists_of_mapM hresults mem
  exact ⟨ds, found, fun d hd => List.mem_append_left _ (List.mem_flatten.2 ⟨ds, mem, hd⟩)⟩

theorem exists_value (mem : i ∈ s.program.instructions) : ∃ x, s.program.value i = .ok x := by
  obtain ⟨ds, found, -⟩ := collected.exists_inLibraryCall mem
  obtain ⟨name, named, -⟩ := Checked.bind_eq_ok.1 found
  obtain ⟨target, found, -⟩ := Checked.bind_eq_ok.1 named
  obtain ⟨op, found, -⟩ := Checked.bind_eq_ok.1 found
  obtain ⟨kind, found, -⟩ := Checked.bind_eq_ok.1 found
  obtain ⟨x, hx, -⟩ := Checked.bind_eq_ok.1 found
  exact ⟨x, hx⟩

theorem exists_unreachableFacts (inside : f < s.program.functions.size) (alive : s.survey.funcDead f = false)
    (once : s.survey.funcOnce f = true) :
    ∃ ds, (∀ ms, ∃ ms', s.unreachableFacts f ms = (.ok ds, ms')) ∧ ds ⊆ edges := by
  obtain ⟨ns', hedges⟩ := collected.edges_eq
  obtain ⟨each, t, mapped, last⟩ := run_bind_eq_ok hedges
  cases last
  have mem : f ∈ s.program.functionIds.filter fun f => !s.survey.funcDead f && s.survey.funcOnce f := by
    simp [Program.functionIds, inside, alive, once]
  obtain ⟨u, u', ds, run, mem⟩ := exists_of_run_mapM mapped mem
  exact ⟨ds, (s.oblivious_unreachableFacts f).run_eq run, fun d hd => List.mem_flatten.2 ⟨ds, mem, hd⟩⟩

/-- The facts of an instruction that runs once, if it runs, are collected. -/
theorem exists_inInstruction (mem : i ∈ s.program.instructions)
    (once : s.survey.instDead i = false → s.survey.instOnce i = true) :
    ∃ ds, s.inInstruction i = .ok ds ∧ ∀ d ∈ ds, d ∈ top ∨ d ∈ library := by
  obtain ⟨x, hx⟩ := collected.exists_value mem
  obtain ⟨seen, observed⟩ := s.exists_observed hx
  cases seen with
  | false => exact ⟨[], by simp [inInstruction, observed], by simp⟩
  | true =>
    have carried := observed_iff.1 observed
    obtain ⟨o, defined, inTop⟩ : ∃ o, s.inUser i = .ok o ∧ ∀ d ∈ o, d ∈ top := by
      by_cases inst : ∃ b op, x.kind = .inst b op
      · obtain ⟨b, op, kind⟩ := inst
        have typed : x.ty.isIntegerOrPointer = true := by
          obtain ⟨t, ht, typed⟩ := carried.typed
          obtain ⟨y, hy, ⟨⟩⟩ := Checked.bind_eq_ok.1 ht
          cases hx.symm.trans hy
          exact typed
        have alive := carried.instruction b op (by rw [Program.kind, hx, ← kind]; rfl)
        refine collected.exists_inUser (collected.mem_fixed hx ?_)
        simp [runsOnce, typed, kind, alive, once alive]
      · exact ⟨none, inUser_of_not_inst hx fun b op kind => inst ⟨b, op, kind⟩, by simp⟩
    obtain ⟨ds, called, inLibrary⟩ := collected.exists_inLibraryCall mem
    refine ⟨o.toList ++ ds, by simp [inInstruction, observed, defined, called], fun d hd => ?_⟩
    rcases List.mem_append.1 hd with hd | hd
    · exact .inl (inTop d (Option.mem_toList.1 hd))
    · exact .inr (inLibrary hd)

end Collected

/-- A captured fact is captured in another context if that context is the default one or all that the fact
mentions is fixed, and only then: captured facts speak of the default context. -/
theorem tagged_mem_captured_iff {disable : Bool} {context : Context} {d : Clause}
    (captured : s.capture disable ns = (.ok c, ns')) (mem : d ∈ c.facts) :
    d.mapLeaves (c.tag s.program context) ∈ c.facts ↔
      context = 0 ∨ ∀ l ∈ d.leaves, c.isFixed s.program l.value = true := by
  have default {d : Clause} (mem : d ∈ c.facts) (l : Leaf) (hl : l ∈ d.leaves) : l.context = 0 := by
    obtain ⟨v, -, rfl⟩ := (s.capture_stated disable c ⟨ns, ns', captured⟩ d mem).leaf_eq hl
    rfl
  constructor
  · intro tagged
    by_contra moved
    push Not at moved
    obtain ⟨other, l, hl, free⟩ := moved
    refine other (default tagged (l.withContext context) ?_)
    rw [Clause.leaves_mapLeaves]
    exact List.mem_map.2 ⟨l, hl, if_neg free⟩
  · intro unmoved
    rw [Clause.mapLeaves_eq_self fun l hl => ?_]
    · exact mem
    rw [Capture.tag]
    split
    · rfl
    · rename_i moved
      rcases unmoved with rfl | fixed
      · obtain ⟨ref, width, _⟩ := l
        cases default mem _ hl
        rfl
      · exact absurd (fixed _ hl) moved

/-- Let a function run once, by the survey of its program. Realizing passes it over in every context. Stating its
facts succeeds, and each of them is captured. As a fact would be stated in a context, it is captured if the context
is the default one or all that it mentions is fixed, and it is withheld otherwise. -/
theorem inFunction_captured (made : Survey.ofProgram s.program marked = .ok s.survey)
    (captured : s.capture false ns = (.ok c, ns')) (once : s.survey.funcOnce f = true) :
    (∀ context r, s.realizeFunction c f context r = pure r) ∧
    ∃ facts, (∀ ms, ∃ ms', s.inFunction f ms = (.ok facts, ms')) ∧ (∀ d ∈ facts, d ∈ c.facts) ∧
      ∀ (context : Context), ∀ d ∈ facts, d.mapLeaves (c.tag s.program context) ∈ c.facts ↔
        context = 0 ∨ ∀ l ∈ d.leaves, c.isFixed s.program l.value = true := by
  refine ⟨fun context r => by simp [realizeFunction, once], ?_⟩
  suffices known : ∃ facts, (∀ ms, ∃ ms', s.inFunction f ms = (.ok facts, ms')) ∧ ∀ d ∈ facts, d ∈ c.facts by
    obtain ⟨facts, run, inside⟩ := known
    exact ⟨facts, run, inside, fun context d hd => tagged_mem_captured_iff captured (inside d hd)⟩
  obtain ⟨top, loads, edges, library, collected, mem_facts⟩ := exists_collected captured
  cases dead : s.survey.funcDead f with
  | true => exact ⟨[], fun ms => ⟨ms, by simp only [inFunction, dead, if_true]; rfl⟩, by simp⟩
  | false =>
    have inside := Survey.lt_of_not_funcDead made dead
    obtain ⟨fn, hfn⟩ := Program.returns_function (p := s.program) inside
    let insts := (fn.blocks.filter fun b => (s.survey.innermost? b).isNone).flatMap s.program.instsOf
    have each : ∀ i ∈ insts, ∃ ds, s.inInstruction i = .ok ds ∧ ∀ d ∈ ds, d ∈ top ∨ d ∈ library := by
      intro i hi
      obtain ⟨b, hb, hi⟩ := List.mem_flatMap.1 hi
      obtain ⟨hb, outside⟩ := List.mem_filter.1 hb
      have placed : b ∈ s.program.blocksOf f := Program.mem_blocksOf.2 ⟨fn, Program.function_eq_ok.1 hfn, hb⟩
      refine collected.exists_inInstruction ?_ fun alive =>
        Survey.instOnce_of_funcOnce made once placed hi (Option.isNone_iff_eq_none.1 outside) alive
      exact List.mem_flatMap.2 ⟨f, List.mem_range.2 inside, List.mem_flatMap.2 ⟨b, placed, hi⟩⟩
    choose! stated run_stated known using each
    obtain ⟨excluded, run_excluded, inEdges⟩ := collected.exists_unreachableFacts inside dead once
    refine ⟨(insts.map stated).flatten ++ excluded, fun ms => ?_, fun d hd => ?_⟩
    · obtain ⟨ms', unreachable⟩ := run_excluded ms
      have mapped : insts.mapM (fun i => (liftM (s.inInstruction i) : Noted (List Clause))) ms =
          (.ok (insts.map stated), ms) := by
        have each := run_mapM_const (g := s.inInstruction)
          (f := fun i => (liftM (s.inInstruction i) : Noted (List Clause))) (fun i ms => rfl) insts ms
        rw [each, Checked.mapM_ok run_stated]
      refine ⟨ms', ?_⟩
      simp only [inFunction, dead]
      refine (run_bind_ok (run_lift_ok hfn)).trans ((run_bind_ok mapped).trans ?_)
      exact run_bind_ok unreachable
    · rw [mem_facts]
      refine ⟨rfl, ?_⟩
      rcases List.mem_append.1 hd with hd | hd
      · obtain ⟨ds, hds, hd⟩ := List.mem_flatten.1 hd
        obtain ⟨i, hi, rfl⟩ := List.mem_map.1 hds
        exact (known i hi d hd).elim .inl fun h => .inr (.inr (.inr h))
      · exact .inr (.inr (.inl (inEdges hd)))

end Subject

/-- A helper that is called once and gives up where a test fails. -/
def Program.assertive : Program where
  values := #[{ ty := .int 1, kind := .param 0 0 }, { ty := .int 1, kind := .param 1 0 },
    { ty := .void, kind := .inst 0 (.call (.direct 1) [0]) }, { ty := .int 1, kind := .inst 1 (.binary .xor 1 0) }]
  blocks := #[
    { func := 0, name := "entry", insts := [2], term := .ret none },
    { func := 1, name := "check", insts := [3], term := .condBr 3 2 3 },
    { func := 1, name := "failed", term := .unreachable },
    { func := 1, name := "done", term := .ret none }]
  functions := #[{ name := "main", params := [0], ret := .void, blocks := [0] },
    { name := "helper", params := [1], ret := .void, blocks := [1, 2, 3] }]

def Clause.assertiveFacts : List Clause :=
  let result := .result 3 boolWidth
  [.atom .eq result (.binary .xor (.result 1 boolWidth) (.result 0 boolWidth)), .atom .eq result (.literal (.bool false))]

namespace Subject
open Program

theorem inFunction_captured_assertive : ∃ survey, Survey.ofProgram assertive [2] = .ok survey ∧
    survey.funcOnce 1 = true ∧
    Subject.inFunction { program := assertive, survey } 1 [] = (.ok Clause.assertiveFacts, []) ∧
    ∃ c, Subject.capture { program := assertive, survey } false [] = (.ok c, []) ∧
      ∀ d ∈ Clause.assertiveFacts, d ∈ c.facts := by
  let bound : Clause := .atom .eq (.result 1 boolWidth) (.result 0 boolWidth)
  have found : (Survey.ofProgram assertive [2]).toOption.map (fun survey =>
      let s : Subject := { program := assertive, survey }
      (survey.funcOnce 1, s.inFunction 1 [], s.fixedValues, s.topLevelFacts [0, 1, 3],
        s.loadFacts (Capture.isFixed { fixed := [0, 1, 3] } assertive), s.onceEdgeFacts [],
        s.libraryFacts (Capture.isFixed { fixed := [0, 1, 3] } assertive))) =
      some (true, (.ok Clause.assertiveFacts, []), .ok [0, 1, 3], .ok (Clause.assertiveFacts.take 1 ++ [bound]), .ok [],
        (.ok (Clause.assertiveFacts.drop 1), []), .ok []) := by cbv
  obtain ⟨survey, made, read⟩ := Survey.exists_of_map_eq found
  obtain ⟨once, run, fixed, top, loads, edges, library⟩ := by simpa only [Prod.mk.injEq] using read
  have sorted : Clause.sort (Clause.assertiveFacts.take 1 ++ [bound] ++ [] ++ Clause.assertiveFacts.drop 1 ++ []) =
      .ok ([bound] ++ Clause.assertiveFacts.reverse) :=
    Clause.sort_eq_ok (by decide +kernel) (by decide +kernel) (by decide +kernel) (by decide +kernel)
  have captured := capture_eq fixed top loads edges library sorted
  obtain ⟨-, facts, stated, inside, -⟩ :=
    inFunction_captured (s := { program := assertive, survey }) made captured once
  obtain ⟨ms, again⟩ := stated []
  cases run.symm.trans again
  exact ⟨survey, made, once, run, _, captured, inside⟩

end Subject

/-- A bit is read in a loop and turned over after it. -/
def Program.lingering : Program where
  values := #[{ ty := .int 1, kind := .const 1 },
    { ty := .int 1, kind := .inst 1 (.call (.direct 1) []) }, { ty := .int 1, kind := .inst 1 (.call (.direct 2) []) },
    { ty := .int 1, kind := .inst 2 (.binary .add 1 0) }]
  blocks := #[
    { func := 0, name := "entry", term := .br 1 },
    { func := 0, name := "loop", insts := [1, 2], term := .condBr 2 1 2 },
    { func := 0, name := "exit", insts := [3], term := .ret none }]
  functions := #[{ name := "main", params := [], ret := .void, blocks := [0, 1, 2] },
    { name := "input", params := [], ret := .int 1 }, { name := "flag", params := [], ret := .int 1 }]
  chosenEntry := some 0

def Clause.lingeringSum (context : Context) : Clause :=
  .atom .eq (.result 3 boolWidth) (.binary .add (.leaf ⟨.result 1 [], boolWidth, context⟩) (.ofInt boolWidth 1))

def Clause.lingeringExit (context : Context) : Clause :=
  .atom .eq (.leaf ⟨.result 2 [], boolWidth, context⟩) (.literal (.bool false))

namespace Subject
open Program

/-- Asked about in a context of its own, the bit is told to have left the loop, but not that it was turned over. -/
theorem inFunction_withheld_lingering : ∃ survey, Survey.ofProgram lingering [] = .ok survey ∧
    let s : Subject := { program := lingering, survey }
    let operand : Leaf := ⟨.operand ⟨3, 0, 1⟩ [], boolWidth, 1⟩
    survey.funcOnce 0 = true ∧ s.inFunction 0 [] = (.ok [.lingeringSum 0], []) ∧
    ∃ c facts, s.capture false [] = (.ok c, []) ∧ s.realizeLeaves c [operand] [] = (.ok facts, []) ∧
      .lingeringSum 0 ∈ c.facts ∧ (Clause.lingeringSum 0).mapLeaves (c.tag lingering 1) = .lingeringSum 1 ∧
      .lingeringSum 1 ∉ c.facts ++ facts := by
  have found : (Survey.ofProgram lingering []).toOption.map (fun survey =>
      let s : Subject := { program := lingering, survey }
      let c : Capture := { fixed := [3] }
      (survey.funcOnce 0, s.inFunction 0 [], s.fixedValues, s.topLevelFacts [3],
        s.loadFacts (c.isFixed lingering), s.onceEdgeFacts [], s.libraryFacts (c.isFixed lingering),
        s.realizeLeaves { c with facts := [.lingeringSum 0] } [⟨.operand ⟨3, 0, 1⟩ [], boolWidth, 1⟩] [])) =
      some (true, (.ok [.lingeringSum 0], []), .ok [3], .ok [.lingeringSum 0], .ok [], (.ok [], []), .ok [],
        (.ok [.lingeringExit 1], [])) := by cbv
  obtain ⟨survey, made, read⟩ := Survey.exists_of_map_eq found
  obtain ⟨once, run, fixed, top, loads, edges, library, realized⟩ := by simpa only [Prod.mk.injEq] using read
  have sorted : Clause.sort ([.lingeringSum 0] ++ [] ++ [] ++ []) = .ok [.lingeringSum 0] :=
    Clause.sort_eq_ok (by decide +kernel) (.refl _) (by decide +kernel) (by decide +kernel)
  have captured := capture_eq fixed top loads edges library sorted
  exact ⟨survey, made, once, run, _, _, captured, realized, List.mem_cons_self, rfl, by decide⟩

end Subject
end SsaFacts
