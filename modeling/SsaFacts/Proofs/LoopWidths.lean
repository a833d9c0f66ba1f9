import SsaFacts.Proofs.Realization
import SsaFacts.Proofs.RecurrentBounds
import SsaFacts.Proofs.Widths

/-! Facts that are stated on demand. All but those of loops join terms of one width in a well-typed program. A
loop's bound measures the induction variable in words and takes the condition at the latch for a truth value,
and tests neither; so a loop that counts with a bit, or whose latch branches on a word, has no facts at all. -/
namespace SsaFacts

def Loop.Tests (p : Program) (l : Loop) (iv cond : ValueId) : Prop :=
  l.induction = some iv ∧ ∃ incoming enter back x t f, p.op? iv = .ok (some (.phi incoming)) ∧
    l.splitIncoming? incoming = some (enter, back) ∧ p.block back.1 = .ok x ∧ x.term = .condBr cond t f

def Loop.Misfit (p : Program) (l : Loop) : Prop :=
  ∃ iv cond, l.Tests p iv cond ∧ (p.modelWidth iv = boolWidth ∨ p.modelWidth cond = wordWidth)

theorem Loop.Tests.fits {p : Program} {l : Loop} {iv cond : ValueId} (tests : l.Tests p iv cond)
    (fit : ¬l.Misfit p) : p.modelWidth iv = wordWidth ∧ p.modelWidth cond = boolWidth := by
  have widths : ¬(p.modelWidth iv = boolWidth ∨ p.modelWidth cond = wordWidth) :=
    fun wrong => fit ⟨iv, cond, tests, wrong⟩
  rw [not_or] at widths
  exact ⟨(p.modelWidth_cases iv).resolve_left widths.1, (p.modelWidth_cases cond).resolve_right widths.2⟩

/-! ### Loops -/

namespace LoopForest
variable {p : Program} {g : FlowGraph} {d : Dominators} {l : Loop} {iv n : ValueId}

/-- The trip count has the type of the induction variable: they are compared after one addition. -/
theorem ty?_of_countsTo {incoming : List (BlockId × ValueId)} {enter back : BlockId × ValueId} {cond a b : ValueId}
    {pred : Predicate} {t f : BlockId} (typed : p.WellTyped) (counts : Counts p l iv incoming enter back)
    (countsTo : CountsTo p g d l enter back n cond a b pred t f) : p.ty? n = p.ty? iv := by
  have next : p.ty? back.2 = p.ty? iv := by
    obtain ⟨one, -, isNext | isNext⟩ := counts.exists_increment
    · exact (typed.of_op? isNext).1.symm
    · exact (typed.of_op? isNext).2.symm
  have compared := (typed.of_op? countsTo.isTest).1
  rcases countsTo.operands with ⟨rfl, rfl⟩ | ⟨rfl, rfl⟩
  · exact compared.symm.trans next
  · exact compared.trans next

theorem exists_tests (typed : p.WellTyped) (annotated : Annotated p g d l) (counts : l.induction = some iv)
    (trip : l.tripCount = some n) : ∃ cond, l.Tests p iv cond ∧ p.modelWidth cond = boolWidth ∧
      p.modelWidth n = p.modelWidth iv := by
  obtain ⟨isInduction, isTrip⟩ := annotated.counted iv counts
  obtain ⟨incoming, enter, back, counting⟩ := exists_counts isInduction
  obtain ⟨cond, a, b, pred, t, f, countsTo⟩ := exists_of_tripCount? counting (trip ▸ isTrip)
  obtain ⟨x, hx, term⟩ := countsTo.latch
  refine ⟨cond, ⟨counts, incoming, enter, back, x, t, f, counting.isPhi, counting.split, Program.block_eq_ok.2 hx,
    term⟩, Program.modelWidth_of_ty? (typed.of_op? countsTo.isTest).2, ?_⟩
  exact Program.modelWidth_congr (ty?_of_countsTo typed counting countsTo)

end LoopForest

namespace Subject
variable {s : Subject} {l : Loop} {iv cond n : ValueId} {g : FlowGraph} {d : Dominators}

theorem previous_fits (s : Subject) (v : ValueId) : Fits (s.previous v) (·.width = s.program.modelWidth v) :=
  (s.program.width_fits v).bind fun _ hw => Fits.pure hw

theorem closedBound_safe (word : s.program.modelWidth iv = wordWidth)
    (same : s.program.modelWidth n = s.program.modelWidth iv) : Safe (s.closedBound iv n) := by
  refine (s.program.leaf_fits iv).bind fun i hi => (Clause.compare_word_safe .sge (hi.trans word) 0).after fun _ => ?_
  exact (s.program.leaf_fits n).bind fun e he => (Clause.compare_safe .slt (by omega)).map _

theorem Typed.inLoopBody_safe (typed : s.Typed) (l : Loop) : Safe (s.inLoopBody l) := by
  refine Safe.filterMapM fun i _ => (s.observed_safe i).after fun seen => ?_
  split
  · exact typed.inUser_safe i
  · exact Safe.pure _

theorem Typed.recurrentBound_safe (typed : s.Typed) (word : s.program.modelWidth iv = wordWidth)
    (bit : s.program.modelWidth cond = boolWidth) (ifTrue : BlockId) :
    Safe (s.recurrentBound l iv cond ifTrue) := by
  refine (s.program.leaf_fits iv).bind fun i hi => (typed.inLoopBody_safe l).after fun body => ?_
  have isWord := hi.trans word
  refine (Expr.combine_fits .sub (r := .ofInt wordWidth 1) isWord).bind fun less hless => ?_
  refine (s.previous_fits iv).bind fun earlier he => (Clause.compare_safe .eq (by omega)).after fun step => ?_
  refine (s.previous_fits cond).bind fun c hc => (Clause.equal_bool_safe (hc.trans bit) _).after fun taken => ?_
  exact (Clause.compare_word_safe .eq isWord 0).after fun _ => (Clause.compare_word_safe .sgt isWord 0).map _

theorem Typed.inLoop_safe (typed : s.Typed) (annotated : LoopForest.Annotated s.program g d l)
    (fit : ¬l.Misfit s.program) : Safe (s.inLoop l) := by
  refine (?_ : Safe (s.loopBound l)).after fun bound => ?_
  · unfold loopBound
    split
    case h_2 => exact Safe.pure _
    case h_1 iv counts =>
      refine (s.program.op?_fits iv).bind fun op isPhi => ?_
      split
      case h_2 => exact Safe.pure _
      case h_1 incoming =>
        split
        · exact Safe.pure _
        split
        case h_1 n trip =>
          obtain ⟨cond, tests, -, same⟩ := LoopForest.exists_tests typed.program annotated counts trip
          exact (closedBound_safe (tests.fits fit).1 same).map _
        case h_2 =>
          split
          case h_2 => exact Safe.pure _
          case h_1 enter latch next split =>
            refine (s.program.block_fits latch).bind fun x found => ?_
            split
            case h_2 => exact Safe.pure _
            case h_1 cond t f term =>
              have tests : l.Tests s.program iv cond :=
                ⟨counts, incoming, enter, (latch, next), x, t, f, isPhi, split, found, term⟩
              exact (typed.recurrentBound_safe (tests.fits fit).1 (tests.fits fit).2 t).map _
  · cases bound with
    | none => exact Safe.pure _
    | some bound => exact (typed.inLoopBody_safe l).map _

/-- Without a trip count the bound of a loop ties it to the iteration before. -/
theorem loopBound_eq_recurrentBound {incoming : List (BlockId × ValueId)} {enter back : BlockId × ValueId} {x : Block}
    {t f : BlockId} (counts : Counts s.program l iv incoming enter back) (induction : l.induction = some iv)
    (endless : l.tripCount = none) (latch : s.program.block back.1 = .ok x) (term : x.term = .condBr cond t f) :
    s.loopBound l = do return some (← s.recurrentBound l iv cond t) := by
  unfold loopBound
  rw [induction]
  dsimp only
  rw [counts.isPhi, Checked.ok_bind]
  dsimp only
  rw [if_neg counts.two_edges, endless, counts.split]
  dsimp only
  rw [latch, Checked.ok_bind, term]

theorem bound_of_inLoop {bound : Checked (List Clause)} {cs : List Clause}
    (isBound : s.loopBound l = do return some (← bound)) (stated : s.inLoop l = .ok cs) : ∃ bs, bound = .ok bs := by
  obtain ⟨o, hbound, -⟩ := Checked.bind_eq_ok.1 stated
  obtain ⟨bs, hbs, -⟩ := Checked.bind_eq_ok.1 (isBound.symm.trans hbound)
  exact ⟨bs, hbs⟩

theorem not_misfit_of_inLoop {cs : List Clause} (typed : s.program.WellTyped)
    (annotated : LoopForest.Annotated s.program g d l) (stated : s.inLoop l = .ok cs) : ¬l.Misfit s.program := by
  rintro ⟨iv, cond, ⟨counted, incoming, enter, back, x, t, f, isPhi, split, latch, term⟩, wrong⟩
  obtain ⟨isInduction, -⟩ := annotated.counted iv counted
  obtain ⟨incoming', enter', back', counts⟩ := LoopForest.exists_counts isInduction
  cases counts.isPhi.symm.trans isPhi
  cases counts.split.symm.trans split
  have fits : s.program.modelWidth iv = wordWidth ∧ s.program.modelWidth cond = boolWidth := by
    cases trip : l.tripCount with
    | none =>
      obtain ⟨bs, bound⟩ := bound_of_inLoop (loopBound_eq_recurrentBound counts counted trip latch term) stated
      obtain ⟨word, bit, -⟩ := recurrentBound_iff (δ := fun _ _ x => x) bound
      exact ⟨word, bit⟩
    | some n =>
      obtain ⟨bs, bound⟩ := bound_of_inLoop (loopBound_eq_closedBound counts counted trip) stated
      obtain ⟨cond', ⟨-, incoming', enter', back', x', t', f', isPhi', split', latch', term'⟩, bit, -⟩ :=
        LoopForest.exists_tests typed annotated counted trip
      cases isPhi.symm.trans isPhi'
      cases split.symm.trans split'
      cases latch.symm.trans latch'
      cases term.symm.trans term'
      exact ⟨(closedBound_iff (δ := fun _ _ x => x) bound).1, bit⟩
  rcases wrong with narrow | wide
  · cases narrow.symm.trans fits.1
  · cases wide.symm.trans fits.2

/-! ### Tasks -/

theorem exitFact?_safe {b : BlockId} {phi : ValueId} {incoming : List (BlockId × ValueId)}
    (same : ∀ edge ∈ incoming, s.program.modelWidth edge.2 = s.program.modelWidth phi) :
    Safe (s.exitFact? b phi incoming) := by
  unfold exitFact?
  split
  case h_2 => exact Safe.pure _
  case h_1 source value =>
    split
    · exact Safe.pure _
    refine (s.allObserved_safe _).after fun seen => ?_
    split
    · exact (equal_safe (same _ (List.mem_singleton_self _)).symm).map _
    · exact Safe.pure _

theorem exitFacts_safe (typed : s.program.WellTyped) (b : BlockId) : Safe (s.exitFacts b) := by
  refine (Safe.mapM fun x _ => (s.program.phis_fits x).bind fun phis listed => ?_).map _
  refine Safe.filterMapM fun phi mem => exitFact?_safe fun edge incoming => ?_
  have isPhi := Program.op?_of_mem_phis listed mem
  exact Program.modelWidth_congr (typed.of_op? isPhi edge incoming)

theorem bindingFacts_safe (s : Subject) (site : ValueId) (callee : FuncId) : Safe (s.bindingFacts site callee) := by
  refine (s.program.function_fits callee).lift.after fun f => (s.program.spawned?_safe site).lift.after fun o => ?_
  refine (s.program.callArgs_safe site).lift.after fun args => ?_
  split
  · exact (note_safe rfl).after fun _ => Safe.pure _
  refine Safe.filterMapM fun pair _ => Fits.lift ?_
  obtain ⟨formal, index⟩ := pair
  refine (s.program.actual?_fits site index).after fun o => ?_
  cases o with
  | none => exact Safe.pure _
  | some actual =>
    refine (s.program.width_fits actual).bind fun w hw => (s.program.width_fits formal).bind fun w' hw' => ?_
    by_cases same : w = w'
    · rw [if_neg (not_not.2 same)]
      refine (s.observed_safe formal).after fun seen => ?_
      split
      · exact Safe.pure _
      · exact (equal_safe (hw.symm.trans (same.trans hw'))).map _
    · rw [if_pos same]
      exact Safe.pure _

namespace Typed
variable (typed : s.Typed)
include typed

theorem inFunction_safe (f : FuncId) : Safe (s.inFunction f) := by
  unfold inFunction
  split
  · exact Safe.pure _
  refine (s.program.function_fits f).lift.after fun fn => ?_
  refine (Safe.mapM fun i _ => Fits.lift ?_).after fun facts => (typed.unreachableFacts_safe f).map _
  refine (s.observed_safe i).after fun seen => ?_
  split
  · exact Safe.pure _
  · exact (typed.inUser_safe i).after fun _ => (s.inLibraryCall_safe i).map _

theorem branchFacts_safe (b : BlockId) : Safe (s.branchFacts b) := by
  refine (Safe.mapM fun step _ => (s.program.block_fits step.1).lift.after fun x => ?_).map _
  exact Safe.filterMapM fun e _ => typed.excludeEdge_safe step.1 e.2

theorem taskFacts_safe {t : Task} (annotated : ∀ (i : LoopId) l, s.survey.loops[i]? = some l →
    LoopForest.Annotated s.program g d l)
    (fit : ∀ (i : LoopId) l, t = .loop i → s.survey.loops[i]? = some l → ¬l.Misfit s.program) : Safe (s.taskFacts t) := by
  cases t with
  | function f => exact typed.inFunction_safe f
  | loop i =>
    have isLoop : Fits (s.survey.loop i) fun l => s.survey.loops[i]? = some l := by
      unfold Survey.loop
      split
      case h_1 l hl => exact Fits.pure hl
      case h_2 => exact .dangling trivial
    exact isLoop.lift.bind fun l hl => (typed.inLoop_safe (annotated i l hl) (fit i l rfl hl)).lift
  | branches b => exact typed.branchFacts_safe b
  | exits b => exact (exitFacts_safe typed.program b).lift
  | argument v => exact (typed.inArgument_safe v).lift.safe.map _
  | nothing v => exact Safe.pure _
  | binding site callee => exact s.bindingFacts_safe site callee
  | absent v => exact Fits.lift (x := .error (.unknownValue v)) (.dangling trivial)

end Typed
end Subject

namespace Need
variable {n : Need} {needs seen : List Need}

theorem dropSeen_subset : dropSeen seen needs ⊆ needs := by
  fun_induction dropSeen seen needs with
  | case1 => simp
  | case2 seen m rest key ih => exact List.cons_subset_cons m ih
  | case3 seen m rest k key known ih => exact List.subset_cons_of_subset m ih
  | case4 seen m rest k key new ih => exact List.cons_subset_cons m ih

theorem mem_dropSeen_loop {i : LoopId} (isLoop : n.task = .loop i) (new : n ∉ seen) (mem : n ∈ needs) :
    n ∈ dropSeen seen needs := by
  have key : n.key? = some n := by
    obtain ⟨t, c⟩ := n
    cases isLoop
    rfl
  fun_induction dropSeen seen needs with
  | case1 => exact mem
  | case2 seen m rest none ih =>
    rcases List.mem_cons.1 mem with rfl | mem
    · exact List.mem_cons_self
    · exact .tail _ (ih new mem)
  | case3 seen m rest k hk known ih =>
    rcases List.mem_cons.1 mem with rfl | mem
    · cases key.symm.trans hk
      exact absurd known new
    · exact ih new mem
  | case4 seen m rest k hk fresh ih =>
    by_cases same : n = m
    · exact same ▸ List.mem_cons_self
    · refine .tail _ (ih ?_ ((List.mem_cons.1 mem).resolve_left same))
      rw [List.mem_cons, not_or]
      refine ⟨?_, new⟩
      rintro rfl
      exact same (eq_of_key? (by simp [isLoop]) hk).symm

end Need

namespace Subject
variable {p : Program} {marked : List BlockId} {survey : Survey}

/-- Realizing a clause of a well-typed program joins terms of one width, unless the facts of a loop are needed that
counts with a bit or whose latch branches on a word: the one other fault is a dangling name. Where such a loop is
needed no facts are returned at all. -/
theorem realize_fits (typed : p.WellTyped) (made : Survey.ofProgram p marked = .ok survey) (c : Capture)
    (q : Clause) :
    let s : Subject := { program := p, survey }
    let needs := s.needs (c.isFixed p) q
    let misfit := ∃ n ∈ needs, ∃ i l, n.task = .loop i ∧ survey.loops[i]? = some l ∧ l.Misfit p
    (¬misfit → ∀ ns fault ns', s.realize c q ns = (.error fault, ns') → fault.Dangling) ∧
      (misfit → ∀ ns, ∃ fault ns', s.realize c q ns = (.error fault, ns')) := by
  intro s needs misfit
  have isTyped : s.Typed := Survey.typed_ofProgram typed made
  have annotated (i : LoopId) (l : Loop) (hl : survey.loops[i]? = some l) := Survey.annotated made hl
  rw [realize_eq]
  refine ⟨fun fit ns fault ns' failed => ?_, ?_⟩
  · have safe : Safe (s.stateAll c (Need.dropSeen [] needs)) := by
      refine (Safe.mapM fun n hn => (isTyped.taskFacts_safe annotated fun i l isLoop hl wrong => ?_).map _).map _
      exact fit ⟨n, Need.dropSeen_subset hn, i, l, isLoop, hl, wrong⟩
    exact safe.error fault ⟨ns, ns', failed⟩
  · rintro ⟨n, hn, i, l, isLoop, hl, wrong⟩ ns
    rcases run : s.stateAll c (Need.dropSeen [] needs) ns with ⟨fault | facts, ns'⟩
    · exact ⟨fault, ns', rfl⟩
    -- Facts were returned, so those of the loop were stated.
    obtain ⟨lists, ns₁, mapped, -⟩ := run_bind_eq_ok run
    obtain ⟨ms, ms', ds, stated, -⟩ :=
      exists_of_run_mapM mapped (Need.mem_dropSeen_loop isLoop List.not_mem_nil hn)
    obtain ⟨cs, ms'', stated, -⟩ := run_bind_eq_ok stated
    rw [isLoop] at stated
    have found : survey.loop i = .ok l := by rw [Survey.loop, hl]
    rw [taskFacts, run_bind_ok (run_lift_ok found)] at stated
    have inLoop : s.inLoop l = .ok cs := congrArg Prod.fst stated
    exact absurd wrong (not_misfit_of_inLoop typed (annotated i l hl) inLoop)

/-- Counting up to the parameter never mixes widths, whatever is asked. -/
theorem realize_fits_tallying : Program.tallying.WellTyped ∧ ∃ survey, Survey.ofProgram .tallying [] = .ok survey ∧
    ∀ (c : Capture) (q : Clause) (ns : List Notice) (fault : Fault) (ns' : List Notice),
      realize { program := .tallying, survey } c q ns = (.error fault, ns') → fault.Dangling := by
  have typed : Program.tallying.WellTyped := by decide
  have found : (Survey.ofProgram .tallying []).toOption.map (fun survey => survey.loops.map (·.induction)) =
    some #[some 4] := by cbv
  obtain ⟨survey, made, loops⟩ := Survey.exists_of_map_eq found
  refine ⟨typed, survey, made, fun c q => (realize_fits typed made c q).1 ?_⟩
  rintro ⟨n, -, i, l, -, hl, iv, cond, ⟨counts, incoming, enter, back, x, t, f, isPhi, split, latch, term⟩, wrong⟩
  have only : l.induction ∈ #[some 4] := loops ▸ Array.mem_map_of_mem (Array.mem_of_getElem? hl)
  obtain rfl : iv = 4 := by simpa [counts] using only
  obtain rfl : [(0, 1), (1, 5)] = incoming := by cases isPhi; rfl
  obtain rfl | rfl : back = (0, 1) ∨ back = (1, 5) := by
    simpa using (LoopForest.mem_of_splitIncoming? split).2
  all_goals
    cases latch
    cases term
    simp [Program.modelWidth, Program.tallying, Ty.modelWidth, boolWidth, wordWidth] at wrong

end Subject

/-- A loop that counts with a bit. -/
def Program.flipping : Program where
  values := #[
    { ty := .int 1, kind := .const 0 },
    { ty := .int 1, kind := .const 1 },
    { ty := .int 1, kind := .inst 1 (.phi [(0, 0), (1, 3)]) },
    { ty := .int 1, kind := .inst 1 (.binary .add 2 1) }]
  blocks := #[
    { func := 0, name := "entry", term := .br 1 },
    { func := 0, name := "loop", insts := [2, 3], term := .condBr 3 1 2 },
    { func := 0, name := "exit", term := .ret none }]
  functions := #[{ name := "main", params := [], ret := .void, blocks := [0, 1, 2] }]

def Clause.flipped : Clause := .atom .eq (.result 2 boolWidth) (.ofInt boolWidth 0)

namespace Subject

theorem recurrentBound_eq_error {s : Subject} {l : Loop} {iv cond : ValueId} {t : BlockId} {i : Expr}
    {body : List Clause} (leaf : s.program.leaf iv = .ok i) (stated : s.inLoopBody l = .ok body)
    (bit : i.width = boolWidth) : s.recurrentBound l iv cond t = .error (.widthMismatch boolWidth wordWidth) := by
  have mismatch : Expr.combine .sub i (.ofInt wordWidth 1) = .error (.widthMismatch boolWidth wordWidth) := by
    rw [Expr.combine, bit]
    exact if_neg (by decide : boolWidth ≠ wordWidth)
  rw [recurrentBound, leaf, Checked.ok_bind, stated, Checked.ok_bind, mismatch]
  rfl

/-- The clause speaks of a value of the program at its width, and realizing it compares a bit with a word. -/
theorem realize_mismatch_flipping : Program.flipping.WellTyped ∧ ∃ survey, Survey.ofProgram .flipping [] = .ok survey ∧
    ∀ (c : Capture) (ns : List Notice), realize { program := .flipping, survey } c .flipped ns =
      (.error (.widthMismatch boolWidth wordWidth), ns) := by
  have found : (Survey.ofProgram .flipping []).toOption.map (fun survey => survey.loops[0]?.map fun l =>
      (l.induction, l.tripCount, l.splitIncoming? [(0, 0), (1, 3)], inLoopBody { program := .flipping, survey } l,
        instructionTasks { program := .flipping, survey } 2)) =
      some (some (some 2, none, some ((0, 0), (1, 3)),
        .ok [.atom .eq (.result 3 boolWidth) (.binary .add (.result 2 boolWidth) (.ofInt boolWidth 1))],
        [.loop 0, .branches 1, .exits 1])) := by cbv
  obtain ⟨survey, l, made, hl, same⟩ := Survey.exists_loop_of_map_eq (fun survey l =>
    (l.induction, l.tripCount, l.splitIncoming? [(0, 0), (1, 3)], inLoopBody { program := .flipping, survey } l,
      instructionTasks { program := .flipping, survey } 2)) found
  simp only [Prod.mk.injEq] at same
  obtain ⟨counts, endless, split, body, tasks⟩ := same
  obtain ⟨incoming, enter, back, counting⟩ :=
    LoopForest.exists_counts ((Survey.annotated made hl).counted 2 counts).1
  cases counting.isPhi
  cases split.symm.trans counting.split
  have failed : inLoop { program := .flipping, survey } l = .error (.widthMismatch boolWidth wordWidth) := by
    rw [inLoop, loopBound_eq_recurrentBound (s := { program := .flipping, survey }) counting counts endless rfl rfl,
      recurrentBound_eq_error (s := { program := .flipping, survey }) rfl body rfl]
    rfl
  refine ⟨by decide, survey, made, fun c ns => ?_⟩
  have needed : needs { program := .flipping, survey } (c.isFixed .flipping) .flipped =
      [{ task := .loop 0, context := 0 }, { task := .branches 1, context := 0 }, { task := .exits 1, context := 0 }] := by
    have plan : needs { program := .flipping, survey } (c.isFixed .flipping) .flipped =
      ((instructionTasks { program := .flipping, survey } 2 ++ [] ++ []).map ({ task := ·, context := 0 }) ++ []) := rfl
    simp [plan, tasks]
  have isLoop : survey.loop 0 = .ok l := by rw [Survey.loop, hl]
  have first : taskFacts { program := .flipping, survey } (.loop 0) ns =
      (.error (.widthMismatch boolWidth wordWidth), ns) := by
    rw [taskFacts, run_bind_ok (run_lift_ok isLoop), failed]
    rfl
  rw [realize_eq, needed]
  refine run_bind_error ?_
  rw [Need.dropSeen]
  simp only [Need.key?, List.not_mem_nil, if_false, List.mapM_cons]
  exact run_bind_error (run_bind_error first)

end Subject
end SsaFacts
