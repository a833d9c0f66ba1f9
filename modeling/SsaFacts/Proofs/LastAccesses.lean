import SsaFacts.Proofs.EdgeExclusions
import SsaFacts.Proofs.ExecutionCounts

/-! What a load reads. A load is said to give what an access before it left at its location. On every way to the
load that access runs, and between its last run and the load nothing runs that may write the location. This
holds for a load whose block is reached from one entry only; where functions branch into each other, dominators
are those of one of the entries, and a way from another entry may pass by the access. -/
namespace SsaFacts

/-! ### Blocks that are entered once -/

theorem Reaches.trans {next : Nat → List Nat} {a b c : Nat} (first : Reaches next a b) (second : Reaches next b c) :
    Reaches next a c := by
  obtain ⟨vs, path⟩ := first
  obtain ⟨ws, path'⟩ := second
  exact ⟨_, path.append path'⟩

theorem Program.EnteredOnce.of_reaches {p : Program} {a b : BlockId} (once : p.EnteredOnce b)
    (reaches : Reaches p.targets a b) : p.EnteredOnce a :=
  fun f f' e e' he he' first second => once f f' e e' he he' (first.trans reaches) (second.trans reaches)

theorem Program.Regular.closed {p : Program} {g : FlowGraph} (regular : p.Regular)
    (made : FlowGraph.ofProgram p = .ok g) : p.Closed where
  entry f e he := by
    obtain ⟨fn, hf, head⟩ := he
    obtain ⟨x, hx, -⟩ := regular.listed f fn hf e (List.mem_of_mem_head? head)
    exact (Array.getElem?_eq_some_iff.1 hx).1
  targets := FlowGraph.targets_lt_of_ofProgram made

/-- What is found above a block that is reached from one entry only are strict dominators of the block. -/
theorem Dominators.strict_of_transGen {p : Program} {g : FlowGraph} {f : FuncId} {e b d : BlockId}
    (closed : p.Closed) (shows_p : g.Shows p) (once : p.EnteredOnce b) (he : p.IsEntry f e)
    (reaches : Reaches p.targets e b)
    (above : Relation.TransGen (fun b d => (ofProgram p g).idom? b = some d) b d) :
    d ≠ b ∧ Dominates p.targets e d b := by
  -- a dominator of `b` is reached from the same entry only
  have closest {x d : BlockId} (dominates : Dominates p.targets e x b) (parent : (ofProgram p g).idom? x = some d) :
      Closest p.targets e d x := by
    have reached : Reaches p.targets e x := dominates.reaches reaches
    have onward : Reaches p.targets x b := by
      obtain ⟨vs, path⟩ := reaches
      obtain ⟨front, back, -, -, -, rest⟩ := path.cut_last (dominates vs path)
      exact ⟨_, rest⟩
    have once' := once.of_reaches onward
    by_cases entry : x = e
    · subst entry
      rw [idom?_eq_none_of_closed closed shows_p fun f' e' he' reaches' =>
        (once' f f' x e' he he' .refl reaches').symm] at parent
      cases parent
    · obtain ⟨d', found, closest⟩ := exists_closest_of_enteredOnce closed shows_p once' he reached entry
      cases parent.symm.trans found
      exact closest
  induction above with
  | single parent =>
    have found := closest (.refl b) parent
    exact ⟨found.ne, found.dominates⟩
  | tail _ parent ih =>
    obtain ⟨ne, dominates⟩ := ih
    have found := closest dominates parent
    refine ⟨?_, found.dominates.trans dominates⟩
    rintro rfl
    exact ne (dominates.antisymm found.dominates reaches)

namespace Program
variable {p : Program} {b : BlockId} {vs ws : List BlockId} {i : ValueId}

theorem along_cons (p : Program) (b : BlockId) (vs : List BlockId) : p.along (b :: vs) = p.along vs ++ p.instsOf b := by
  simp [along]

theorem along_append (p : Program) (vs ws : List BlockId) : p.along (vs ++ ws) = p.along ws ++ p.along vs := by
  simp [along]

theorem mem_along : i ∈ p.along vs ↔ ∃ a ∈ vs, i ∈ p.instsOf a := by
  simp [along]

theorem Regular.not_mem_along (regular : p.Regular) (mem : i ∈ p.instsOf b) (out : b ∉ vs) : i ∉ p.along vs := by
  intro runs
  obtain ⟨a, ha, mem'⟩ := mem_along.1 runs
  exact out (regular.eq_of_mem_instsOf mem' mem ▸ ha)

end Program

/-! ### Lists cut at an element -/

section
variable {α : Type} [DecidableEq α] {xs : List α} {i j : α}

theorem takeWhile_append_cons (mem : i ∈ xs) :
    xs = xs.takeWhile (· ≠ i) ++ i :: (xs.dropWhile (· ≠ i)).drop 1 := by
  induction xs with
  | nil => cases mem
  | cons x xs ih =>
    by_cases same : x = i
    · simp [same]
    · have mem' := List.mem_of_ne_of_mem (Ne.symm same) mem
      simpa [same] using ih mem'

theorem takeWhile_eq_append_cons (mem : j ∈ xs.takeWhile (· ≠ i)) :
    xs.takeWhile (· ≠ i) =
      xs.takeWhile (· ≠ j) ++ j :: ((xs.dropWhile (· ≠ j)).drop 1).takeWhile (· ≠ i) := by
  induction xs with
  | nil => cases mem
  | cons x xs ih =>
    by_cases last : x = i
    · simp [last] at mem
    · rw [List.takeWhile_cons_of_pos (by simpa using last)] at mem ⊢
      by_cases same : x = j
      · simp [same]
      · have mem' := List.mem_of_ne_of_mem (Ne.symm same) mem
        simpa [same] using ih mem'

end

theorem Checked.forall_of_anyM {α : Type} {f : α → Checked Bool} {xs : List α} (none : xs.anyM f = .ok false) :
    ∀ a ∈ xs, f a = .ok false := by
  induction xs with
  | nil => simp
  | cons x xs ih =>
    rw [List.anyM_cons] at none
    obtain ⟨found, hx, rest⟩ := bind_eq_ok.1 none
    cases found with
    | true => cases rest
    | false => exact List.forall_mem_cons.2 ⟨hx, ih rest⟩

theorem Checked.of_guard {α : Type} {t : Prop} [Decidable t] {x : Checked (Option α)} {a : α}
    (found : (if t then pure none else x) = .ok (some a)) : ¬t ∧ x = .ok (some a) := by
  split at found
  case isTrue => cases found
  case isFalse failed => exact ⟨failed, found⟩

namespace Subject
variable {s : Subject} {q load i source value : ValueId} {b d : BlockId} {c : Clause} {isFixed : ValueId → Bool}

/-! ### The access that is found -/

/-- The instruction stores a value at the location of `q`, or loads the value from there. -/
def Accesses (s : Subject) (q i value : ValueId) : Prop :=
  ∃ ptr, s.survey.mustAlias ptr q = .ok true ∧
    (s.program.op? i = .ok (some (.store value ptr)) ∨ s.program.op? i = .ok (some (.load ptr)) ∧ value = i)

theorem accesses_of_accessValue? (found : s.accessValue? q i = .ok (some value)) : s.Accesses q i value := by
  obtain ⟨op, isOp, found⟩ := Checked.bind_eq_ok.1 found
  split at found
  case h_1 stored ptr =>
    obtain ⟨same, aliased, found⟩ := Checked.bind_eq_ok.1 found
    cases same <;> cases found
    exact ⟨ptr, aliased, .inl isOp⟩
  case h_2 ptr =>
    obtain ⟨same, aliased, found⟩ := Checked.bind_eq_ok.1 found
    cases same <;> cases found
    exact ⟨ptr, aliased, .inr ⟨isOp, rfl⟩⟩
  case h_3 => cases found

theorem of_lastAccess? {insts : List ValueId} (found : s.lastAccess? q insts = .ok (some (i, value))) :
    i ∈ insts ∧ s.Accesses q i value := by
  obtain ⟨j, mem, found⟩ := Checked.exists_of_findSomeM? found
  obtain ⟨o, left, found⟩ := Checked.bind_eq_ok.1 found
  obtain ⟨v, rfl, same⟩ := Option.map_eq_some_iff.1 (Except.ok.inj found)
  cases same
  exact ⟨List.mem_reverse.1 mem, accesses_of_accessValue? left⟩

theorem of_accessAbove? {steps : Nat} (found : s.accessAbove? q steps b = .ok (some (i, value))) :
    ∃ d, Relation.TransGen (fun b d => s.survey.idom? b = some d) b d ∧ i ∈ s.program.instsOf d ∧
      s.Accesses q i value := by
  induction steps generalizing b with
  | zero => cases found
  | succ steps ih =>
    rw [accessAbove?] at found
    split at found
    case h_1 => cases found
    case h_2 up parent =>
      obtain ⟨o, last, found⟩ := Checked.bind_eq_ok.1 found
      cases o with
      | some access =>
        cases found
        obtain ⟨mem, accesses⟩ := of_lastAccess? last
        exact ⟨up, .single parent, mem, accesses⟩
      | none =>
        obtain ⟨d, above, rest⟩ := ih found
        exact ⟨d, .head parent above, rest⟩

/-- The access is in the block of the load, before it, or in a block that is found above. -/
theorem of_source? (placed : s.program.blockOf? load = .ok (some b))
    (found : s.source? load q = .ok (some (source, value))) :
    s.Accesses q source value ∧ (source ∈ s.before b load ∨
      ∃ d, Relation.TransGen (fun b d => s.survey.idom? b = some d) b d ∧ source ∈ s.program.instsOf d) := by
  rw [source?, placed, Checked.ok_bind] at found
  obtain ⟨o, last, found⟩ := Checked.bind_eq_ok.1 found
  cases o with
  | some access =>
    cases found
    obtain ⟨mem, accesses⟩ := of_lastAccess? last
    exact ⟨accesses, .inl mem⟩
  | none =>
    obtain ⟨d, above, mem, accesses⟩ := of_accessAbove? found
    exact ⟨accesses, .inr ⟨d, above, mem⟩⟩

theorem exists_of_mustAssign (found : s.mustAssign isFixed load = .ok (some c)) :
    ∃ q source value passed, s.program.op? load = .ok (some (.load q)) ∧
      s.source? load q = .ok (some (source, value)) ∧ s.between source load = .ok passed ∧
      (∀ i ∈ passed, s.survey.mayWrite i q = .ok false) ∧ s.equal load value = .ok c := by
  obtain ⟨op, isOp, found⟩ := Checked.bind_eq_ok.1 found
  split at found
  case h_2 => cases found
  case h_1 q =>
    obtain ⟨-, found⟩ := Checked.of_guard found
    obtain ⟨o, nearest, found⟩ := Checked.bind_eq_ok.1 found
    split at found
    case h_2 => cases found
    case h_1 source value =>
      obtain ⟨-, found⟩ := Checked.of_guard found
      obtain ⟨_, -, found⟩ := Checked.bind_eq_ok.1 found
      obtain ⟨-, found⟩ := Checked.of_guard found
      obtain ⟨-, found⟩ := Checked.of_guard found
      obtain ⟨_, -, found⟩ := Checked.bind_eq_ok.1 found
      obtain ⟨_, -, found⟩ := Checked.bind_eq_ok.1 found
      obtain ⟨-, found⟩ := Checked.of_guard found
      obtain ⟨passed, between, found⟩ := Checked.bind_eq_ok.1 found
      obtain ⟨written, tested, found⟩ := Checked.bind_eq_ok.1 found
      obtain ⟨unwritten, found⟩ := Checked.of_guard found
      obtain rfl : written = false := by simpa using unwritten
      obtain ⟨d, equal, found⟩ := Checked.bind_eq_ok.1 found
      cases found
      exact ⟨q, source, value, passed, isOp, nearest, between, Checked.forall_of_anyM tested, equal⟩

/-! ### What runs between the access and the load -/

theorem mem_between_of_same {passed : List ValueId} (hsource : s.program.blockOf? source = .ok (some b))
    (hload : s.program.blockOf? load = .ok (some b)) (found : s.between source load = .ok passed)
    (earlier : i ∈ s.before b load) (later : i ∈ s.after b source) : i ∈ passed := by
  simp only [between, hsource, hload, Checked.ok_bind, if_pos] at found
  cases found
  exact List.mem_filter.2 ⟨earlier, List.contains_iff_mem.2 later⟩

theorem mem_between_of_ne {passed : List ValueId} (ne : d ≠ b) (hsource : s.program.blockOf? source = .ok (some d))
    (hload : s.program.blockOf? load = .ok (some b)) (found : s.between source load = .ok passed) :
    i ∈ passed ↔ i ∈ s.after d source ∨ i ∈ s.before b load ∨
      ∃ a ∈ s.survey.graph.reachBack b [d], a ≠ b ∧ i ∈ s.program.instsOf a := by
  simp only [between, hsource, hload, Checked.ok_bind, if_neg ne] at found
  cases found
  simp [and_assoc]

/-- The instructions of a block are those before one of them, this one and those after it. -/
theorem instsOf_eq_append (s : Subject) (mem : i ∈ s.program.instsOf b) :
    s.program.instsOf b = s.before b i ++ i :: s.after b i :=
  takeWhile_append_cons mem

theorem not_mem_before (s : Subject) (b : BlockId) (i : ValueId) : i ∉ s.before b i :=
  fun mem => by simpa using List.mem_takeWhile_imp mem

theorem before_subset (s : Subject) (b : BlockId) (i : ValueId) : s.before b i ⊆ s.program.instsOf b :=
  (List.takeWhile_prefix _).subset

theorem not_mem_after (regular : s.program.Regular) (mem : i ∈ s.program.instsOf b) : i ∉ s.after b i := by
  obtain ⟨x, hx, -⟩ := Program.mem_instsOf.1 mem
  have distinct : (s.program.instsOf b).Nodup := Program.instsOf_eq hx ▸ regular.distinct b x hx
  rw [s.instsOf_eq_append mem] at distinct
  exact (List.nodup_cons.1 distinct.of_append_right).1

/-- The instructions of a run up to the first `load` hold `source`, and none after the last `source` may write
the location of `q`. -/
def UnwrittenSince (s : Subject) (q source load : ValueId) (run : List ValueId) : Prop :=
  ∃ earlier later rest, run = earlier ++ source :: later ++ load :: rest ∧ load ∉ earlier ++ source :: later ∧
    source ∉ later ∧ ∀ i ∈ later, s.survey.mayWrite i q = .ok false

section
variable {e : BlockId} {vs : List BlockId} (regular : s.program.Regular) (placed : load ∈ s.program.instsOf b)
  (out : b ∉ vs)
include regular placed out

/-- Up to the load run the blocks that are passed before and the instructions before it in its own block. -/
theorem unwrittenSince_of_append (earlier later : List ValueId)
    (cut : s.program.along vs ++ s.before b load = earlier ++ source :: later) (last : source ∉ later)
    (unwritten : ∀ i ∈ later, s.survey.mayWrite i q = .ok false) :
    s.UnwrittenSince q source load (s.program.along (b :: vs)) := by
  refine ⟨earlier, later, s.after b load, ?_, ?_, last, unwritten⟩
  · rw [Program.along_cons, s.instsOf_eq_append placed, ← cut, List.append_assoc]
  · rw [← cut, List.mem_append]
    rintro (early | early)
    · exact regular.not_mem_along placed out early
    · exact s.not_mem_before b load early

theorem unwrittenSince_of_before (mem : source ∈ s.before b load)
    (unwritten : ∀ i, i ∈ s.before b load → i ∈ s.after b source → s.survey.mayWrite i q = .ok false) :
    s.UnwrittenSince q source load (s.program.along (b :: vs)) := by
  let later := (s.after b source).takeWhile (· ≠ load)
  have cut : s.before b load = s.before b source ++ source :: later := takeWhile_eq_append_cons mem
  have kept : later ⊆ s.after b source := (List.takeWhile_prefix _).subset
  refine unwrittenSince_of_append regular placed out (s.program.along vs ++ s.before b source) later ?_ ?_ ?_
  · rw [cut, List.append_assoc]
  · exact fun again => not_mem_after regular (s.before_subset b load mem) (kept again)
  · intro i hi
    refine unwritten i ?_ (kept hi)
    rw [cut]
    exact List.mem_append_right _ (List.mem_cons_of_mem _ hi)

/-- The access is in another block that the way passes. After the last visit to that block, the way leads on
to the load without passing it. -/
theorem unwrittenSince_of_mem (hsource : source ∈ s.program.instsOf d) (ne : d ≠ b)
    (path : Path s.program.targets e (b :: vs) b) (passed : d ∈ vs)
    (unwritten : ∀ i, (i ∈ s.after d source ∨ i ∈ s.before b load ∨
      ∃ a, Avoids s.program.targets d a b ∧ a ≠ b ∧ i ∈ s.program.instsOf a) → s.survey.mayWrite i q = .ok false) :
    s.UnwrittenSince q source load (s.program.along (b :: vs)) := by
  obtain ⟨front, back, rfl, last⟩ := List.eq_append_cons_of_mem passed
  rw [← List.cons_append] at path
  have onward : Path s.program.targets d (b :: front ++ [d]) b := path.cut.2
  have avoids {a : BlockId} (ha : a ∈ front) : Avoids s.program.targets d a b := by
    obtain ⟨later, earlier, rfl⟩ := List.append_of_mem ha
    have passing : Path s.program.targets d (b :: later ++ a :: (earlier ++ [d])) b := by simpa using onward
    refine ⟨_, passing.cut.2, fun again => ?_⟩
    simp_all
  refine unwrittenSince_of_append regular placed out (s.program.along back ++ s.before d source)
    (s.after d source ++ s.program.along front ++ s.before b load) ?_ ?_ ?_
  · rw [Program.along_append, Program.along_cons, s.instsOf_eq_append hsource]
    simp
  · simp only [List.mem_append, not_or]
    refine ⟨⟨not_mem_after regular hsource, regular.not_mem_along hsource last⟩, fun again => ne ?_⟩
    exact regular.eq_of_mem_instsOf hsource (s.before_subset b load again)
  · intro i hi
    rcases List.mem_append.1 hi with hi | hi
    · rcases List.mem_append.1 hi with hi | hi
      · exact unwritten i (.inl hi)
      · obtain ⟨a, ha, mem⟩ := Program.mem_along.1 hi
        refine unwritten i (.inr (.inr ⟨a, avoids ha, ?_, mem⟩))
        rintro rfl
        exact out (List.mem_append_left _ ha)
    · exact unwritten i (.inr (.inl hi))

end

/-- Take a load in a block that is reached from one entry only, and whatever is said about which pointers
address one location and what may write it. If the load is said to give a value, then the value is what the
access that was found leaves at a pointer to the location of the load, and on every way that leads from the entry
to the block of the load for the first time the access runs before the load, and nothing that runs between its
last run and the load may write the location. -/
theorem mustAssign_unwritten (regular : s.program.Regular) (graph : FlowGraph.ofProgram s.program = .ok s.survey.graph)
    (idom : s.survey.idom? = (Dominators.ofProgram s.program s.survey.graph).idom?)
    (placed : load ∈ s.program.instsOf b) (once : s.program.EnteredOnce b)
    (found : s.mustAssign isFixed load = .ok (some c)) :
    ∃ q source value, s.program.op? load = .ok (some (.load q)) ∧
      s.source? load q = .ok (some (source, value)) ∧ s.Accesses q source value ∧ s.equal load value = .ok c ∧
      ∀ f e vs, s.program.IsEntry f e → Path s.program.targets e (b :: vs) b → b ∉ vs →
        s.UnwrittenSince q source load (s.program.along (b :: vs)) := by
  obtain ⟨q, source, value, passed, isLoad, nearest, between, unwritten, equal⟩ := exists_of_mustAssign found
  have hload := regular.blockOf? placed
  obtain ⟨accesses, before | ⟨d, above, hsource⟩⟩ := of_source? hload nearest
  · refine ⟨q, source, value, isLoad, nearest, accesses, equal, fun f e vs he path out => ?_⟩
    have hsource := regular.blockOf? (s.before_subset b load before)
    exact unwrittenSince_of_before regular placed out before fun i early late =>
      unwritten i (mem_between_of_same hsource hload between early late)
  · refine ⟨q, source, value, isLoad, nearest, accesses, equal, fun f e vs he path out => ?_⟩
    have closed := regular.closed graph
    have shows_p := FlowGraph.shows_of_ofProgram graph
    have inside : b < s.survey.graph.size := shows_p.size_eq ▸ closed.reached he ⟨_, path⟩
    rw [idom] at above
    obtain ⟨ne, dominates⟩ := Dominators.strict_of_transGen closed shows_p once he ⟨_, path⟩ above
    have visited : d ∈ vs := List.mem_of_ne_of_mem ne (dominates _ path)
    refine unwrittenSince_of_mem regular placed out hsource ne path visited fun i runs => unwritten i ?_
    rw [mem_between_of_ne ne (regular.blockOf? hsource) hload between]
    simpa only [shows_p.mem_reachBack_singleton inside] using runs

end Subject

/-- A flag is set, another one is set in a loop any number of times, and then the first is read. -/
def Program.signalling : Program where
  values := #[
    { ty := .int 1, kind := .param 0 0 },
    { ty := .ptr, kind := .global "flag" none },
    { ty := .ptr, kind := .global "other" none },
    { ty := .int 1, kind := .const 1 },
    { ty := .void, kind := .inst 0 (.store 3 1) },
    { ty := .void, kind := .inst 1 (.store 3 2) },
    { ty := .int 1, kind := .inst 2 (.load 1) }]
  blocks := #[
    { func := 0, name := "entry", insts := [4], term := .br 1 },
    { func := 0, name := "loop", insts := [5], term := .condBr 0 1 2 },
    { func := 0, name := "exit", insts := [6], term := .ret none }]
  functions := #[{ name := "main", params := [0], ret := .void, blocks := [0, 1, 2] }]
  chosenEntry := some 0

/-- The block where `main` reads a flag is also entered from `helper`, which sets the flag. -/
def Program.crossing : Program where
  values := #[
    { ty := .int 1, kind := .param 0 0 },
    { ty := .ptr, kind := .global "flag" none },
    { ty := .int 1, kind := .const 1 },
    { ty := .int 1, kind := .inst 1 (.load 1) },
    { ty := .void, kind := .inst 2 (.store 2 1) },
    { ty := .void, kind := .inst 3 (.call (.direct 1) []) }]
  blocks := #[
    { func := 0, name := "entry", term := .condBr 0 1 3 },
    { func := 0, name := "join", insts := [3], term := .ret none },
    { func := 1, name := "body", insts := [4], term := .br 1 },
    { func := 0, name := "calls", insts := [5], term := .ret none }]
  functions := #[
    { name := "main", params := [0], ret := .void, blocks := [0, 1, 3] },
    { name := "helper", params := [], ret := .void, blocks := [2] }]
  chosenEntry := some 0

namespace Subject
open Program

/-- The loop is passed three times. -/
theorem mustAssign_unwritten_signalling : ∃ survey, Survey.ofProgram signalling [] = .ok survey ∧
    let s : Subject := { program := signalling, survey }
    s.mustAssign (Capture.isFixed {} signalling) 6 =
        .ok (some (.atom .eq (.result 6 boolWidth) (.ofInt boolWidth 1))) ∧
      s.Accesses 1 4 3 ∧ s.UnwrittenSince 1 4 6 [4, 5, 5, 5, 6] := by
  have read : (Survey.ofProgram signalling []).toOption.map (fun survey =>
      let s : Subject := { program := signalling, survey }
      (s.mustAssign (Capture.isFixed {} signalling) 6, s.source? 6 1)) =
      some (.ok (some (.atom .eq (.result 6 boolWidth) (.ofInt boolWidth 1))), .ok (some (4, 3))) := by cbv
  obtain ⟨survey, made, answers⟩ := Survey.exists_of_map_eq read
  obtain ⟨found, nearest⟩ := by simpa only [Prod.mk.injEq] using answers
  obtain ⟨forest, calls, execution, parts⟩ := Survey.exists_parts made
  have regular : signalling.Regular := by decide
  have confined : signalling.Confined := by decide
  have placed : 6 ∈ signalling.instsOf 2 := by decide
  obtain ⟨q, source, value, isLoad, nearest', accesses, -, runs⟩ := mustAssign_unwritten
    (s := { program := signalling, survey }) regular parts.graph_eq parts.idom_eq placed (confined.enteredOnce 2) found
  cases isLoad
  cases nearest.symm.trans nearest'
  have walk : Path signalling.targets 0 [2, 1, 1, 1, 0] 2 :=
    .step (.step (.step (.step .refl (by decide)) (by decide)) (by decide)) (by decide)
  exact ⟨survey, made, found, accesses, runs 0 0 _ ⟨_, rfl, rfl⟩ walk (by decide)⟩

/-- The branch of `main` that leads to the load does not pass the access that the fact goes back to. -/
theorem mustAssign_evaded_crossing : crossing.Regular ∧ crossing.IsEntry 0 0 ∧ 3 ∈ crossing.instsOf 1 ∧
    Path crossing.targets 0 [1, 0] 1 ∧ ∃ survey, Survey.ofProgram crossing [] = .ok survey ∧
      let s : Subject := { program := crossing, survey }
      s.mustAssign (Capture.isFixed {} crossing) 3 =
          .ok (some (.atom .eq (.result 3 boolWidth) (.ofInt boolWidth 1))) ∧
        ∀ q source, ¬s.UnwrittenSince q source 3 (crossing.along [1, 0]) := by
  have read : (Survey.ofProgram crossing []).toOption.map (fun survey =>
      mustAssign { program := crossing, survey } (Capture.isFixed {} crossing) 3) =
      some (.ok (some (.atom .eq (.result 3 boolWidth) (.ofInt boolWidth 1)))) := by
    have calls : CallGraph.ofProgram crossing = .ok ⟨#[none, none, none, none, none, some 1]⟩ := rfl
    rw [Survey.ofProgram, calls]
    cbv
  obtain ⟨survey, made, found⟩ := Survey.exists_of_map_eq read
  refine ⟨by decide, ⟨_, rfl, rfl⟩, by decide, .step .refl (by decide), survey, made, found, ?_⟩
  rintro q source ⟨earlier, later, rest, run, -⟩
  have length := congrArg List.length run
  rw [show crossing.along [1, 0] = [3] from rfl] at length
  simp only [List.length_append, List.length_cons, List.length_nil] at length
  omega

end Subject
end SsaFacts
