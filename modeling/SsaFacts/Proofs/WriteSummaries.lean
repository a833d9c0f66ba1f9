import SsaFacts.Proofs.LastAccesses
import SsaFacts.Proofs.Provenance
import SsaFacts.Proofs.Typing

/-! What an instruction may write, counting all that it may call. Writes are recorded as the pointers that are
written through, and the records of all instructions that a call can lead to are joined. Whatever one of these
instructions may write the call may write, through any number of calls and through recursion, and it may write
nothing else. -/
namespace SsaFacts

namespace Checked
variable {α : Type} {f : α → Checked Bool} {xs : List α}

theorem exists_of_anyM (found : xs.anyM f = .ok true) : ∃ x ∈ xs, f x = .ok true := by
  induction xs with
  | nil => cases found
  | cons x xs ih =>
    rw [List.anyM_cons] at found
    obtain ⟨b, hx, found⟩ := bind_eq_ok.1 found
    cases b with
    | true => exact ⟨x, List.mem_cons_self, hx⟩
    | false =>
      obtain ⟨y, mem, hy⟩ := ih found
      exact ⟨y, .tail _ mem, hy⟩

theorem iff_of_anyM {b : Bool} (found : xs.anyM f = .ok b) : b = true ↔ ∃ x ∈ xs, f x = .ok true := by
  cases b with
  | true => simp [exists_of_anyM found]
  | false => simp +contextual [forall_of_anyM found]

theorem exists_of_anyM_error {e : Fault} (failed : xs.anyM f = .error e) : ∃ x ∈ xs, f x = .error e := by
  induction xs with
  | nil => cases failed
  | cons x xs ih =>
    rw [List.anyM_cons] at failed
    cases hx : f x with
    | error e' =>
      rw [hx] at failed
      cases failed
      exact ⟨x, List.mem_cons_self, hx⟩
    | ok b =>
      rw [hx, ok_bind] at failed
      cases b with
      | true => cases failed
      | false =>
        obtain ⟨y, mem, hy⟩ := ih failed
        exact ⟨y, .tail _ mem, hy⟩

end Checked

/-! ### What is meant -/

namespace Program
variable (p : Program)

/-- The body of the first function starts the second. -/
def LeadsTo (starts : ValueId → List FuncId) (f g : FuncId) : Prop := ∃ i ∈ p.bodyOf f, g ∈ starts i

/-- What the two pointers address may be one object. -/
def MayMeet (x q : ValueId) : Prop :=
  ∃ a b, Location.ofValue p x = .ok a ∧ Location.ofValue p q = .ok b ∧ a.mayAlias b = true

/-- The instruction may itself change what `q` points to. It stores there, it calls what is not known, or it
hands a pointer there to a routine that is only declared. -/
inductive Touches (q i : ValueId) : Prop
  | store {value x : ValueId} (op : p.op? i = .ok (some (.store value x))) (meet : p.MayMeet x q)
  | indirect {callee : ValueId} {args : List ValueId} (op : p.op? i = .ok (some (.call (.indirect callee) args)))
  | handed {f : FuncId} {fn : Function} {args : List ValueId} {x : ValueId}
      (op : p.op? i = .ok (some (.call (.direct f) args))) (named : p.functions[f]? = some fn)
      (declared : fn.isDeclaration = true) (mem : x ∈ args) (pointer : p.ty x = .ok .ptr) (meet : p.MayMeet x q)

/-- Running the instruction may change what `q` points to: it may do so itself, or an instruction of a function
that it starts may. -/
inductive MayWrite (starts : ValueId → List FuncId) (q : ValueId) : ValueId → Prop
  | here {i : ValueId} (placed : i ∈ p.instructions) (touches : p.Touches q i) : MayWrite starts q i
  | started {c i : ValueId} {f : FuncId} (start : f ∈ starts c) (mem : i ∈ p.bodyOf f)
      (writes : MayWrite starts q i) : MayWrite starts q c

def Astray (e : Fault) : Prop :=
  ∃ i ∈ p.instructions, ∃ value x, p.op? i = .ok (some (.store value x)) ∧ p.values.size ≤ x ∧ e = .unknownValue x

variable {p} {starts : ValueId → List FuncId} {q c i : ValueId} {f g : FuncId}

/-- What an instruction may write every call may write that leads to its function. -/
theorem MayWrite.of_reached (reached : Relation.ReflTransGen (p.LeadsTo starts) f g) (mem : i ∈ p.bodyOf g)
    (writes : p.MayWrite starts q i) (start : f ∈ starts c) : p.MayWrite starts q c := by
  induction reached using Relation.ReflTransGen.head_induction_on generalizing c with
  | refl => exact .started start mem writes
  | head call _ ih =>
    obtain ⟨j, placed, next⟩ := call
    exact .started start placed (ih next)

theorem Linked.not_astray (linked : p.Linked) (e : Fault) : ¬p.Astray e := by
  rintro ⟨i, -, value, x, op, outside, -⟩
  obtain ⟨y, b, hy, kind⟩ := exists_of_op? op
  have inside := linked.operands y (Array.mem_of_getElem? hy) x (by simp [kind, Kind.operands, Op.operands])
  exact absurd inside (Nat.not_lt.2 outside)

end Program

/-! ### The functions that a call leads to -/

namespace CallGraph
variable {p : Program} {calls : CallGraph} {c : ValueId} {f g : FuncId}

theorem lt_of_mem_callees (graph : ofProgram p = .ok calls) (mem : f ∈ calls.callees c) :
    f < p.functions.size := by
  have target := target?_of_target graph (Option.mem_toList.1 mem)
  obtain ⟨fn, hf, -⟩ := isDeclaration_of_target? target
  exact (Array.getElem?_eq_some_iff.1 hf).1

theorem mem_calledBy : g ∈ calls.calledBy p f ↔ p.LeadsTo calls.callees f g := by
  simp [calledBy, callees, Program.LeadsTo]

/-- The functions that are reached by calls, each from the body of the one before. -/
theorem mem_reachable (graph : ofProgram p = .ok calls) (inside : f < p.functions.size) :
    g ∈ calls.reachable p [f] ↔ Relation.ReflTransGen (p.LeadsTo calls.callees) f g := by
  have listed (f : FuncId) : f ∈ p.functionIds ↔ f < p.functions.size := List.mem_range
  rw [reachable, mem_closure]
  constructor
  · intro within
    induction within with
    | start mem here =>
      obtain rfl := List.mem_singleton.1 mem
      exact .refl
    | edge _ edge _ ih => exact ih.tail (mem_calledBy.1 edge)
  · intro reached
    induction reached with
    | refl => exact .start (List.mem_singleton_self f) ((listed f).2 inside)
    | tail _ call ih =>
      obtain ⟨i, -, start⟩ := id call
      exact .edge ih (mem_calledBy.2 call) ((listed _).2 (lt_of_mem_callees graph start))

end CallGraph

/-! ### Records of writes -/

namespace Writes

def Through (P : ValueId → Prop) : Writes → Prop
  | .through ptrs => ∀ x ∈ ptrs, P x
  | .anything => True

variable {P : ValueId → Prop} {a b : Writes}

theorem Through.union (ha : a.Through P) (hb : b.Through P) : (a.union b).Through P := by
  cases a with
  | anything => trivial
  | through ps =>
    cases b with
    | anything => trivial
    | through qs => exact List.forall_mem_append.2 ⟨ha, hb⟩

theorem Through.foldl {w : ValueId → Writes} (each : ∀ i, (w i).Through P) {is : List ValueId} (ha : a.Through P) :
    (is.foldl (fun all i => all.union (w i)) a).Through P := by
  induction is generalizing a with
  | nil => exact ha
  | cons i is ih => exact ih (ha.union (each i))

end Writes

namespace Memory
variable {p : Program} {calls : CallGraph} {m : Memory} {q x i c : ValueId} {w a b : Writes} {f g : FuncId} {e : Fault}

def Hits (m : Memory) (q : ValueId) : Writes → Prop
  | .through ptrs => ∃ x ∈ ptrs, m.mayAlias x q = .ok true
  | .anything => True

theorem not_hits_none : ¬m.Hits q .none := by simp [Hits, Writes.none]

theorem hits_union : m.Hits q (a.union b) ↔ m.Hits q a ∨ m.Hits q b := by
  cases a <;> cases b <;> simp [Hits, Writes.union, or_and_right, exists_or]

theorem hits_foldl {w : ValueId → Writes} {is : List ValueId} :
    m.Hits q (is.foldl (fun all i => all.union (w i)) a) ↔ m.Hits q a ∨ ∃ i ∈ is, m.Hits q (w i) := by
  induction is generalizing a with
  | nil => simp
  | cons i is ih => simp [ih, hits_union, or_assoc]

theorem hits_of_mayHit {answer : Bool} (found : m.mayHit q w = .ok answer) : answer = true ↔ m.Hits q w := by
  cases w with
  | anything =>
    cases found
    simp [Hits]
  | through ptrs => exact Checked.iff_of_anyM found

/-! ### The tables -/

theorem location_eq (made : ofProgram p calls = .ok m) (v : ValueId) : m.location v = Location.ofValue p v := by
  by_cases inside : v < p.values.size
  · obtain ⟨l, listed, followed⟩ := location_of_lt made inside
    rw [listed, followed]
  · have missing : p.kind v = .error (.unknownValue v) := by
      simp only [Program.kind, Program.value, Array.getElem?_eq_none (Nat.not_lt.1 inside)]
      rfl
    have unlisted : m.locations[v]? = none := by
      obtain ⟨ls, located, made⟩ := Checked.bind_eq_ok.1 made
      obtain ⟨_, _, ⟨⟩⟩ := Checked.bind_eq_ok.1 made
      have length : ls.length = p.values.size := by
        simpa [Program.valueIds] using (forall₂_of_mapM_eq_ok located).length_eq.symm
      simp [length, Nat.not_lt.1 inside]
    rw [location, unlisted, Location.ofValue, Location.follow, missing]
    rfl

theorem mayAlias_eq_true (made : ofProgram p calls = .ok m) : m.mayAlias x q = .ok true ↔ p.MayMeet x q := by
  simp only [mayAlias, location_eq made, Checked.bind_eq_ok, Program.MayMeet]
  simp

theorem mayAlias_error (made : ofProgram p calls = .ok m) (hq : q < p.values.size) (failed : m.mayAlias x q = .error e) :
    p.values.size ≤ x ∧ e = .unknownValue x := by
  obtain ⟨b, lb, -⟩ := location_of_lt made hq
  by_cases inside : x < p.values.size
  · obtain ⟨a, la, -⟩ := location_of_lt made inside
    rw [mayAlias, la, Checked.ok_bind, lb] at failed
    cases failed
  · refine ⟨Nat.not_lt.1 inside, ?_⟩
    cases listed : m.location x with
    | ok a =>
      rw [mayAlias, listed, Checked.ok_bind, lb] at failed
      cases failed
    | error e' =>
      rw [mayAlias, listed] at failed
      cases failed
      unfold location at listed
      split at listed
      · cases listed
      · cases listed
        rfl

theorem direct_eq (made : ofProgram p calls = .ok m) (i : ValueId) :
    (i ∈ p.instructions ∧ i < p.values.size → Writes.ofInst p i = .ok (m.direct.getD i .none)) ∧
      (¬(i ∈ p.instructions ∧ i < p.values.size) → m.direct.getD i .none = .none) := by
  obtain ⟨_, _, made⟩ := Checked.bind_eq_ok.1 made
  obtain ⟨found, mapped, ⟨⟩⟩ := Checked.bind_eq_ok.1 made
  exact Checked.getD_of_mapM mapped i

theorem touches_of_hits (made : ofProgram p calls = .ok m) (found : Writes.ofInst p i = .ok w) (hits : m.Hits q w) :
    p.Touches q i := by
  obtain ⟨op, hop, found⟩ := Checked.bind_eq_ok.1 found
  split at found
  case h_1 value x =>
    cases found
    simp only [Hits, List.mem_singleton, exists_eq_left, mayAlias_eq_true made] at hits
    exact .store hop hits
  case h_2 callee args => exact .indirect hop
  case h_3 f args =>
    obtain ⟨fn, hf, found⟩ := Checked.bind_eq_ok.1 found
    split at found
    case isTrue declared =>
      obtain ⟨ptrs, kept, ⟨⟩⟩ := Checked.bind_eq_ok.1 found
      obtain ⟨x, mem, aliases⟩ := hits
      obtain ⟨mem, tested⟩ := (Checked.mem_of_filterM kept).1 mem
      obtain ⟨ty, pointer, same⟩ := Checked.bind_eq_ok.1 tested
      obtain rfl : ty = .ptr := of_decide_eq_true (Except.ok.inj same)
      exact .handed hop (Program.function_eq_ok.1 hf) declared mem pointer ((mayAlias_eq_true made).1 aliases)
    case isFalse =>
      cases found
      exact absurd hits not_hits_none
  case h_4 =>
    cases found
    exact absurd hits not_hits_none

theorem hits_of_touches (made : ofProgram p calls = .ok m) (found : Writes.ofInst p i = .ok w)
    (touches : p.Touches q i) : m.Hits q w := by
  cases touches with
  | @store value x op meet =>
    rw [Writes.ofInst, op] at found
    cases found
    exact ⟨x, List.mem_singleton_self x, (mayAlias_eq_true made).2 meet⟩
  | indirect op =>
    rw [Writes.ofInst, op] at found
    cases found
    trivial
  | @handed f fn args x op named declared mem pointer meet =>
    rw [Writes.ofInst, op, Checked.ok_bind] at found
    dsimp only at found
    rw [Program.function_eq_ok.2 named, Checked.ok_bind, if_pos declared] at found
    obtain ⟨ptrs, kept, ⟨⟩⟩ := Checked.bind_eq_ok.1 found
    refine ⟨x, (Checked.mem_of_filterM kept).2 ⟨mem, ?_⟩, (mayAlias_eq_true made).2 meet⟩
    simp [pointer]

theorem hits_direct (made : ofProgram p calls = .ok m) :
    m.Hits q (m.direct.getD i .none) ↔ i ∈ p.instructions ∧ p.Touches q i := by
  obtain ⟨inside, outside⟩ := direct_eq made i
  by_cases listed : i ∈ p.instructions ∧ i < p.values.size
  · have found := inside listed
    exact ⟨fun hits => ⟨listed.1, touches_of_hits made found hits⟩,
      fun writes => hits_of_touches made found writes.2⟩
  · rw [outside listed]
    refine iff_of_false not_hits_none fun writes => listed ⟨writes.1, ?_⟩
    have exists_op : ∃ op, p.op? i = .ok (some op) := by cases writes.2 <;> exact ⟨_, ‹_›⟩
    obtain ⟨op, hop⟩ := exists_op
    obtain ⟨x, b, hx, -⟩ := Program.exists_of_op? hop
    exact (Array.getElem?_eq_some_iff.1 hx).1

theorem summary_eq (made : ofProgram p calls = .ok m) (inside : f < p.functions.size) :
    m.summaries.getD f .none = ((calls.reachable p [f]).flatMap p.bodyOf).foldl
      (fun all i => all.union (m.direct.getD i .none)) .none := by
  obtain ⟨_, _, made⟩ := Checked.bind_eq_ok.1 made
  obtain ⟨_, _, ⟨⟩⟩ := Checked.bind_eq_ok.1 made
  simp [Program.functionIds, inside]

/-- What is recorded for a function is what the instructions write that it leads to. -/
theorem hits_summary (graph : CallGraph.ofProgram p = .ok calls) (made : ofProgram p calls = .ok m)
    (inside : f < p.functions.size) :
    m.Hits q (m.summaries.getD f .none) ↔ ∃ g i,
      Relation.ReflTransGen (p.LeadsTo calls.callees) f g ∧ i ∈ p.bodyOf g ∧ p.Touches q i := by
  simp only [summary_eq made inside, hits_foldl, not_hits_none, false_or, List.mem_flatMap,
    CallGraph.mem_reachable graph inside, hits_direct made]
  constructor
  · rintro ⟨i, ⟨g, reached, mem⟩, -, touches⟩
    exact ⟨g, i, reached, mem, touches⟩
  · rintro ⟨g, i, reached, mem, touches⟩
    exact ⟨i, ⟨g, reached, mem⟩, Program.mem_instructions.2 ⟨g, mem⟩, touches⟩

/-- What may be written is found at the instruction or at one that its calls lead to. -/
theorem mayWrite_iff (graph : CallGraph.ofProgram p = .ok calls) (made : ofProgram p calls = .ok m) :
    p.MayWrite calls.callees q c ↔
      m.Hits q (m.direct.getD c .none) ∨ ∃ f ∈ calls.callees c, m.Hits q (m.summaries.getD f .none) := by
  rw [hits_direct made]
  constructor
  · intro writes
    induction writes with
    | here placed touches => exact .inl ⟨placed, touches⟩
    | @started c i f start mem _ ih =>
      refine .inr ⟨f, start, (hits_summary graph made (CallGraph.lt_of_mem_callees graph start)).2 ?_⟩
      rcases ih with ⟨-, touches⟩ | ⟨f', start', hits⟩
      · exact ⟨f, i, .refl, mem, touches⟩
      · obtain ⟨g, j, reached, mem', touches⟩ :=
          (hits_summary graph made (CallGraph.lt_of_mem_callees graph start')).1 hits
        exact ⟨g, j, .head ⟨i, mem, start'⟩ reached, mem', touches⟩
  · rintro (⟨placed, touches⟩ | ⟨f, start, hits⟩)
    · exact .here placed touches
    · obtain ⟨g, i, reached, mem, touches⟩ := (hits_summary graph made (CallGraph.lt_of_mem_callees graph start)).1 hits
      exact .of_reached reached mem (.here (Program.mem_instructions.2 ⟨g, mem⟩) touches) start

theorem iff_of_mayWrite (graph : CallGraph.ofProgram p = .ok calls) (made : ofProgram p calls = .ok m) {answer : Bool}
    (found : m.mayWrite calls c q = .ok answer) : answer = true ↔ p.MayWrite calls.callees q c := by
  rw [mayWrite_iff graph made]
  obtain ⟨self, hit, found⟩ := Checked.bind_eq_ok.1 found
  rw [← hits_of_mayHit hit]
  cases self with
  | true =>
    cases found
    simp
  | false =>
    cases answer with
    | true =>
      obtain ⟨f, start, hit⟩ := Checked.exists_of_anyM found
      exact iff_of_true rfl (.inr ⟨f, start, (hits_of_mayHit hit).1 rfl⟩)
    | false =>
      have missed (f : FuncId) (start : f ∈ calls.callees c) : ¬m.Hits q (m.summaries.getD f .none) := by
        rw [← hits_of_mayHit (Checked.forall_of_anyM found f start)]
        exact Bool.false_ne_true
      refine iff_of_false Bool.false_ne_true ?_
      rintro (self | ⟨f, start, hits⟩)
      · cases self
      · exact missed f start hits

/-! ### Faults -/

theorem through_direct (made : ofProgram p calls = .ok m) (i : ValueId) :
    (m.direct.getD i .none).Through fun x => p.values.size ≤ x → p.Astray (.unknownValue x) := by
  obtain ⟨inside, outside⟩ := direct_eq made i
  by_cases listed : i ∈ p.instructions ∧ i < p.values.size
  · have found := inside listed
    generalize m.direct.getD i .none = w at found ⊢
    obtain ⟨op, hop, found⟩ := Checked.bind_eq_ok.1 found
    split at found
    case h_1 value x =>
      cases found
      exact List.forall_mem_singleton.2 fun missing => ⟨i, listed.1, value, x, hop, missing, rfl⟩
    case h_2 callee args =>
      cases found
      trivial
    case h_3 f args =>
      obtain ⟨fn, hf, found⟩ := Checked.bind_eq_ok.1 found
      split at found
      case isTrue declared =>
        obtain ⟨ptrs, kept, ⟨⟩⟩ := Checked.bind_eq_ok.1 found
        intro x mem missing
        obtain ⟨-, tested⟩ := (Checked.mem_of_filterM kept).1 mem
        obtain ⟨ty, typed, -⟩ := Checked.bind_eq_ok.1 tested
        obtain ⟨y, value, -⟩ := Checked.bind_eq_ok.1 typed
        have present := (Array.getElem?_eq_some_iff.1 (Program.value_eq_ok.1 value)).1
        exact absurd present (Nat.not_lt.2 missing)
      case isFalse =>
        cases found
        exact List.forall_mem_nil _
    case h_4 =>
      cases found
      exact List.forall_mem_nil _
  · rw [outside listed]
    exact List.forall_mem_nil _

theorem through_summary (made : ofProgram p calls = .ok m) (inside : f < p.functions.size) :
    (m.summaries.getD f .none).Through fun x => p.values.size ≤ x → p.Astray (.unknownValue x) := by
  rw [summary_eq made inside]
  exact .foldl (through_direct made) (List.forall_mem_nil _)

theorem astray_of_mayHit (made : ofProgram p calls = .ok m) (hq : q < p.values.size)
    (through : w.Through fun x => p.values.size ≤ x → p.Astray (.unknownValue x)) (failed : m.mayHit q w = .error e) :
    p.Astray e := by
  cases w with
  | anything => cases failed
  | through ptrs =>
    obtain ⟨x, mem, failed⟩ := Checked.exists_of_anyM_error failed
    obtain ⟨missing, rfl⟩ := mayAlias_error made hq failed
    exact through x mem missing

theorem astray_of_mayWrite (graph : CallGraph.ofProgram p = .ok calls) (made : ofProgram p calls = .ok m)
    (hq : q < p.values.size) (failed : m.mayWrite calls c q = .error e) : p.Astray e := by
  unfold mayWrite at failed
  cases self : m.mayHit q (m.direct.getD c .none) with
  | error e' =>
    rw [self] at failed
    cases failed
    exact astray_of_mayHit made hq (through_direct made c) self
  | ok hit =>
    rw [self, Checked.ok_bind] at failed
    split at failed
    · cases failed
    · obtain ⟨f, start, failed⟩ := Checked.exists_of_anyM_error failed
      exact astray_of_mayHit made hq (through_summary made (CallGraph.lt_of_mem_callees graph start)) failed

end Memory

/-- A call may write all that any instruction may write that it leads to, call after call, if functions call each
other in circles too; only a store through a pointer that does not exist leaves the question without an answer.
An answer says whether something that the call leads to stores there, calls what is not known, or hands the pointer
to a routine that is only declared. -/
theorem Survey.mayWrite_of_callee {p : Program} {marked : List BlockId} {s : Survey} {q : ValueId}
    (made : Survey.ofProgram p marked = .ok s) (hq : q < p.values.size) :
    (∀ c, ∀ f ∈ s.callees c, ∀ g, Relation.ReflTransGen (p.LeadsTo s.callees) f g → ∀ i ∈ p.bodyOf g,
        s.mayWrite i q = .ok true → s.mayWrite c q = .ok true ∨ ∃ e, s.mayWrite c q = .error e ∧ p.Astray e) ∧
      ∀ c answer, s.mayWrite c q = .ok answer → (answer = true ↔ p.MayWrite s.callees q c) := by
  obtain ⟨calls, memory, shared⟩ := Survey.exists_memory made
  have right (c : ValueId) (answer : Bool) (found : s.mayWrite c q = .ok answer) :
      answer = true ↔ p.MayWrite s.callees q c := by
    rw [shared.callees_eq]
    exact Memory.iff_of_mayWrite shared.calls_eq shared.memory_eq (shared.mayWrite_eq ▸ found)
  refine ⟨fun c f start g reached i mem writes => ?_, right⟩
  have written : p.MayWrite s.callees q c := .of_reached reached mem ((right i true writes).1 rfl) start
  cases found : s.mayWrite c q with
  | ok answer => exact .inl (congrArg _ ((right c answer found).2 written))
  | error e =>
    rw [shared.mayWrite_eq] at found
    exact .inr ⟨e, rfl, Memory.astray_of_mayWrite shared.calls_eq shared.memory_eq hq found⟩

/-- `main` starts a thread, whose function and another one call each other until one of them sets `ready`. The
pointer to `idle` is handed to no one. -/
def Program.relayed : Program where
  values := #[
    { ty := .ptr, kind := .global "ready" (some 0) }, { ty := .ptr, kind := .global "idle" (some 0) },
    { ty := .ptr, kind := .null }, { ty := .ptr, kind := .function 1 }, { ty := .int 1, kind := .const 1 },
    { ty := .int 1, kind := .inst 0 (.call (.direct 3) [2, 2, 3, 2]) },
    { ty := .void, kind := .inst 1 (.call (.direct 2) []) },
    { ty := .void, kind := .inst 2 (.call (.direct 1) []) }, { ty := .void, kind := .inst 2 (.store 4 0) }]
  blocks := #[
    { func := 0, name := "entry", insts := [5], term := .ret none },
    { func := 1, name := "work", insts := [6], term := .ret none },
    { func := 2, name := "answer", insts := [7, 8], term := .ret none }]
  functions := #[
    { name := "main", params := [], ret := .void, blocks := [0] },
    { name := "worker", params := [], ret := .void, blocks := [1] },
    { name := "reply", params := [], ret := .void, blocks := [2] },
    { name := Routine.threadSpawn, params := [], ret := .int 1 }]

/-- Starting the thread may set `ready`, which is two calls away, and leaves `idle` alone. -/
theorem Survey.mayWrite_of_callee_relayed : ∃ s, Survey.ofProgram .relayed [] = .ok s ∧
    1 ∈ s.callees 5 ∧ s.mayWrite 8 0 = .ok true ∧ s.mayWrite 5 0 = .ok true ∧
      ¬Program.MayWrite .relayed s.callees 1 5 := by
  have read : (Survey.ofProgram .relayed []).toOption.map (fun s =>
      (s.callees 5, s.callees 6, s.mayWrite 8 0, s.mayWrite 5 1)) = some ([1], [2], .ok true, .ok false) := by
    have calls : CallGraph.ofProgram .relayed =
      .ok ⟨#[none, none, none, none, none, some 1, some 2, some 1, none]⟩ := rfl
    rw [Survey.ofProgram, calls]
    cbv
  obtain ⟨s, made, answers⟩ := Survey.exists_of_map_eq read
  obtain ⟨spawn, call, store, idle⟩ := by simpa only [Prod.mk.injEq] using answers
  have start : 1 ∈ s.callees 5 := by simp [spawn]
  have reached : Relation.ReflTransGen (Program.LeadsTo .relayed s.callees) 1 2 :=
    .single ⟨6, by decide, by simp [call]⟩
  obtain ⟨closed, -⟩ := mayWrite_of_callee (q := 0) made (by decide)
  obtain ⟨-, answered⟩ := mayWrite_of_callee (q := 1) made (by decide)
  refine ⟨s, made, start, store, ?_, fun writes => ?_⟩
  · rcases closed 5 1 start 2 reached 8 (by decide) store with written | ⟨e, -, astray⟩
    · exact written
    · exact absurd astray (Program.Linked.not_astray (by decide) e)
  · cases (answered 5 false idle).2 writes

end SsaFacts
