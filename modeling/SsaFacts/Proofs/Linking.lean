import SsaFacts.Proofs.Surveys

/-! Where all that a program names exists, its analyses do not run into a fault, so that it has a survey.
Offsets of pointers that leave the range of 64 bits are the one other fault. -/
namespace SsaFacts

/-! ### Computations that return -/

namespace Checked
variable {α β : Type}

/-- The computation does not run into a fault. -/
def Returns (x : Checked α) : Prop := ∃ a, x = .ok a

namespace Returns
variable {xs : List α}

protected theorem pure (a : α) : Returns (pure a) := ⟨a, rfl⟩

protected theorem bind {x : Checked α} {f : α → Checked β} (hx : Returns x)
    (hf : ∀ a, x = .ok a → Returns (f a)) : Returns (x >>= f) := by
  obtain ⟨a, ha⟩ := hx
  obtain ⟨b, hb⟩ := hf a ha
  exact ⟨b, bind_eq_ok.2 ⟨a, ha, hb⟩⟩

protected theorem ite {c : Prop} [Decidable c] {x y : Checked α} (hx : Returns x) (hy : Returns y) :
    Returns (if c then x else y) := by
  split <;> assumption

theorem stepwise : Stepwise (Except Fault) Returns := ⟨Returns.pure, fun hx hf => hx.bind fun a _ => hf a⟩

protected theorem mapM {f : α → Checked β} (h : ∀ a ∈ xs, Returns (f a)) : Returns (xs.mapM f) := stepwise.mapM h

protected theorem foldlM {f : β → α → Checked β} (h : ∀ b, ∀ a ∈ xs, Returns (f b a)) (b : β) :
    Returns (xs.foldlM f b) := stepwise.foldlM h b

protected theorem findSomeM? {f : α → Checked (Option β)} (h : ∀ a ∈ xs, Returns (f a)) :
    Returns (xs.findSomeM? f) := stepwise.findSomeM? h

protected theorem filterM {f : α → Checked Bool} (h : ∀ a ∈ xs, Returns (f a)) : Returns (xs.filterM f) :=
  stepwise.filterM h

end Returns

theorem getD_of_mapM {f : Nat → Checked α} {is : List Nat} {found : List (Nat × α)} {n : Nat} {d : α}
    (mapped : (is.mapM fun i => return (i, ← f i)) = .ok found) (i : Nat) :
    let entry := (found.foldl (fun table y => table.setIfInBounds y.1 y.2) (Array.replicate n d)).getD i d
    (i ∈ is ∧ i < n → f i = .ok entry) ∧ (¬(i ∈ is ∧ i < n) → entry = d) := by
  let listed (i : Nat) : α := (f i).toOption.getD d
  have each : List.Forall₂ (fun i y => f i = .ok (listed i) ∧ (i, listed i) = y) is found := by
    refine (forall₂_of_mapM_eq_ok mapped).imp fun i y step => ?_
    obtain ⟨a, ha, ⟨⟩⟩ := bind_eq_ok.1 step
    simp [listed, ha, Except.toOption]
  obtain ⟨ok, same⟩ := (List.forall₂_and_left ..).1 each
  rw [← List.forall₂_map_left_iff, List.forall₂_eq_eq_eq] at same
  subst same
  dsimp only
  rw [List.foldl_map, getD_foldl_set, Array.size_replicate]
  refine ⟨fun inside => ?_, fun outside => ?_⟩
  · rw [if_pos inside, ok i inside.1]
  · rw [if_neg outside, Array.getD_eq_getD_getElem?, Array.getElem?_replicate]
    split <;> rfl

theorem exists_of_findSomeM? {f : α → Checked (Option β)} {xs : List α} {b : β}
    (found : xs.findSomeM? f = .ok (some b)) : ∃ a ∈ xs, f a = .ok (some b) := by
  induction xs with
  | nil => cases found
  | cons a rest ih =>
    rw [List.findSomeM?_cons] at found
    obtain ⟨o, ho, found⟩ := bind_eq_ok.1 found
    cases o with
    | none =>
      obtain ⟨a', mem, ha'⟩ := ih found
      exact ⟨a', .tail _ mem, ha'⟩
    | some b' =>
      cases found
      exact ⟨a, List.mem_cons_self, ho⟩

end Checked

/-! ### Programs whose ids exist -/

def Terminator.condition? : Terminator → Option ValueId
  | .condBr cond _ _ | .switch cond _ _ => some cond
  | _ => none

namespace Kind

def operands : Kind → List ValueId
  | inst _ op => op.operands
  | _ => []

def sources : Kind → List BlockId
  | inst _ (.phi incoming) => incoming.map (·.1)
  | _ => []

def callees : Kind → List FuncId
  | function f | inst _ (.call (.direct f) _) => [f]
  | _ => []

end Kind

namespace Program
variable {p : Program} {v u : ValueId} {b : BlockId} {f : FuncId} {op : Op}

/-- All that is named exists. -/
@[mk_iff] structure Linked (p : Program) : Prop where
  operands : ∀ x ∈ p.values, ∀ u ∈ x.kind.operands, u < p.values.size
  sources : ∀ x ∈ p.values, ∀ b ∈ x.kind.sources, b < p.blocks.size
  callees : ∀ x ∈ p.values, ∀ f ∈ x.kind.callees, f < p.functions.size
  conditions : ∀ x ∈ p.blocks, ∀ c ∈ x.term.condition?, c < p.values.size
  chosen : ∀ f ∈ p.chosenEntry, f < p.functions.size

instance : Decidable p.Linked := decidable_of_iff _ (linked_iff p).symm

open Checked (Returns)

theorem returns_value (inside : v < p.values.size) : Returns (p.value v) :=
  ⟨_, value_eq_ok.2 (Array.getElem?_eq_getElem inside)⟩

theorem returns_block (inside : b < p.blocks.size) : Returns (p.block b) :=
  ⟨_, block_eq_ok.2 (Array.getElem?_eq_getElem inside)⟩

theorem returns_function (inside : f < p.functions.size) : Returns (p.function f) :=
  ⟨_, function_eq_ok.2 (Array.getElem?_eq_getElem inside)⟩

theorem returns_ty (inside : v < p.values.size) : Returns (p.ty v) :=
  (returns_value inside).bind fun _ _ => .pure _

theorem returns_kind (inside : v < p.values.size) : Returns (p.kind v) :=
  (returns_value inside).bind fun _ _ => .pure _

theorem returns_op? (inside : v < p.values.size) : Returns (p.op? v) :=
  (returns_kind inside).bind fun _ _ => .pure _

theorem returns_blockOf? (inside : v < p.values.size) : Returns (p.blockOf? v) :=
  (returns_kind inside).bind fun _ _ => .pure _

theorem returns_const? (inside : v < p.values.size) : Returns (p.const? v) :=
  (returns_kind inside).bind fun _ _ => .pure _

theorem exists_of_op? (found : p.op? v = .ok (some op)) :
    ∃ (x : Value) (b : BlockId), p.values[v]? = some x ∧ x.kind = .inst b op := by
  obtain ⟨k, kind, found⟩ := Checked.bind_eq_ok.1 found
  have named : k.op? = some op := Except.ok.inj found
  obtain ⟨x, hx, rfl⟩ := Option.map_eq_some_iff.1 (kind_eq_ok.1 kind)
  cases kind : x.kind with
  | inst b op' =>
    rw [kind] at named
    cases named
    exact ⟨x, b, hx, kind⟩
  | _ => simp [kind, Kind.op?] at named

theorem lt_of_op? (found : p.op? v = .ok (some op)) : v < p.values.size := by
  obtain ⟨x, b, hx, -⟩ := exists_of_op? found
  exact (Array.getElem?_eq_some_iff.1 hx).1

theorem mem_of_mem_leading {ops : List (ValueId × Option Op)} {incoming : List (BlockId × ValueId)}
    (mem : (v, incoming) ∈ phis.leading ops) : (v, some (.phi incoming)) ∈ ops := by
  fun_induction phis.leading ops with
  | case1 i incoming' rest ih =>
    rcases List.mem_cons.1 mem with same | mem
    · cases same
      exact List.mem_cons_self
    · exact .tail _ (ih mem)
  | case2 => cases mem

theorem op?_of_mem_phis {all : List (ValueId × List (BlockId × ValueId))} {incoming : List (BlockId × ValueId)}
    (found : p.phis b = .ok all) (mem : (v, incoming) ∈ all) : p.op? v = .ok (some (.phi incoming)) := by
  obtain ⟨x, -, found⟩ := Checked.bind_eq_ok.1 found
  obtain ⟨ops, mapped, ⟨⟩⟩ := Checked.bind_eq_ok.1 found
  have each : Gives (x.insts.mapM fun i => return (i, ← p.op? i)) fun ops => ∀ y ∈ ops, p.op? y.1 = .ok y.2 :=
    Gives.mapM fun i _ => Gives.bind (P := fun o => p.op? i = .ok o) (fun _ same => same) fun o same => .pure same
  exact each ops mapped _ (mem_of_mem_leading mem)

theorem returns_phis (regular : p.Regular) (inside : b < p.blocks.size) : Returns (p.phis b) := by
  refine (returns_block inside).bind fun x hx => ?_
  refine (Returns.mapM fun i hi => ?_).bind fun _ _ => .pure _
  obtain ⟨v, -, hv, -⟩ := regular.placed b x (block_eq_ok.1 hx) i hi
  exact (returns_op? (Array.getElem?_eq_some_iff.1 hv).1).bind fun _ _ => .pure _

namespace Linked

theorem operand_lt (linked : p.Linked) (found : p.op? v = .ok (some op)) (mem : u ∈ op.operands) :
    u < p.values.size := by
  obtain ⟨x, b, hx, kind⟩ := exists_of_op? found
  exact linked.operands x (Array.mem_of_getElem? hx) u (by rwa [kind])

theorem source_lt (linked : p.Linked) {incoming : List (BlockId × ValueId)} {edge : BlockId × ValueId}
    (found : p.op? v = .ok (some (.phi incoming))) (mem : edge ∈ incoming) : edge.1 < p.blocks.size := by
  obtain ⟨x, b, hx, kind⟩ := exists_of_op? found
  refine linked.sources x (Array.mem_of_getElem? hx) edge.1 ?_
  rw [kind]
  exact List.mem_map_of_mem mem

theorem callee_lt (linked : p.Linked) {args : List ValueId}
    (found : p.op? v = .ok (some (.call (.direct f) args))) : f < p.functions.size := by
  obtain ⟨x, b, hx, kind⟩ := exists_of_op? found
  refine linked.callees x (Array.mem_of_getElem? hx) f ?_
  rw [kind]
  exact List.mem_singleton_self f

theorem condition_lt (linked : p.Linked) {x : Block} (found : p.block b = .ok x)
    (cond : x.term.condition? = some v) : v < p.values.size :=
  linked.conditions x (Array.mem_of_getElem? (block_eq_ok.1 found)) v cond

theorem entryFunction?_lt (linked : p.Linked) (start : p.entryFunction? = some f) : f < p.functions.size := by
  unfold entryFunction? at start
  split at start
  case h_1 chosen =>
    cases start
    exact linked.chosen f chosen
  case h_2 => exact (Array.findIdx?_eq_some_iff_getElem.1 start).1

end Linked
end Program

/-! ### Loops -/

namespace LoopForest
open Checked (Returns)
variable {p : Program} {g : FlowGraph} {l : Loop} {v next n : ValueId} {b source dest : BlockId} {f : FuncId}

theorem mem_of_splitIncoming? {incoming : List (BlockId × ValueId)} {outer inner : BlockId × ValueId}
    (split : l.splitIncoming? incoming = some (outer, inner)) : outer ∈ incoming ∧ inner ∈ incoming := by
  unfold Loop.splitIncoming? at split
  split at split
  case h_1 a b =>
    split at split <;> cases split <;> simp
  case h_2 => cases split

theorem op?_of_induction? (found : induction? p l = .ok (some v)) :
    ∃ incoming, p.op? v = .ok (some (.phi incoming)) := by
  obtain ⟨phis, listed, found⟩ := Checked.bind_eq_ok.1 found
  obtain ⟨⟨phi, incoming⟩, mem, found⟩ := Checked.exists_of_findSomeM? found
  refine ⟨incoming, Program.op?_of_mem_phis listed (?_ : (v, incoming) ∈ phis)⟩
  dsimp only at found
  split at found
  case h_1 => cases found
  case h_2 =>
    obtain ⟨c, -, found⟩ := Checked.bind_eq_ok.1 found
    split at found
    · obtain ⟨increments, -, found⟩ := Checked.bind_eq_ok.1 found
      split at found <;> cases found
      exact mem
    · cases found

section
variable (linked : p.Linked)
include linked

theorem returns_isIncrement (inside : next < p.values.size) : Returns (isIncrement p next v) := by
  refine (Program.returns_op? inside).bind fun op found => ?_
  split
  case h_1 l r =>
    have left := Program.returns_const? (linked.operand_lt found (u := l) (by simp [Op.operands]))
    have right := Program.returns_const? (linked.operand_lt found (u := r) (by simp [Op.operands]))
    have swapped : Returns (if r = v then do return decide ((← p.const? l) = some 1) else pure false) :=
      .ite (left.bind fun _ _ => .pure _) (.pure _)
    exact .ite (right.bind fun _ _ => .ite (.pure _) swapped) swapped
  case h_2 => exact .pure _

theorem returns_induction? (regular : p.Regular) (inside : l.header < p.blocks.size) : Returns (induction? p l) := by
  refine (Program.returns_phis regular inside).bind fun phis found => Returns.findSomeM? fun phi mem => ?_
  obtain ⟨v, incoming⟩ := phi
  have isPhi := Program.op?_of_mem_phis found mem
  dsimp only
  split
  case h_1 => exact .pure _
  case h_2 outer init inner next split =>
    obtain ⟨first, second⟩ := mem_of_splitIncoming? split
    have lt {edge : BlockId × ValueId} (mem : edge ∈ incoming) : edge.2 < p.values.size :=
      linked.operand_lt isPhi (List.mem_map_of_mem mem)
    refine (Program.returns_const? (lt first)).bind fun _ _ => .ite ?_ (.pure _)
    exact (returns_isIncrement linked (lt second)).bind fun _ _ => .ite (.pure _) (.pure _)

theorem returns_edgeShowsPositive (inside : source < p.blocks.size) :
    Returns (edgeShowsPositive p source dest n) := by
  refine (Program.returns_block inside).bind fun x found => ?_
  split
  case h_1 cond t f term =>
    refine .ite (.pure _) ?_
    refine (Program.returns_op? (linked.condition_lt found (v := cond) (by rw [term]; rfl))).bind fun op test => ?_
    split
    case h_1 pred a b =>
      have atLeast {u : ValueId} (mem : u ∈ [a, b]) (k : Int) :
          Returns (do return (← p.const? u).any (k ≤ ·)) :=
        (Program.returns_const? (linked.operand_lt test mem)).bind fun _ _ => .pure _
      dsimp only
      split
      case h_5 => exact .pure _
      all_goals exact .ite (atLeast (by simp) _) (.pure _)
    case h_2 => exact .pure _
  case h_2 => exact .pure _

section
variable (confined : p.Confined) (shows_p : g.Shows p)
include confined shows_p

theorem returns_dominatorShowsPositive (steps : Nat) (b : BlockId) :
    Returns (dominatorShowsPositive p g (.ofProgram p g) n steps b) := by
  induction steps generalizing b with
  | zero => exact .pure _
  | succ steps ih =>
    unfold dominatorShowsPositive
    split
    case h_1 => exact .pure _
    case h_2 up parent =>
      have inside := Dominators.idom?_lt confined shows_p parent
      exact .ite ((returns_edgeShowsPositive linked inside).bind fun _ _ => .ite (.pure _) (ih up)) (ih up)

theorem returns_positiveOnEntry (inside : source < p.blocks.size) (value : n < p.values.size) :
    Returns (positiveOnEntry p g (.ofProgram p g) source dest n) := by
  refine (Program.returns_const? value).bind fun _ _ => .ite (.pure _) ?_
  refine (returns_edgeShowsPositive linked inside).bind fun _ _ => .ite (.pure _) ?_
  exact returns_dominatorShowsPositive linked confined shows_p _ _

theorem returns_tripCount? (inside : v < p.values.size) : Returns (tripCount? p g (.ofProgram p g) l v) := by
  refine (Program.returns_op? inside).bind fun op isPhi => ?_
  split
  case h_1 incoming =>
    split
    case h_1 preheader init latch next split =>
      obtain ⟨outer, inner⟩ := mem_of_splitIncoming? split
      refine (Program.returns_block (linked.source_lt isPhi inner)).bind fun x found => ?_
      split
      case h_1 cond t f term =>
        refine (Program.returns_op? (linked.condition_lt found (v := cond) (by rw [term]; rfl))).bind fun op test => ?_
        split
        case h_1 pred a b =>
          split
          case h_1 n bound =>
            have value : n < p.values.size := by
              refine linked.operand_lt test (?_ : n ∈ [a, b])
              grind
            have entry : Returns (positiveOnEntry p g (.ofProgram p g) preheader l.header n) :=
              returns_positiveOnEntry linked confined shows_p (linked.source_lt isPhi outer) value
            refine (Program.returns_blockOf? value).bind fun _ _ => .ite ?_ (.pure _)
            exact entry.bind fun _ _ => .ite (.pure _) (.pure _)
          case h_2 => exact .pure _
        case h_2 => exact .pure _
      case h_2 => exact .pure _
    case h_2 => exact .pure _
  case h_2 => exact .pure _

theorem returns_ofFunction (regular : p.Regular) (base : Nat) (f : FuncId) :
    Returns (ofFunction p g (.ofProgram p g) (g.reached p) base f) := by
  refine Returns.mapM fun l hl => ?_
  have inside : l.header < p.blocks.size := by
    obtain ⟨x, hx, extent⟩ := List.mem_map.1 (map_extentOf_nest ▸ List.mem_map_of_mem (f := extentOf) hl)
    obtain ⟨h, mem, rfl⟩ := List.mem_map.1 (List.mem_mergeSort.1 hx)
    obtain ⟨⟨h, latch⟩, edge, rfl⟩ := List.mem_map.1 (List.mem_eraseDups.1 mem)
    obtain ⟨-, -, edge, -⟩ := mem_backEdges.1 edge
    have header : h = l.header := congrArg (·.2.1) extent
    exact header ▸ shows_p.size_eq ▸ (shows_p.edge_lt confined ((shows_p.mem_next _ _).1 edge)).2
  refine (returns_induction? linked regular inside).bind fun o found => ?_
  split
  case h_1 => exact .pure _
  case h_2 v =>
    obtain ⟨incoming, isPhi⟩ := op?_of_induction? found
    obtain ⟨x, b, hx, -⟩ := Program.exists_of_op? isPhi
    have value := (Array.getElem?_eq_some_iff.1 hx).1
    exact (returns_tripCount? linked confined shows_p value).bind fun _ _ => .pure _

theorem returns_ofProgram (regular : p.Regular) :
    Returns (LoopForest.ofProgram p g (.ofProgram p g) (g.reached p)) := by
  refine Returns.bind (Returns.foldlM (fun loops f _ => ?_) _) fun _ _ => .pure _
  exact (returns_ofFunction linked confined shows_p regular _ f).bind fun _ _ => .pure _

end
end
end LoopForest

/-! ### Calls, execution counts and memory -/

namespace Program
open Checked (Returns)
variable {p : Program} {i u : ValueId} {f : FuncId} {args : List ValueId}

theorem Regular.instruction_lt (regular : p.Regular) (mem : i ∈ p.instructions) : i < p.values.size := by
  obtain ⟨f, mem⟩ := mem_instructions.1 mem
  obtain ⟨b, -, mem⟩ := mem_bodyOf.1 mem
  obtain ⟨x, hx, mem⟩ := mem_instsOf.1 mem
  obtain ⟨v, -, hv, -⟩ := regular.placed b x hx i mem
  exact (Array.getElem?_eq_some_iff.1 hv).1

theorem Regular.blockOf? (regular : p.Regular) {b : BlockId} (hi : i ∈ p.instsOf b) :
    p.blockOf? i = .ok (some b) := by
  obtain ⟨x, hx, mem⟩ := mem_instsOf.1 hi
  obtain ⟨v, op, hv, kind⟩ := regular.placed b x hx i mem
  simp [Program.blockOf?, Program.kind, value_eq_ok.2 hv, kind, Kind.block?]

theorem returns_callTarget? (inside : i < p.values.size) : Returns (p.callTarget? i) := by
  refine (returns_op? inside).bind fun op _ => ?_
  split <;> exact .pure _

theorem returns_callArgs (inside : i < p.values.size) : Returns (p.callArgs i) := by
  refine (returns_op? inside).bind fun op _ => ?_
  split <;> exact .pure _

namespace Linked

theorem callTarget?_lt (linked : p.Linked) (found : p.callTarget? i = .ok (some f)) : f < p.functions.size := by
  obtain ⟨op, hop, found⟩ := Checked.bind_eq_ok.1 found
  split at found <;> cases found
  exact linked.callee_lt hop

theorem arg_lt (linked : p.Linked) (found : p.callArgs i = .ok args) (mem : u ∈ args) : u < p.values.size := by
  obtain ⟨op, hop, found⟩ := Checked.bind_eq_ok.1 found
  split at found <;> cases found
  case h_1 callee =>
    refine linked.operand_lt hop ?_
    cases callee with
    | direct => exact mem
    | indirect => exact List.mem_append_left _ mem
  case h_2 => cases mem

theorem returns_calleeName? (linked : p.Linked) (inside : i < p.values.size) : Returns (p.calleeName? i) := by
  refine (returns_callTarget? inside).bind fun o found => ?_
  split
  · exact (returns_function (linked.callTarget?_lt found)).bind fun _ _ => .pure _
  · exact .pure _

theorem returns_spawned? (linked : p.Linked) (inside : i < p.values.size) : Returns (p.spawned? i) := by
  refine (linked.returns_calleeName? inside).bind fun name _ => .ite (.pure _) ?_
  refine (returns_callArgs inside).bind fun args found => ?_
  split
  · exact .pure _
  case h_2 start third =>
    refine (returns_kind (linked.arg_lt found (List.mem_of_getElem? third))).bind fun k _ => ?_
    split <;> exact .pure _

theorem spawned?_lt (linked : p.Linked) (found : p.spawned? i = .ok (some f)) : f < p.functions.size := by
  obtain ⟨name, -, found⟩ := Checked.bind_eq_ok.1 found
  split at found
  · cases found
  obtain ⟨args, -, found⟩ := Checked.bind_eq_ok.1 found
  split at found
  · cases found
  obtain ⟨k, kind, found⟩ := Checked.bind_eq_ok.1 found
  split at found <;> cases found
  obtain ⟨x, hx, isAddress⟩ := Option.map_eq_some_iff.1 (kind_eq_ok.1 kind)
  refine linked.callees x (Array.mem_of_getElem? hx) f ?_
  rw [isAddress]
  exact List.mem_singleton_self f

end Linked
end Program

/-- The offsets of all pointers stay within the range of signed 64-bit numbers. -/
def Program.Located (p : Program) : Prop := ∀ v ∈ p.valueIds, Checked.Returns (Location.ofValue p v)

section
open Checked (Returns)
variable {p : Program} {i : ValueId}

theorem CallGraph.returns_ofProgram (linked : p.Linked) (regular : p.Regular) :
    Returns (CallGraph.ofProgram p) := by
  refine Returns.bind (Returns.mapM fun i mem => ?_) fun _ _ => .pure _
  have inside := regular.instruction_lt mem
  have defined {f : FuncId} (exist : f < p.functions.size) :
      Returns (do return if (← p.function f).isDeclaration then none else some f) :=
    (Program.returns_function exist).bind fun _ _ => .pure _
  have target : Returns (target? p i) := by
    refine (linked.returns_spawned? inside).bind fun o spawned => ?_
    cases o with
    | some f => exact defined (linked.spawned?_lt spawned)
    | none =>
      refine (Program.returns_callTarget? inside).bind fun o found => ?_
      cases o with
      | none => exact .pure _
      | some f => exact defined (linked.callTarget?_lt found)
  exact target.bind fun _ _ => .pure _

theorem Execution.returns_ofSetting {s : Execution.Setting} (regular : s.program.Regular) :
    Returns (Execution.ofSetting s) := by
  have home {i : ValueId} {b : BlockId} (mem : i ∈ s.program.instructions)
      (found : s.program.blockOf? i = .ok (some b)) : b < s.program.blocks.size := by
    obtain ⟨f, mem⟩ := Program.mem_instructions.1 mem
    obtain ⟨b', -, mem⟩ := Program.mem_bodyOf.1 mem
    cases found.symm.trans (regular.blockOf? mem)
    obtain ⟨x, hx, -⟩ := Program.mem_instsOf.1 mem
    exact (Array.getElem?_eq_some_iff.1 hx).1
  have runs (once : List FuncId) (f : FuncId) : Returns (runsOnce s once f) := by
    refine .ite (.pure _) ?_
    split
    case h_1 site only =>
      have mem : site ∈ s.program.instructions :=
        List.mem_of_mem_filter (only ▸ List.mem_singleton_self site : site ∈ s.calls.sites s.program f)
      refine (Program.returns_blockOf? (regular.instruction_lt mem)).bind fun o found => ?_
      split
      case h_1 b => exact (Program.returns_block (home mem found)).bind fun _ _ => .pure _
      case h_2 => exact .pure _
    case h_2 => exact .pure _
  have extends_ (once : List FuncId) : Returns (extend s once) :=
    Returns.foldlM (fun once f _ => .ite (.pure _) ((runs once f).bind fun _ _ => .pure _)) once
  have saturates (rounds : Nat) (once : List FuncId) : Returns (saturate s rounds once) := by
    induction rounds generalizing once with
    | zero => exact .pure _
    | succ rounds ih => exact (extends_ once).bind fun once' _ => ih once'
  exact (saturates _ _).bind fun _ _ => .pure _

theorem Writes.returns_ofInst (linked : p.Linked) (inside : i < p.values.size) : Returns (Writes.ofInst p i) := by
  refine (Program.returns_op? inside).bind fun op found => ?_
  split
  case h_3 f args =>
    refine (Program.returns_function (linked.callee_lt found)).bind fun fn _ => .ite ?_ (.pure _)
    refine Returns.bind (Returns.filterM fun a mem => ?_) fun _ _ => .pure _
    exact (Program.returns_ty (linked.operand_lt found mem)).bind fun _ _ => .pure _
  all_goals exact .pure _

theorem Memory.returns_ofProgram (linked : p.Linked) (regular : p.Regular) (located : p.Located)
    (calls : CallGraph) : Returns (Memory.ofProgram p calls) := by
  refine (Returns.mapM located).bind fun _ _ => ?_
  refine Returns.bind (Returns.mapM fun i mem => ?_) fun _ _ => .pure _
  exact (Writes.returns_ofInst linked (regular.instruction_lt mem)).bind fun _ _ => .pure _

/-- A program whose functions do not branch into each other, where all that is named exists and the offsets of
pointers stay within range, has a survey. -/
theorem Survey.returns_ofProgram (regular : p.Regular) (confined : p.Confined) (linked : p.Linked)
    (located : p.Located) (marked : List BlockId) : Returns (Survey.ofProgram p marked) := by
  obtain ⟨g, made, shows_p⟩ := FlowGraph.ofProgram_ok confined
  refine Returns.bind ⟨g, made⟩ fun g' made' => ?_
  cases made.symm.trans made'
  refine (LoopForest.returns_ofProgram linked confined shows_p regular).bind fun forest _ => ?_
  refine (CallGraph.returns_ofProgram linked regular).bind fun calls _ => ?_
  refine Returns.bind ?_ fun _ _ => ?_
  · cases start : p.entryFunction? with
    | none => exact .pure _
    | some f =>
      obtain ⟨fn, hf⟩ := Program.returns_function (linked.entryFunction?_lt start)
      exact ⟨⟨⟩, by simp only [Option.toList_some, List.forIn_cons, List.forIn_nil, hf]; rfl⟩
  refine (Execution.returns_ofSetting regular).bind fun _ _ => ?_
  exact (Memory.returns_ofProgram linked regular located calls).bind fun _ _ => .pure _

end
end SsaFacts
