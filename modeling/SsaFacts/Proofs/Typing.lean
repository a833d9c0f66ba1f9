import SsaFacts.Proofs.Activations
import SsaFacts.Proofs.Stated

/-! Well-typed programs. What an operator, a comparison or a φ joins has one type, and so does what is passed
for a parameter, whether the function is called or started as a thread. Model widths follow types, so values
that are joined agree in width. -/
namespace SsaFacts

def Kind.indexIn? (f : FuncId) : Kind → Option Nat
  | param g index => if g = f then some index else none
  | _ => none

theorem Kind.indexIn?_eq_some {f : FuncId} {k : Kind} {index : Nat} :
    k.indexIn? f = some index ↔ k = .param f index := by
  cases k <;> simp [indexIn?]

namespace Program

def ty? (p : Program) (v : ValueId) : Option Ty := p.values[v]?.map (·.ty)

/-- What stands at the position of a parameter of `f` has the type of the parameter. -/
def Suits (p : Program) (f : FuncId) (actual? : Nat → Option ValueId) : Prop :=
  ∀ formal ∈ p.valueIds, ∀ index ∈ (p.kind? formal).bind (Kind.indexIn? f),
    ∀ a ∈ actual? index, p.ty? a = p.ty? formal

instance decidableSuits (p : Program) (f : FuncId) (actual? : Nat → Option ValueId) :
    Decidable (p.Suits f actual?) := by
  unfold Suits
  infer_instance

end Program

/-- The operands of instruction `v` have the types that go with its own. A comparison gives a bit, and an
address computation or an allocation on the stack gives a pointer. A thread gets its one argument at
position 3. -/
def Op.WellTyped (p : Program) (v : ValueId) : Op → Prop
  | binary _ l r | select _ l r => p.ty? l = p.ty? v ∧ p.ty? r = p.ty? v
  | icmp _ l r => p.ty? l = p.ty? r ∧ p.ty? v = some (.int 1)
  | gep base _ => p.ty? base = some .ptr ∧ p.ty? v = some .ptr
  | phi incoming => ∀ edge ∈ incoming, p.ty? edge.2 = p.ty? v
  | alloca _ => p.ty? v = some .ptr
  | call (.direct f) args => p.Suits f (args[·]?) ∧
      ∀ g ∈ p.threadStart? f args, p.Suits g fun index => if index = 0 then args[3]? else none
  | call (.indirect _) _ | cast .. | load _ | store .. => True

instance Op.decidableWellTyped (p : Program) (v : ValueId) (op : Op) : Decidable (op.WellTyped p v) := by
  cases op with
  | call callee args => cases callee <;> unfold WellTyped <;> infer_instance
  | _ => unfold WellTyped; infer_instance

/-- The cases of a switch have the type of its condition. -/
def Terminator.WellTyped (p : Program) : Terminator → Prop
  | switch cond _ cases => ∀ c ∈ cases, p.ty? c.1 = p.ty? cond
  | _ => True

instance Terminator.decidableWellTyped (p : Program) (t : Terminator) : Decidable (t.WellTyped p) := by
  cases t <;> unfold WellTyped <;> infer_instance

def Routine.allocators : List String := ["malloc", "valloc", "calloc"]

namespace Program
variable {p : Program} {v u : ValueId} {op : Op}

/-- Every instruction and every terminator is well typed. -/
@[mk_iff] structure WellTyped (p : Program) : Prop where
  instructions : ∀ v ∈ p.valueIds, ∀ op ∈ (p.kind? v).bind Kind.op?, op.WellTyped p v
  terminators : ∀ x ∈ p.blocks, x.term.WellTyped p

instance decidableWellTyped (p : Program) : Decidable p.WellTyped := decidable_of_iff _ (wellTyped_iff p).symm

def AllocatesWords (p : Program) : Prop :=
  ∀ v ∈ p.valueIds, ∀ name ∈ Routine.allocators, p.calleeName? v = .ok (some name) → p.modelWidth v = wordWidth

instance decidableAllocatesWords (p : Program) : Decidable p.AllocatesWords := by
  unfold AllocatesWords
  infer_instance

theorem modelWidth_of_ty? {t : Ty} (h : p.ty? v = some t) : p.modelWidth v = t.modelWidth := by
  obtain ⟨x, hx, rfl⟩ := Option.map_eq_some_iff.1 h
  simp [modelWidth, hx]

theorem modelWidth_congr (h : p.ty? u = p.ty? v) : p.modelWidth u = p.modelWidth v := by
  unfold ty? at h
  unfold modelWidth
  cases hu : p.values[u]? <;> cases hv : p.values[v]? <;> simp_all

namespace WellTyped

theorem of_op? (typed : p.WellTyped) (found : p.op? v = .ok (some op)) : op.WellTyped p v := by
  obtain ⟨x, b, hx, kind⟩ := exists_of_op? found
  refine typed.instructions v (by simpa [valueIds] using lt_of_op? found) op ?_
  simp [kind?, hx, kind, Kind.op?]

theorem of_block (typed : p.WellTyped) {b : BlockId} {x : Block} (found : p.block b = .ok x) :
    x.term.WellTyped p :=
  typed.terminators x (Array.mem_of_getElem? (block_eq_ok.1 found))

end WellTyped

theorem Suits.ty?_eq {f : FuncId} {actual? : Nat → Option ValueId} {index : Nat} {formal a : ValueId}
    (suits : p.Suits f actual?) (isParam : p.kind formal = .ok (.param f index))
    (passed : actual? index = some a) : p.ty? a = p.ty? formal := by
  have kind := kind_eq_ok.1 isParam
  obtain ⟨x, hx, -⟩ := Option.map_eq_some_iff.1 kind
  have mem : formal ∈ p.valueIds := by simpa [valueIds] using (Array.getElem?_eq_some_iff.1 hx).1
  refine suits formal mem index ?_ a passed
  rw [kind]
  exact Kind.indexIn?_eq_some.2 rfl

/-! ### What is passed to a parameter -/

/-- A spawn names a routine that starts threads, and the function that the thread runs. -/
theorem threadStart?_of_spawned? {g : FuncId} (found : p.spawned? v = .ok (some g)) :
    ∃ f args, p.op? v = .ok (some (.call (.direct f) args)) ∧ p.threadStart? f args = some g := by
  obtain ⟨name, named, found⟩ := Checked.bind_eq_ok.1 found
  split at found
  case isTrue => cases found
  case isFalse spawns =>
    obtain rfl := not_not.1 spawns
    obtain ⟨target, hit, named⟩ := Checked.bind_eq_ok.1 named
    obtain ⟨args, passed, found⟩ := Checked.bind_eq_ok.1 found
    obtain ⟨op, isOp, hit⟩ := Checked.bind_eq_ok.1 hit
    split at hit
    case h_2 =>
      cases hit
      cases named
    case h_1 f args' =>
      cases hit
      obtain ⟨fn, hf, name⟩ := Checked.bind_eq_ok.1 named
      have spawner : p.functions[f]?.map (·.name) = some Routine.threadSpawn := by
        rw [function_eq_ok.1 hf]
        exact congrArg some (Option.some.inj (Except.ok.inj name))
      obtain rfl : args' = args := by simpa [callArgs, isOp] using passed
      refine ⟨f, args', isOp, ?_⟩
      split at found
      case h_1 => cases found
      case h_2 start third =>
        obtain ⟨k, kind, found⟩ := Checked.bind_eq_ok.1 found
        split at found
        case h_1 g' =>
          cases found
          exact threadStart?_eq_some.2 ⟨spawner, start, third, kind_eq_ok.1 kind⟩
        case h_2 => cases found

end Program

namespace CallGraph
variable {p : Program} {calls : CallGraph} {i : ValueId} {f : FuncId}

theorem target?_of_target (made : CallGraph.ofProgram p = .ok calls) (listed : calls.target i = some f) :
    target? p i = .ok (some f) := by
  obtain ⟨found, mapped, ⟨⟩⟩ := Checked.bind_eq_ok.1 made
  obtain ⟨inside, outside⟩ := Checked.getD_of_mapM (n := p.values.size) (d := none) mapped i
  by_cases h : i ∈ p.instructions ∧ i < p.values.size
  · exact (inside h).trans (congrArg _ listed)
  · cases (outside h).symm.trans listed

end CallGraph

theorem Survey.target?_of_mem_callSites {p : Program} {marked : List BlockId} {s : Survey} {f : FuncId}
    {site : ValueId} (made : Survey.ofProgram p marked = .ok s) (mem : site ∈ s.callSites f) :
    CallGraph.target? p site = .ok (some f) := by
  obtain ⟨calls, memory, shared⟩ := Survey.exists_memory made
  have listed := (List.mem_filter.1 (shared.mem_sites f site mem)).2
  exact CallGraph.target?_of_target shared.calls_eq (of_decide_eq_true listed)

/-- What a call or the start of a thread passes for a parameter has the parameter's type. -/
theorem Program.WellTyped.ty?_of_actual? {p : Program} (typed : p.WellTyped) {f : FuncId} {site formal a : ValueId}
    {index : Nat} (starts : CallGraph.target? p site = .ok (some f))
    (isParam : p.kind formal = .ok (.param f index)) (passed : p.actual? site index = .ok (some a)) :
    p.ty? a = p.ty? formal := by
  obtain ⟨named, origin, ⟨-, ⟨⟩⟩ | ⟨g, fn, rfl, -, result⟩⟩ := CallGraph.target?_inv starts
  obtain rfl : f = g := by
    split at result <;> simp_all
  obtain ⟨args, hargs, passed⟩ := Checked.bind_eq_ok.1 passed
  obtain ⟨spawned, hspawned, passed⟩ := Checked.bind_eq_ok.1 passed
  rcases origin with ⟨spawns, -⟩ | ⟨plain, target⟩
  · obtain ⟨callee, args', isCall, entry⟩ := threadStart?_of_spawned? spawns
    obtain rfl : args' = args := by simpa [callArgs, isCall] using hargs
    cases spawns.symm.trans hspawned
    refine ((typed.of_op? isCall).2 f entry).ty?_eq isParam ?_
    exact Except.ok.inj passed
  · cases plain.symm.trans hspawned
    obtain ⟨op, isOp, target⟩ := Checked.bind_eq_ok.1 target
    split at target
    case h_2 => cases target
    case h_1 callee args' =>
      cases target
      obtain rfl : args' = args := by simpa [callArgs, isOp] using hargs
      exact (typed.of_op? isOp).1.ty?_eq isParam (Except.ok.inj passed)

end SsaFacts
