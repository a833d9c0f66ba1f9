import SsaFacts.Proofs.ExecutionCounts

/-! Runs of a whole program as pools of activations. A function that is said to run at most once is activated
at most once in every run, provided that the entry function is not recursive and no call is on a cycle
without a dominating block. -/
namespace SsaFacts

namespace Program
variable {p : Program} {f g : FuncId} {b : BlockId} {i : ValueId}

def isCall (p : Program) (i : ValueId) : Bool :=
  match p.kind? i with
  | some (.inst _ (.call ..)) => true
  | _ => false

def threadStart? (p : Program) (f : FuncId) (args : List ValueId) : Option FuncId :=
  if p.functions[f]?.map (·.name) = some Routine.threadSpawn then
    match args[2]?.bind p.kind? with
    | some (.function g) => some g
    | _ => none
  else none

/-- The function that a call starts, for a thread start the one that the thread runs. A call through a
pointer and a thread that starts at an unknown address are not known to start any. -/
def started? (p : Program) (i : ValueId) : Option FuncId :=
  match p.kind? i with
  | some (.inst _ (.call (.direct f) args)) =>
    if p.functions[f]?.map (·.name) = some Routine.threadSpawn then p.threadStart? f args else some f
  | _ => none

def Calls (p : Program) (f g : FuncId) : Prop := ∃ i ∈ p.bodyOf f, p.started? i = some g

theorem threadStart?_eq_some {args : List ValueId} : p.threadStart? f args = some g ↔
    p.functions[f]?.map (·.name) = some Routine.threadSpawn ∧
      ∃ start, args[2]? = some start ∧ p.kind? start = some (.function g) := by
  unfold threadStart?
  rw [← Option.bind_eq_some_iff]
  split
  · rename_i spawn
    split <;> simp_all
  · rename_i plain
    simp [plain]

theorem started?_eq_some (h : p.started? i = some f) :
    ∃ b g args, p.kind? i = some (.inst b (.call (.direct g) args)) ∧
      (p.functions[g]?.map (·.name) = some Routine.threadSpawn ∧
          (∃ start, args[2]? = some start ∧ p.kind? start = some (.function f)) ∨
        p.functions[g]?.map (·.name) ≠ some Routine.threadSpawn ∧ f = g) := by
  unfold started? at h
  split at h
  case h_1 b g args kind =>
    refine ⟨b, g, args, kind, ?_⟩
    split at h
    case isTrue => exact .inl (threadStart?_eq_some.1 h)
    case isFalse plain => exact .inr ⟨plain, (Option.some.inj h).symm⟩
  case h_2 => cases h

theorem started?_eq_none (plain : p.isCall i = false) : p.started? i = none := by
  unfold isCall at plain
  unfold started?
  split <;> simp_all

end Program

namespace CallGraph
variable {p : Program} {calls : CallGraph} {f : FuncId} {i : ValueId} {t : Option FuncId}

theorem target?_inv (found : target? p i = .ok t) :
    ∃ named, (p.spawned? i = .ok named ∧ named ≠ none ∨ p.spawned? i = .ok none ∧ p.callTarget? i = .ok named) ∧
      (named = none ∧ t = none ∨ ∃ f fn, named = some f ∧ p.functions[f]? = some fn ∧
        t = if fn.isDeclaration then none else some f) := by
  have defined {f : FuncId}
      (found : (do return if (← p.function f).isDeclaration then none else some f) = Except.ok t) :
      ∃ fn, p.functions[f]? = some fn ∧ t = if fn.isDeclaration then none else some f := by
    obtain ⟨fn, hf, ⟨⟩⟩ := Checked.bind_eq_ok.1 found
    exact ⟨fn, Program.function_eq_ok.1 hf, rfl⟩
  obtain ⟨o, spawned, found⟩ := Checked.bind_eq_ok.1 found
  cases o with
  | some f =>
    obtain ⟨fn, result⟩ := defined found
    exact ⟨some f, .inl ⟨spawned, by simp⟩, .inr ⟨f, fn, rfl, result⟩⟩
  | none =>
    obtain ⟨named, target, found⟩ := Checked.bind_eq_ok.1 found
    refine ⟨named, .inr ⟨spawned, target⟩, ?_⟩
    cases named with
    | none =>
      cases found
      exact .inl ⟨rfl, rfl⟩
    | some f =>
      obtain ⟨fn, result⟩ := defined found
      exact .inr ⟨f, fn, rfl, result⟩

/-- The target that is found for a call is the function that it starts, if that one is defined. -/
theorem target?_eq (found : target? p i = .ok t) (starts : p.started? i = some f) :
    ∃ fn, p.functions[f]? = some fn ∧ t = if fn.isDeclaration then none else some f := by
  obtain ⟨b, g, args, kind, which⟩ := Program.started?_eq_some starts
  obtain ⟨named, origin, result⟩ := target?_inv found
  have op : p.op? i = .ok (some (.call (.direct g) args)) := by
    rw [Program.op?, Program.kind_eq_ok.2 kind]
    rfl
  have target : p.callTarget? i = .ok (some g) := by simp [Program.callTarget?, op]
  have callArgs : p.callArgs i = .ok args := by simp [Program.callArgs, op]
  -- The call names a function that exists, or the search for its target would have failed.
  obtain ⟨fn, hg⟩ : ∃ fn, p.function g = .ok fn := by
    obtain ⟨o, spawned⟩ : ∃ o, p.spawned? i = .ok o := origin.elim (fun h => ⟨_, h.1⟩) fun h => ⟨_, h.1⟩
    obtain ⟨name, named, -⟩ := Checked.bind_eq_ok.1 spawned
    rw [Program.calleeName?, target, Checked.ok_bind] at named
    obtain ⟨fn, hg, -⟩ := Checked.bind_eq_ok.1 named
    exact ⟨fn, hg⟩
  have name : p.calleeName? i = .ok (some fn.name) := by simp [Program.calleeName?, target, hg]
  have same : named = some f := by
    rw [Program.function_eq_ok.1 hg, Option.map_some, ne_eq, Option.some_inj] at which
    rcases which with ⟨spawn, start, third, address⟩ | ⟨plain, rfl⟩
    · have spawned : p.spawned? i = .ok (some f) := by
        simp [Program.spawned?, name, spawn, callArgs, third, Program.kind_eq_ok.2 address]
      rw [spawned] at origin
      rcases origin with ⟨⟨⟩, -⟩ | ⟨⟨⟩, -⟩
      rfl
    · have spawned : p.spawned? i = .ok none := by simp [Program.spawned?, name, plain]
      rw [spawned, target] at origin
      rcases origin with ⟨⟨⟩, some⟩ | ⟨-, ⟨⟩⟩
      · exact absurd rfl some
      · rfl
  subst same
  rcases result with ⟨⟨⟩, -⟩ | ⟨f, fn, ⟨⟩, hf, rfl⟩
  exact ⟨fn, hf, rfl⟩

theorem isDeclaration_of_target? (found : target? p i = .ok (some f)) :
    ∃ fn, p.functions[f]? = some fn ∧ fn.isDeclaration = false := by
  obtain ⟨named, -, ⟨-, ⟨⟩⟩ | ⟨g, fn, -, hg, result⟩⟩ := target?_inv found
  split at result
  · cases result
  · rename_i defined
    cases result
    exact ⟨fn, hg, Bool.eq_false_iff.2 defined⟩

theorem op?_eq_some {k : Kind} {op : Op} : k.op? = some op ↔ ∃ b, k = .inst b op := by
  cases k <;> simp [Kind.op?]

theorem isCall_of_target? (found : target? p i = .ok (some f)) : p.isCall i = true := by
  have of_callTarget {g : FuncId} (ht : p.callTarget? i = .ok (some g)) : p.isCall i = true := by
    obtain ⟨op, hop, ht⟩ := Checked.bind_eq_ok.1 ht
    obtain ⟨kind, hkind, ⟨⟩⟩ := Checked.bind_eq_ok.1 hop
    split at ht
    case h_1 g' args same =>
      obtain ⟨b, rfl⟩ := op?_eq_some.1 same
      rw [Program.isCall, Program.kind_eq_ok.1 hkind]
    case h_2 => cases ht
  have of_calleeName {name : String} (hn : p.calleeName? i = .ok (some name)) : p.isCall i = true := by
    obtain ⟨target, ht, hn⟩ := Checked.bind_eq_ok.1 hn
    cases target with
    | none => cases hn
    | some g => exact of_callTarget ht
  obtain ⟨named, origin, ⟨-, ⟨⟩⟩ | ⟨g, fn, rfl, -⟩⟩ := target?_inv found
  rcases origin with ⟨spawned, -⟩ | ⟨-, target⟩
  · obtain ⟨name, hn, spawned⟩ := Checked.bind_eq_ok.1 spawned
    cases name with
    | none => cases spawned
    | some name => exact of_calleeName hn
  · exact of_callTarget target

theorem target?_eq_ok (regular : p.Regular) (made : CallGraph.ofProgram p = .ok calls)
    (hi : i ∈ p.instructions) : target? p i = .ok (calls.target i) := by
  obtain ⟨found, mapped, ⟨⟩⟩ := Checked.bind_eq_ok.1 made
  have inside : i < p.values.size := by
    obtain ⟨f, mem⟩ := Program.mem_instructions.1 hi
    obtain ⟨b, -, mem⟩ := Program.mem_bodyOf.1 mem
    obtain ⟨x, hx, mem⟩ := Program.mem_instsOf.1 mem
    obtain ⟨v, op, hv, -⟩ := regular.placed b x hx i mem
    exact (Array.getElem?_eq_some_iff.1 hv).1
  exact (Checked.getD_of_mapM mapped i).1 ⟨hi, inside⟩

theorem only_site (regular : p.Regular) (made : ofProgram p = .ok calls) {site : ValueId}
    (sites : calls.sites p f = [site]) : site ∈ p.instructions ∧ target? p site = .ok (some f) ∧
      ∀ i ∈ p.instructions, p.started? i = some f → i = site := by
  have listed (i : ValueId) : i ∈ p.instructions ∧ calls.target i = some f ↔ i = site := by
    have mem : i ∈ calls.sites p f ↔ i = site := by rw [sites, List.mem_singleton]
    rwa [CallGraph.sites, List.mem_filter, decide_eq_true_eq] at mem
  obtain ⟨hsite, target⟩ := (listed site).2 rfl
  have hit : target? p site = .ok (some f) := target ▸ target?_eq_ok regular made hsite
  refine ⟨hsite, hit, fun i hi starts => (listed i).1 ⟨hi, ?_⟩⟩
  obtain ⟨fn, hf, defined⟩ := isDeclaration_of_target? hit
  obtain ⟨fn', hf', result⟩ := target?_eq (target?_eq_ok regular made hi) starts
  cases hf.symm.trans hf'
  rw [result, defined]
  rfl

end CallGraph

namespace Execution
variable {s : Setting} {once once' : List FuncId} {f : FuncId}

theorem runsOnce_inv (runs : runsOnce s once f = .ok true) :
    ∃ site b x, s.calls.sites s.program f = [site] ∧ s.program.blockOf? site = .ok (some b) ∧
      s.program.blocks[b]? = some x ∧ x.func ∈ once ∧ s.runs b = true ∧ s.inLoop b = false := by
  unfold runsOnce at runs
  split at runs
  · cases runs
  · split at runs
    case h_1 site sites =>
      obtain ⟨block, found, runs⟩ := Checked.bind_eq_ok.1 runs
      cases block with
      | none => cases runs
      | some b =>
        obtain ⟨x, hx, runs⟩ := Checked.bind_eq_ok.1 runs
        simp only [Checked.pure_eq, Except.ok.injEq, Bool.and_eq_true, List.contains_iff_mem,
          Bool.not_eq_true'] at runs
        exact ⟨site, b, x, sites, found, Program.block_eq_ok.1 hx, runs.1.1.1, runs.1.1.2, runs.1.2⟩
    case h_2 => cases runs

section
variable {P : FuncId → Prop}
variable (grow : ∀ once f, (∀ g ∈ once, P g) → runsOnce s once f = .ok true → P f)
include grow

theorem extend_induct (all : ∀ g ∈ once, P g) (made : extend s once = .ok once') : ∀ g ∈ once', P g := by
  unfold extend at made
  generalize s.program.functionIds = fs at made
  induction fs generalizing once with
  | nil =>
    cases made
    exact all
  | cons f rest ih =>
    rw [List.foldlM_cons] at made
    obtain ⟨once₁, step, made⟩ := Checked.bind_eq_ok.1 made
    refine ih ?_ made
    split at step
    · cases step
      exact all
    · obtain ⟨runs, checked, step⟩ := Checked.bind_eq_ok.1 step
      cases runs with
      | false =>
        cases step
        exact all
      | true =>
        cases step
        exact List.forall_mem_cons.2 ⟨grow once f all checked, all⟩

/-- What holds of the entry function, and of a function with one call if it holds of its caller, holds of
the functions that are found to run once. -/
theorem onceFunctions_induct (start : ∀ f, s.program.entryFunction? = some f → P f)
    (made : onceFunctions s = .ok once) : ∀ g ∈ once, P g := by
  unfold onceFunctions at made
  have all : ∀ g ∈ s.program.entryFunction?.toList, P g := fun g hg => start g (by simpa using hg)
  generalize s.program.entryFunction?.toList = first, s.program.functions.size = rounds at made all
  induction rounds generalizing first with
  | zero =>
    cases made
    exact all
  | succ rounds ih =>
    obtain ⟨next, grown, made⟩ := Checked.bind_eq_ok.1 made
    exact ih next made (extend_induct grow all grown)

end
end Execution

/-- One activation of a function. Its instructions run in order, block by block. -/
structure Activation where
  func : FuncId
  /-- The blocks that were entered, the last one first. -/
  trail : List BlockId
  /-- The instructions that have run, the last one first. -/
  ran : List ValueId
  /-- The instructions of the current block that have not run yet. -/
  ahead : List ValueId

namespace Activation
variable {p : Program} {a a' : Activation} {f : FuncId} {fs : List FuncId} {i : ValueId} {rest : List ValueId}

/-- A function that is only declared has nothing to run. -/
def start (p : Program) (f : FuncId) : Activation :=
  match p.functions[f]?.bind Function.entryBlock? with
  | some e => { func := f, trail := [e], ran := [], ahead := p.instsOf e }
  | none => { func := f, trail := [], ran := [], ahead := [] }

/-- A move of an activation and the functions that it starts. A call may start any function unless the
program shows which one it starts, and control may leave a block along any edge. -/
inductive Moves (p : Program) : Activation → Activation → List FuncId → Prop
  | compute {a : Activation} {i : ValueId} {rest : List ValueId} (next : a.ahead = i :: rest)
      (plain : p.isCall i = false) : Moves p a { a with ran := i :: a.ran, ahead := rest } []
  | call {a : Activation} {i : ValueId} {rest : List ValueId} {f : FuncId} (next : a.ahead = i :: rest)
      (call : p.isCall i = true) (starts : ∀ g, p.started? i = some g → g = f) :
      Moves p a { a with ran := i :: a.ran, ahead := rest } [f]
  | jump {a : Activation} {b c : BlockId} {before : List BlockId} (done : a.ahead = [])
      (here : a.trail = b :: before) (edge : c ∈ p.targets b) :
      Moves p a { a with trail := c :: a.trail, ahead := p.instsOf c } []

inductive Step (p : Program) : List Activation → List Activation → Prop
  | move {before after : List Activation} {a a' : Activation} {fs : List FuncId} (moves : Moves p a a' fs) :
      Step p (before ++ a :: after) (before ++ a' :: after ++ fs.map (start p))

/-- The pools of activations that a program can come to, its entry function being activated first. -/
def Runs (p : Program) (f : FuncId) (pool : List Activation) : Prop :=
  Relation.ReflTransGen (Step p) [start p f] pool

/-- An activation has come along a way from the entry of its function and has run what is along the way. -/
structure Valid (p : Program) (a : Activation) : Prop where
  walked : a.trail = [] ∨ ∃ e b, p.IsEntry a.func e ∧ Path p.targets e a.trail b
  along : a.ran.reverse ++ a.ahead = p.along a.trail

theorem func_start : (start p f).func = f := by
  unfold start
  split <;> rfl

theorem ran_start : (start p f).ran = [] := by
  unfold start
  split <;> rfl

theorem valid_start (p : Program) (f : FuncId) : (start p f).Valid p := by
  unfold start
  split
  case h_1 e entry =>
    obtain ⟨fn, hf, head⟩ := Option.bind_eq_some_iff.1 entry
    exact ⟨.inr ⟨e, e, ⟨fn, hf, head⟩, .refl⟩, by simp [Program.along]⟩
  case h_2 => exact ⟨.inl rfl, rfl⟩

namespace Moves

theorem func_eq (moves : Moves p a a' fs) : a'.func = a.func := by
  cases moves <;> rfl

theorem valid (moves : Moves p a a' fs) (valid : a.Valid p) : a'.Valid p := by
  have ran {i : ValueId} {rest : List ValueId} (next : a.ahead = i :: rest) :
      Valid p { a with ran := i :: a.ran, ahead := rest } := by
    refine ⟨valid.walked, ?_⟩
    rw [← valid.along, next]
    simp
  cases moves with
  | compute next plain => exact ran next
  | call next call starts => exact ran next
  | @jump b c before done here edge =>
    obtain none | ⟨e, b', he, path⟩ := valid.walked
    · simp [none] at here
    · have last : b' = b := by
        rw [here] at path
        cases path <;> rfl
      refine ⟨.inr ⟨e, c, he, path.step (last ▸ edge)⟩, ?_⟩
      have ran := valid.along
      rw [done, List.append_nil] at ran
      simp [Program.along, ran]

end Moves

theorem Valid.mem_bodyOf (valid : a.Valid p) (regular : p.Regular) (confined : p.Confined)
    (hi : i ∈ a.ran.reverse ++ a.ahead) : i ∈ p.bodyOf a.func := by
  rw [valid.along, Program.along, List.mem_flatMap] at hi
  obtain ⟨b, hb, mem⟩ := hi
  obtain none | ⟨e, c, he, path⟩ := valid.walked
  · simp [none] at hb
  · have reaches := path.reaches_of_mem (List.mem_reverse.1 hb)
    exact Program.mem_bodyOf.2 ⟨b, regular.mem_blocksOf.2 (confined.reached he reaches), mem⟩

/-- How often the activations have started a function. -/
def starts (p : Program) (f : FuncId) (pool : List Activation) : Nat :=
  (pool.map fun a => a.ran.countP fun i => p.started? i = some f).sum

/-- What holds in every run that begins with an activation of `entry`: every activation but the first was
started by one that is listed. -/
structure Running (p : Program) (entry : FuncId) (pool : List Activation) : Prop where
  valid : ∀ a ∈ pool, a.Valid p
  called : ∀ a ∈ pool, Relation.ReflTransGen p.Calls entry a.func
  count : ∀ f, pool.countP (·.func = f) = (if entry = f then 1 else 0) + starts p f pool

theorem running_start (p : Program) (entry : FuncId) : Running p entry [start p entry] where
  valid := by simpa using valid_start p entry
  called := by simp [func_start, Relation.ReflTransGen.refl]
  count f := by simp [starts, func_start, ran_start, List.countP_cons]

section
variable {entry : FuncId} {pool pool' : List Activation}
variable (regular : p.Regular) (confined : p.Confined)
variable (known : ∀ i ∈ p.instructions, p.isCall i = true → (p.started? i).isSome = true)
include regular confined known

/-- A move runs a call for each function that it starts. -/
theorem Moves.started (moves : Moves p a a' fs) (valid : a.Valid p) :
    (∀ f ∈ fs, p.Calls a.func f) ∧ ∀ f, (a'.ran.countP fun i => p.started? i = some f) =
      (a.ran.countP fun i => p.started? i = some f) + fs.count f := by
  cases moves with
  | compute next plain => simp [Program.started?_eq_none plain]
  | @call i rest f next call starts =>
    have mem : i ∈ p.bodyOf a.func := valid.mem_bodyOf regular confined (by simp [next])
    obtain ⟨g, hg⟩ := Option.isSome_iff_exists.1 (known i (Program.mem_instructions.2 ⟨_, mem⟩) call)
    obtain rfl := starts g hg
    refine ⟨by simpa using ⟨i, mem, hg⟩, fun f => ?_⟩
    simp [List.countP_cons, hg, List.count_singleton]
  | jump done here edge => simp

theorem Running.step (running : Running p entry pool) (step : Step p pool pool') : Running p entry pool' := by
  obtain @⟨before, after, a, a', fs, moves⟩ := step
  have mem : a ∈ before ++ a :: after := by simp
  obtain ⟨calls, more⟩ := moves.started regular confined known (running.valid a mem)
  have cases {P : Activation → Prop} (old : ∀ x ∈ before ++ a :: after, P x) (moved : P a → P a')
      (new : ∀ f ∈ fs, P (start p f)) : ∀ x ∈ before ++ a' :: after ++ fs.map (start p), P x := by
    simp only [List.mem_append, List.mem_cons, List.mem_map]
    rintro x ((first | rfl | last) | ⟨f, hf, rfl⟩)
    · exact old x (by simp [first])
    · exact moved (old a mem)
    · exact old x (by simp [last])
    · exact new f hf
  constructor
  · exact cases running.valid moves.valid fun f _ => valid_start p f
  · refine cases running.called (fun path => moves.func_eq ▸ path) fun f hf => ?_
    exact func_start ▸ (running.called a mem).tail (calls f hf)
  · intro f
    have counted : (fs.map (start p)).countP (·.func = f) = fs.count f := by
      simp [List.countP_map, Function.comp_def, func_start, List.count, beq_eq_decide]
    have fresh : starts p f (fs.map (start p)) = 0 := by
      simp [starts, ran_start, Function.comp_def]
    have before := running.count f
    simp only [starts, List.countP_append, List.countP_cons, List.map_append, List.map_cons, List.sum_append,
      List.sum_cons, moves.func_eq, more, counted] at before fresh ⊢
    omega

theorem Running.of_runs (runs : Runs p entry pool) : Running p entry pool := by
  induction runs with
  | refl => exact running_start p entry
  | tail _ step ih => exact ih.step regular confined known step

end

/-! ### Activations of functions that run once -/

section
variable {entry caller : FuncId} {b : BlockId} {site : ValueId} {pool : List Activation}

theorem Running.count_entry (running : Running p entry pool) (regular : p.Regular) (confined : p.Confined)
    (acyclic : ¬Relation.TransGen p.Calls entry entry) : pool.countP (·.func = entry) = 1 := by
  have none : starts p entry pool = 0 := by
    refine List.sum_eq_zero fun n hn => ?_
    obtain ⟨a, ha, rfl⟩ := List.mem_map.1 hn
    refine List.countP_eq_zero.2 fun i hi again => acyclic ?_
    have mem : i ∈ p.bodyOf a.func := (running.valid a ha).mem_bodyOf regular confined (by simp [hi])
    exact .tail' (running.called a ha) ⟨i, mem, of_decide_eq_true again⟩
  rw [running.count, none, if_pos rfl]

/-- An activation runs a call that is on no cycle at most once, and only if the call is in its function. -/
theorem Valid.count_le (valid : a.Valid p) (regular : p.Regular) (confined : p.Confined)
    (hb : b ∈ p.blocksOf caller) (hi : site ∈ p.instsOf b)
    (straight : ∀ e, p.IsEntry caller e → Reaches p.targets e b → ∀ vs, Path p.targets b vs b → ¬1 < vs.length) :
    a.ran.count site ≤ if a.func = caller then 1 else 0 := by
  have le : a.ran.count site ≤ a.trail.count b := by
    rw [← regular.count_along hi, ← valid.along, List.count_append, List.count_reverse]
    exact Nat.le_add_right ..
  refine le.trans ?_
  by_cases hit : b ∈ a.trail
  · obtain none | ⟨e, c, he, path⟩ := valid.walked
    · simp [none] at hit
    · have reaches := path.reaches_of_mem hit
      obtain ⟨x, hx, func⟩ := confined.reached he reaches
      obtain ⟨x', hx', rfl⟩ := regular.mem_blocksOf.1 hb
      cases hx.symm.trans hx'
      rw [if_pos func.symm]
      by_contra twice
      obtain ⟨ws, cycle, turns⟩ := path.exists_cycle (by omega : 1 < a.trail.count b)
      exact straight e (func ▸ he) reaches ws cycle turns
  · rw [List.count_eq_zero_of_not_mem hit]
    exact Nat.zero_le _

/-- A function with a single call is started at most as often as the caller, if the call is on no cycle. -/
theorem starts_le (only : ∀ a ∈ pool, ∀ i ∈ a.ran, p.started? i = some f → i = site)
    (single : ∀ a ∈ pool, a.ran.count site ≤ if a.func = caller then 1 else 0) :
    starts p f pool ≤ pool.countP (·.func = caller) := by
  induction pool with
  | nil => simp [starts]
  | cons a pool ih =>
    obtain ⟨only_a, only⟩ := List.forall_mem_cons.1 only
    obtain ⟨single_a, single⟩ := List.forall_mem_cons.1 single
    have here : (a.ran.countP fun i => p.started? i = some f) ≤ a.ran.count site :=
      List.countP_mono_left fun i hi starts => by simpa using only_a i hi (of_decide_eq_true starts)
    have rest := ih only single
    simp only [starts, List.map_cons, List.sum_cons, List.countP_cons, decide_eq_true_eq] at rest ⊢
    omega

end

end Activation

namespace Survey
open Activation
variable {p : Program} {marked : List BlockId} {s : Survey} {entry f : FuncId} {pool : List Activation}

/-- In a run of a program whose calls are known and whose functions do not branch into each other, a function
that is said to run at most once has at most one activation. This asks for an entry function that is not
recursive, and that a dominating block is on every cycle on which there is a call. -/
theorem funcOnce_activations (regular : p.Regular) (confined : p.Confined) (made : ofProgram p marked = .ok s)
    (known : ∀ i ∈ p.instructions, p.isCall i = true → (p.started? i).isSome = true)
    (start : p.entryFunction? = some entry) (acyclic : ¬Relation.TransGen p.Calls entry entry)
    (headed : ∀ f e b i, p.IsEntry f e → Reaches p.targets e b → i ∈ p.instsOf b → p.isCall i = true →
      ∀ vs, Path p.targets b vs b → 1 < vs.length → Headed p.targets e vs)
    (once : s.funcOnce f = true) (runs : Runs p entry pool) : pool.countP (·.func = f) ≤ 1 := by
  obtain ⟨forest, calls, execution, parts⟩ := exists_parts made
  have running := Running.of_runs regular confined known runs
  have first := running.count_entry regular confined acyclic
  rw [parts.funcOnce_eq, List.contains_iff_mem] at once
  refine Execution.onceFunctions_induct (P := fun f => pool.countP (·.func = f) ≤ 1) ?_ ?_
    (Execution.funcOnce_eq parts.execution_eq) f once
  case refine_2 =>
    intro f same
    cases start.symm.trans same
    exact first.le
  intro earlier f all checked
  obtain ⟨site, b, x, sites, block, hx, caller, -, outside⟩ := Execution.runsOnce_inv checked
  by_cases same : entry = f
  · exact same ▸ first.le
  obtain ⟨hsite, hit, only⟩ := CallGraph.only_site regular parts.calls_eq sites
  have here : b ∈ p.blocksOf x.func ∧ site ∈ p.instsOf b := by
    obtain ⟨f', mem⟩ := Program.mem_instructions.1 hsite
    obtain ⟨c, hc, mem⟩ := Program.mem_bodyOf.1 mem
    cases (regular.blockOf? mem).symm.trans block
    exact ⟨regular.mem_blocksOf.2 ⟨x, hx, rfl⟩, mem⟩
  have straight (e : BlockId) (he : p.IsEntry x.func e) (reaches : Reaches p.targets e b) (vs : List BlockId)
      (cycle : Path p.targets b vs b) (turns : 1 < vs.length) : False := by
    have none : s.innermost? b = none := by simpa [setting] using outside
    exact not_headed regular confined made he reaches none cycle turns
      (headed x.func e b site he reaches here.2 (CallGraph.isCall_of_target? hit) vs cycle turns)
  have ran (a : Activation) (ha : a ∈ pool) (i : ValueId) (hi : i ∈ a.ran) : i ∈ p.instructions :=
    Program.mem_instructions.2 ⟨_, (running.valid a ha).mem_bodyOf regular confined (by simp [hi])⟩
  calc pool.countP (·.func = f)
      = starts p f pool := by rw [running.count, if_neg same, Nat.zero_add]
    _ ≤ pool.countP (·.func = x.func) := starts_le (fun a ha i hi => only i (ran a ha i hi)) fun a ha =>
        (running.valid a ha).count_le regular confined here.1 here.2 straight
    _ ≤ 1 := all x.func caller

/-- The entry function calls one function, starts a thread that runs another one, and then loops. -/
def delegating : Program where
  values := #[
    { ty := .int 1, kind := .param 0 0 },
    { ty := .ptr, kind := .function 3 },
    { ty := .ptr, kind := .null },
    { ty := .void, kind := .inst 0 (.call (.direct 1) []) },
    { ty := .int 32, kind := .inst 0 (.call (.direct 2) [2, 2, 1, 2]) }]
  blocks := #[
    { func := 0, name := "entry", insts := [3, 4], term := .br 1 },
    { func := 0, name := "loop", term := .condBr 0 1 2 },
    { func := 0, name := "exit", term := .ret none },
    { func := 1, name := "body", term := .ret none },
    { func := 3, name := "body", term := .ret none }]
  functions := #[
    { name := "main", params := [0], ret := .void, blocks := [0, 1, 2] },
    { name := "helper", params := [], ret := .void, blocks := [3] },
    { name := Routine.threadSpawn, params := [], ret := .int 32 },
    { name := "worker", params := [], ret := .void, blocks := [4] }]
  chosenEntry := some 0

theorem funcOnce_activations_delegating :
    delegating.Regular ∧ delegating.Confined ∧ delegating.entryFunction? = some 0 ∧
      ∃ s, ofProgram delegating [] = .ok s ∧ s.funcOnce 3 = true ∧
        ∀ pool, Runs delegating 0 pool → pool.countP (·.func = 3) ≤ 1 := by
  have regular : delegating.Regular := by decide
  have confined : delegating.Confined := by decide
  have found : (ofProgram delegating []).toOption.map (·.funcOnce 3) = some true := by
    have calls : CallGraph.ofProgram delegating = .ok ⟨#[none, none, none, some 1, some 3]⟩ := rfl
    rw [ofProgram, calls]
    cbv
  obtain ⟨s, made, once⟩ := exists_of_map_eq found
  refine ⟨regular, confined, rfl, s, made, once, fun pool runs =>
    funcOnce_activations regular confined made (by decide) rfl ?_ ?_ once runs⟩
  · -- No call starts the entry function.
    intro cycle
    obtain ⟨f, -, i, mem, again⟩ := Relation.TransGen.tail'_iff.1 cycle
    have none : ∀ i ∈ delegating.instructions, delegating.started? i ≠ some 0 := by decide
    exact none i (Program.mem_instructions.2 ⟨f, mem⟩) again
  · -- The calls are in the first block, which control does not come back to.
    intro f e b i he reaches hi call vs cycle turns
    have first : ∀ b < 5, ∀ i ∈ delegating.instsOf b, delegating.isCall i = true → b = 0 := by decide
    have left : ∀ a < 5, 0 ∉ delegating.targets a := by decide
    obtain ⟨x, hx, -⟩ := Program.mem_instsOf.1 hi
    obtain rfl := first b (Array.getElem?_eq_some_iff.1 hx).1 i hi call
    cases cycle with
    | refl => simp at turns
    | step path edge =>
      obtain ⟨y, hy, -⟩ := Program.mem_targets.1 edge
      exact absurd edge (left _ (Array.getElem?_eq_some_iff.1 hy).1)

/-- The entry function calls another one, and then perhaps itself. -/
def returning : Program where
  values := #[
    { ty := .int 1, kind := .param 0 0 },
    { ty := .void, kind := .inst 0 (.call (.direct 1) []) },
    { ty := .void, kind := .inst 1 (.call (.direct 0) [0]) }]
  blocks := #[
    { func := 0, name := "entry", insts := [1], term := .condBr 0 1 2 },
    { func := 0, name := "again", insts := [2], term := .br 2 },
    { func := 0, name := "done", term := .ret none },
    { func := 1, name := "body", term := .ret none }]
  functions := #[
    { name := "main", params := [0], ret := .void, blocks := [0, 1, 2] },
    { name := "helper", params := [], ret := .void, blocks := [3] }]
  chosenEntry := some 0

/-- Two blocks that branch to each other are both entered from the first block, and one of them calls. -/
def circling : Program where
  values := #[{ ty := .int 1, kind := .param 0 0 }, { ty := .void, kind := .inst 1 (.call (.direct 1) []) }]
  blocks := #[
    { func := 0, name := "entry", term := .condBr 0 1 2 },
    { func := 0, name := "left", insts := [1], term := .br 2 },
    { func := 0, name := "right", term := .condBr 0 1 3 },
    { func := 0, name := "exit", term := .ret none },
    { func := 1, name := "body", term := .ret none }]
  functions := #[
    { name := "main", params := [0], ret := .void, blocks := [0, 1, 2, 3] },
    { name := "helper", params := [], ret := .void, blocks := [4] }]
  chosenEntry := some 0

/-- A function that is said to run at most once has two activations in a run. -/
def ActivatedTwice (p : Program) (f : FuncId) : Prop :=
  p.Regular ∧ p.Confined ∧ (∀ i ∈ p.instructions, p.isCall i = true → (p.started? i).isSome = true) ∧
    ∃ s entry pool, ofProgram p [] = .ok s ∧ s.funcOnce f = true ∧ p.entryFunction? = some entry ∧
      Runs p entry pool ∧ pool.countP (·.func = f) = 2

theorem activatedTwice {f : FuncId} (regular : p.Regular) (confined : p.Confined)
    (known : ∀ i ∈ p.instructions, p.isCall i = true → (p.started? i).isSome = true)
    (found : (ofProgram p []).toOption.map (·.funcOnce f) = some true) (start : p.entryFunction? = some entry)
    (runs : Runs p entry pool) (twice : pool.countP (·.func = f) = 2) : ActivatedTwice p f := by
  obtain ⟨s, made, once⟩ := exists_of_map_eq found
  exact ⟨regular, confined, known, s, entry, pool, made, once, start, runs, twice⟩

/-- An entry function that calls itself is activated twice, and so is a function that is called on a cycle
without a dominating block. -/
theorem funcOnce_activated_twice :
    ActivatedTwice returning 0 ∧ ActivatedTwice circling 1 ∧ ¬Relation.TransGen circling.Calls 0 0 := by
  have helps (g : FuncId) (h : returning.started? 1 = some g) : g = 1 := by
    have starts : returning.started? 1 = some 1 := by decide
    exact Option.some.inj (h.symm.trans starts)
  have returns (g : FuncId) (h : returning.started? 2 = some g) : g = 0 := by
    have starts : returning.started? 2 = some 0 := by decide
    exact Option.some.inj (h.symm.trans starts)
  have circles (g : FuncId) (h : circling.started? 1 = some g) : g = 1 := by
    have starts : circling.started? 1 = some 1 := by decide
    exact Option.some.inj (h.symm.trans starts)
  refine ⟨?_, ?_, ?_⟩
  · have call : Step returning [⟨0, [0], [], [1]⟩] [⟨0, [0], [1], []⟩, ⟨1, [3], [], []⟩] :=
      @Step.move _ [] [] _ _ _ (.call rfl rfl helps)
    have jump : Step returning [⟨0, [0], [1], []⟩, ⟨1, [3], [], []⟩]
        [⟨0, [1, 0], [1], [2]⟩, ⟨1, [3], [], []⟩] :=
      @Step.move _ [] _ _ _ _ (.jump rfl rfl (by decide))
    have recurse : Step returning [⟨0, [1, 0], [1], [2]⟩, ⟨1, [3], [], []⟩]
        [⟨0, [1, 0], [2, 1], []⟩, ⟨1, [3], [], []⟩, ⟨0, [0], [], [1]⟩] :=
      @Step.move _ [] _ _ _ _ (.call rfl rfl returns)
    have found : (ofProgram returning []).toOption.map (·.funcOnce 0) = some true := by
      have calls : CallGraph.ofProgram returning = .ok ⟨#[none, some 1, some 0]⟩ := rfl
      rw [ofProgram, calls]
      cbv
    exact activatedTwice (by decide) (by decide) (by decide) found rfl
      (((Relation.ReflTransGen.single call).tail jump).tail recurse) (by decide)
  · have enter : Step circling [⟨0, [0], [], []⟩] [⟨0, [1, 0], [], [1]⟩] :=
      @Step.move _ [] [] _ _ _ (.jump rfl rfl (by decide))
    have call : Step circling [⟨0, [1, 0], [], [1]⟩] [⟨0, [1, 0], [1], []⟩, ⟨1, [4], [], []⟩] :=
      @Step.move _ [] [] _ _ _ (.call rfl rfl circles)
    have leave : Step circling [⟨0, [1, 0], [1], []⟩, ⟨1, [4], [], []⟩]
        [⟨0, [2, 1, 0], [1], []⟩, ⟨1, [4], [], []⟩] :=
      @Step.move _ [] _ _ _ _ (.jump rfl rfl (by decide))
    have back : Step circling [⟨0, [2, 1, 0], [1], []⟩, ⟨1, [4], [], []⟩]
        [⟨0, [1, 2, 1, 0], [1], [1]⟩, ⟨1, [4], [], []⟩] :=
      @Step.move _ [] _ _ _ _ (.jump rfl rfl (by decide))
    have again : Step circling [⟨0, [1, 2, 1, 0], [1], [1]⟩, ⟨1, [4], [], []⟩]
        [⟨0, [1, 2, 1, 0], [1, 1], []⟩, ⟨1, [4], [], []⟩, ⟨1, [4], [], []⟩] :=
      @Step.move _ [] _ _ _ _ (.call rfl rfl circles)
    have found : (ofProgram circling []).toOption.map (·.funcOnce 1) = some true := by
      have calls : CallGraph.ofProgram circling = .ok ⟨#[none, some 1]⟩ := rfl
      rw [ofProgram, calls]
      cbv
    exact activatedTwice (by decide) (by decide) (by decide) found rfl
      (((((Relation.ReflTransGen.single enter).tail call).tail leave).tail back).tail again) (by decide)
  · intro cycle
    obtain ⟨f, -, i, mem, recursive⟩ := Relation.TransGen.tail'_iff.1 cycle
    have none : ∀ i ∈ circling.instructions, circling.started? i ≠ some 0 := by decide
    exact none i (Program.mem_instructions.2 ⟨f, mem⟩) recursive

end Survey
end SsaFacts
