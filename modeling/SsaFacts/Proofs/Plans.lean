import SsaFacts.Proofs.Building
import SsaFacts.Proofs.Paths
import SsaFacts.Proofs.Returns
import SsaFacts.Realize

/-! What a question needs, listed before anything is stated. The list follows the calls of every leaf to the end and
does not ask what was listed before. Stated without repetitions, it gives the facts that realizing gives under its four
tables, fact by fact and in the same order. -/
namespace SsaFacts

/-- One group of facts to state. -/
inductive Task
  | function (f : FuncId)
  | loop (l : LoopId)
  /-- The edges not taken on the way to a block. -/
  | branches (b : BlockId)
  /-- The values that left loops on the way to a block. -/
  | exits (b : BlockId)
  /-- The arguments that a parameter may get. -/
  | argument (v : ValueId)
  /-- A value that was asked for as an instruction and is none: there is nothing to state of it. -/
  | nothing (v : ValueId)
  /-- The arguments that one call binds. -/
  | binding (site : ValueId) (callee : FuncId)
  | absent (v : ValueId)
  deriving DecidableEq, Repr

structure Need where
  task : Task
  context : Context
  deriving DecidableEq, Repr

namespace Need

/-- What a need is recognised by when it comes again. A value counts once, whether it was asked for as a
parameter or as an instruction; bindings are stated every time. -/
def key? (n : Need) : Option Need :=
  match n.task with
  | .binding .. | .absent _ => none
  | .argument v => some { n with task := .nothing v }
  | _ => some n

def dropSeen : List Need → List Need → List Need
  | _, [] => []
  | seen, n :: rest =>
    match n.key? with
    | none => n :: dropSeen seen rest
    | some k => if k ∈ seen then dropSeen seen rest else n :: dropSeen (k :: seen) rest

def inContext (context : Context) (tasks : List Task) : List Need := tasks.map fun task => { task, context }

def keys (needs : List Need) : List Need := needs.filterMap key?

variable {n k : Need} {needs seen seen' xs ys : List Need}

theorem inContext_append (context : Context) (ts us : List Task) :
    inContext context (ts ++ us) = inContext context ts ++ inContext context us := List.map_append

theorem inContext_flatMap {α : Type} (context : Context) (as : List α) (tasks : α → List Task) :
    inContext context (as.flatMap tasks) = as.flatMap fun a => inContext context (tasks a) := List.map_flatMap

theorem mem_keys : k ∈ keys needs ↔ ∃ n ∈ needs, n.key? = some k := List.mem_filterMap

theorem keys_append : keys (xs ++ ys) = keys xs ++ keys ys := List.filterMap_append

theorem keys_cons_of_none (key : n.key? = none) : keys (n :: needs) = keys needs := List.filterMap_cons_none key

theorem keys_cons_of_some (key : n.key? = some k) : keys (n :: needs) = k :: keys needs := List.filterMap_cons_some key

theorem dropSeen_congr (same : ∀ k, k ∈ seen ↔ k ∈ seen') : dropSeen seen needs = dropSeen seen' needs := by
  induction needs generalizing seen seen' with
  | nil => rfl
  | cons n rest ih =>
    simp only [dropSeen, same, ih same]
    cases n.key? with
    | none => rfl
    | some k => simp only [ih (fun j => by simp only [List.mem_cons, same] : ∀ j, j ∈ k :: seen ↔ j ∈ k :: seen')]

theorem dropSeen_append : dropSeen seen (xs ++ ys) = dropSeen seen xs ++ dropSeen (keys xs ++ seen) ys := by
  induction xs generalizing seen with
  | nil => rfl
  | cons n rest ih =>
    simp only [List.cons_append, dropSeen]
    cases key : n.key? with
    | none => simp only [keys_cons_of_none key, ih, List.cons_append]
    | some k =>
      rw [keys_cons_of_some key]
      dsimp only
      split
      case isTrue known =>
        rw [ih]
        refine congrArg _ (dropSeen_congr fun j => ?_)
        simp only [List.cons_append, List.mem_cons, List.mem_append]
        grind
      case isFalse =>
        rw [ih, List.cons_append]
        refine congrArg (fun later => n :: (_ ++ later)) (dropSeen_congr fun j => ?_)
        simp only [List.cons_append, List.mem_cons, List.mem_append]
        tauto

theorem mem_keys_append (known : ∀ n ∈ needs, ∃ k ∈ seen, n.key? = some k) (k : Need) :
    k ∈ seen ↔ k ∈ keys needs ++ seen := by
  refine ⟨List.mem_append_right _, fun mem => (List.mem_append.1 mem).elim (fun listed => ?_) id⟩
  obtain ⟨n, hn, key⟩ := mem_keys.1 listed
  obtain ⟨j, hj, key'⟩ := known n hn
  exact Option.some.inj (key'.symm.trans key) ▸ hj

theorem dropSeen_eq_nil (known : ∀ n ∈ needs, ∃ k ∈ seen, n.key? = some k) : dropSeen seen needs = [] := by
  induction needs with
  | nil => rfl
  | cons n rest ih =>
    obtain ⟨⟨k, mem, key⟩, known⟩ := List.forall_mem_cons.1 known
    rw [dropSeen, key]
    exact (if_pos mem).trans (ih known)

theorem eq_of_key? {m : Need} (ne : ∀ v, n.task ≠ .nothing v) (key : m.key? = some n) : m = n := by
  obtain ⟨t, c⟩ := m
  cases t <;> simp [key?] at key <;> subst key <;> simp_all

def Apart (needs : List Need) : Prop := ∀ v context, ⟨.argument v, context⟩ ∈ needs → ⟨.nothing v, context⟩ ∉ needs

theorem Apart.eq_of_key? {m : Need} (apart : Apart needs) (hn : n ∈ needs) (hm : m ∈ needs) (h : n.key? = some k)
    (h' : m.key? = some k) : n = m := by
  obtain ⟨t, context⟩ := n
  obtain ⟨t', context'⟩ := m
  unfold Apart at apart
  cases t <;> cases t' <;> simp only [key?, Option.some.injEq, reduceCtorEq] at h h' <;> simp [← h] at h' ⊢ <;> grind

theorem mem_dropSeen (apart : Apart needs) : n ∈ dropSeen seen needs ↔ n ∈ needs ∧ ∀ k ∈ n.key?, k ∉ seen := by
  induction needs generalizing seen with
  | nil => simp [dropSeen]
  | cons m rest ih =>
    have others : Apart rest := fun v context hv hv' => apart v context (.tail _ hv) (.tail _ hv')
    rw [dropSeen, List.mem_cons]
    split
    · rename_i none
      rw [List.mem_cons, ih others, or_and_right]
      refine or_congr_left (iff_self_and.2 ?_)
      rintro rfl k hk
      simp [none] at hk
    · rename_i k key
      split
      · rename_i known
        rw [ih others, or_and_right]
        refine (or_iff_right ?_).symm
        rintro ⟨rfl, fresh⟩
        exact fresh k key known
      · rename_i fresh
        rw [List.mem_cons, ih others]
        constructor
        · rintro (rfl | ⟨mem, apart⟩)
          · refine ⟨.inl rfl, fun k' hk' => ?_⟩
            cases key.symm.trans hk'
            exact fresh
          · exact ⟨.inr mem, fun k' hk' known => apart k' hk' (List.mem_cons_of_mem k known)⟩
        · rintro ⟨rfl | mem, unseen⟩
          · exact .inl rfl
          · -- a later need with the same key is the same need
            by_cases same : n.key? = some k
            · exact .inl (apart.eq_of_key? (.tail _ mem) List.mem_cons_self same key)
            · refine .inr ⟨mem, fun k' hk' known => ?_⟩
              rcases List.mem_cons.1 known with rfl | known
              · exact same hk'
              · exact unseen k' hk' known

theorem mem_dropSeen_nil (apart : Apart needs) : n ∈ dropSeen [] needs ↔ n ∈ needs := by simp [mem_dropSeen apart]

end Need

namespace Subject
variable (s : Subject)

/-! ### Listing -/

/-- The call that starts the function of an instruction, where it is the only one. -/
def uniqueCaller (inst : ValueId) : List ValueId :=
  match (s.place? inst).map (s.survey.callSites ·.2) with
  | some [site] => [site]
  | _ => []

/-- An instruction, the only call that leads to it, the only call that leads to that one, and so on until
a call repeats. -/
def callerChain (inst : ValueId) : List ValueId :=
  closure s.uniqueCaller s.program.valueIds [inst]

def functionTasks (inst : ValueId) : List Task :=
  match s.place? inst, s.program.kind? inst with
  | some (_, f), _ => if s.survey.funcOnce f then [] else [.function f]
  | none, some (.inst ..) => []
  | none, _ => [.nothing inst]

def blockTasks (inst : ValueId) : List Task :=
  match s.place? inst with
  | some (b, f) => (s.loopsAbove f b).map .loop ++ [.branches b, .exits b]
  | none => []

/-- The functions from the inside out, then what surrounds each call from the outside in. -/
def chainTasks (chain : List ValueId) : List Task :=
  chain.flatMap s.functionTasks ++ chain.reverse.flatMap s.blockTasks

def instructionTasks (v : ValueId) : List Task :=
  match s.program.kind? v with
  | none => [.absent v]
  | some _ => s.chainTasks (s.callerChain v)

def parameterTasks (isFixed : ValueId → Bool) (v : ValueId) : List Task :=
  match s.program.kind? v with
  | none => [.absent v]
  | some (.param ..) => if isFixed v then [] else [.argument v]
  | some _ => []

def bindingTasks (stack : List ValueId) (v : ValueId) : List Task :=
  (stack.zip (stack.tail ++ [v])).filterMap fun (site, next) =>
    (s.owner? next).map fun f => .binding site f

def activationTasks (isFixed : ValueId → Bool) (stack : List ValueId) (v : ValueId) : List Task :=
  let own :=
    match s.program.kind? v with
    | none => [.absent v]
    | some (.inst ..) => s.instructionTasks v
    | some _ => if stack.isEmpty then s.parameterTasks isFixed v else []
  own ++ stack.flatMap s.instructionTasks ++ s.bindingTasks stack v

def leafNeeds (isFixed : ValueId → Bool) (l : Leaf) : List Need :=
  let tasks := match l.ref with
    | .result v stack => s.activationTasks isFixed stack v
    | .operand site _ => s.instructionTasks site.user
    | .previous _ => []
  Need.inContext l.context tasks

def needs (isFixed : ValueId → Bool) (c : Clause) : List Need :=
  c.leaves.flatMap (s.leafNeeds isFixed)

/-! ### Stating -/

def taskFacts : Task → Noted (List Clause)
  | .function f => s.inFunction f
  | .loop l => do s.inLoop (← s.survey.loop l)
  | .branches b => s.branchFacts b
  | .exits b => s.exitFacts b
  | .argument v => return (← s.inArgument v).toList
  | .nothing _ => return []
  | .binding site callee => s.bindingFacts site callee
  | .absent v => throw (.unknownValue v)

def stateAll (c : Capture) (needs : List Need) : Noted (List Clause) := do
  let facts ← needs.mapM fun n => do
    return (← s.taskFacts n.task).map (Clause.mapLeaves (c.tag s.program n.context))
  return facts.flatten

variable {s} {c : Capture} {xs ys needs seen : List Need} {t : Task} {i v : ValueId} {chain : List ValueId}

theorem mem_functionTasks : t ∈ s.functionTasks i ↔
    (∃ b f, s.place? i = some (b, f) ∧ s.survey.funcOnce f = false ∧ t = .function f) ∨
      s.place? i = none ∧ (∀ b op, s.program.kind? i ≠ some (.inst b op)) ∧ t = .nothing i := by
  unfold functionTasks
  split
  · rename_i placed
    split <;> simp_all
  · rename_i unplaced kind
    simp [unplaced, kind]
  · rename_i unplaced other
    simpa [unplaced] using fun _ b op kind => other b op kind

theorem mem_blockTasks : t ∈ s.blockTasks i ↔
    ∃ b f, s.place? i = some (b, f) ∧ ((∃ l ∈ s.loopsAbove f b, t = .loop l) ∨ t = .branches b ∨ t = .exits b) := by
  unfold blockTasks
  split
  · rename_i placed
    simp [placed, eq_comm]
  · rename_i unplaced
    simp [unplaced]

theorem mem_chainTasks : t ∈ s.chainTasks chain ↔ ∃ i ∈ chain, t ∈ s.functionTasks i ∨ t ∈ s.blockTasks i := by
  simp only [chainTasks, List.mem_append, List.mem_flatMap, List.mem_reverse, ← exists_or, ← and_or_left]

theorem chainTasks_cons : s.chainTasks (i :: chain) = s.functionTasks i ++ s.chainTasks chain ++ s.blockTasks i := by
  simp [chainTasks]

theorem stateAll_nil : s.stateAll c [] = pure [] := by simp [stateAll]

theorem stateAll_singleton (t : Task) (context : Context) : s.stateAll c [⟨t, context⟩] = do
    return (← s.taskFacts t).map (Clause.mapLeaves (c.tag s.program context)) := by
  simp [stateAll]

theorem stateAll_append : s.stateAll c (xs ++ ys) = do
    return (← s.stateAll c xs) ++ (← s.stateAll c ys) := by
  simp [stateAll]

end Subject
end SsaFacts
