import SsaFacts.Proofs.Plans

/-! The four tables of a realizer. What they mark was stated or is being stated, so that leaving out what is marked
leaves out repetitions only: realizing gives the facts that the plan gives. -/
namespace SsaFacts

namespace Noted

@[simp] theorem liftM_ok {α : Type} (a : α) : (liftM (Except.ok a : Checked α) : Noted α) = pure a := rfl

@[simp] theorem liftM_error {α : Type} (e : Fault) : (liftM (Except.error e : Checked α) : Noted α) = throw e := rfl

end Noted

namespace Subject
variable {s : Subject} {c : Capture} {xs ys needs seen : List Need}

/-- The step states the needs, whatever was stated before, and goes from one state to the other but for the facts. -/
def Steps (s : Subject) (c : Capture) {σ τ : Type} (step : σ → Noted τ) (before : List Clause → σ)
    (after : List Clause → τ) (needs : List Need) : Prop :=
  ∀ facts, step (before facts) = do return after (facts ++ (← s.stateAll c needs))

namespace Steps
variable {σ τ ρ : Type} {f : σ → Noted τ} {g : τ → Noted ρ} {before : List Clause → σ} {between : List Clause → τ}
  {after : List Clause → ρ}

protected theorem pure (before : List Clause → σ) : s.Steps c pure before before [] := by
  intro facts
  simp [stateAll_nil]

theorem comp (first : s.Steps c f before between xs) (second : s.Steps c g between after ys) :
    s.Steps c (fun r => f r >>= g) before after (xs ++ ys) := by
  intro facts
  show f (before facts) >>= g = _
  rw [first facts, stateAll_append]
  simp only [bind_assoc, pure_bind]
  refine congrArg _ (funext fun new => ?_)
  rw [second]
  simp

theorem lift {r : Realizer} {r' : Coverage} {step : Coverage → Noted Coverage}
    (steps : s.Steps c step ({ r.toCoverage with facts := · }) ({ r' with facts := · }) needs) :
    s.Steps c (fun r : Realizer => do return { r with toCoverage := ← step r.toCoverage }) ({ r with facts := · })
      ({ r' with facts := ·, insts := r.insts }) needs := by
  intro facts
  simp [steps facts]

end Steps

/-! ### The tables -/

/-- The tables tell which needs were seen to. A block is marked for its branches and its loop exits at once, after the
loops above it. -/
structure Tracks (s : Subject) (r : Coverage) (seen : List Need) : Prop where
  funcs : ∀ f context, (f, context) ∈ r.funcs ↔ ⟨.function f, context⟩ ∈ seen
  loops : ∀ l context, (l, context) ∈ r.loops ↔ ⟨.loop l, context⟩ ∈ seen
  branches : ∀ b context, (b, context) ∈ r.blocks ↔ ⟨.branches b, context⟩ ∈ seen
  exits : ∀ b context, (b, context) ∈ r.blocks ↔ ⟨.exits b, context⟩ ∈ seen
  above : ∀ b x context, s.program.blocks[b]? = some x → (b, context) ∈ r.blocks →
    ∀ l ∈ s.loopsAbove x.func b, (l, context) ∈ r.loops

theorem Tracks.congr {r : Coverage} {seen seen' : List Need} (tracks : s.Tracks r seen)
    (same : ∀ k, k ∈ seen ↔ k ∈ seen') : s.Tracks r seen' where
  funcs f context := (tracks.funcs f context).trans (same _)
  loops l context := (tracks.loops l context).trans (same _)
  branches b context := (tracks.branches b context).trans (same _)
  exits b context := (tracks.exits b context).trans (same _)
  above := tracks.above

section
variable {r : Coverage} {f : FuncId} {b : BlockId} {v : ValueId} {context : Context}

theorem place?_eq_some : s.place? v = some (b, f) ↔
    ∃ op x, s.program.kind? v = some (.inst b op) ∧ s.program.blocks[b]? = some x ∧ x.func = f := by
  unfold place?
  cases kind : s.program.kind? v with
  | none => simp
  | some k =>
    cases k with
    | inst d op =>
      simp only [Kind.block?, Option.bind_some, Option.bind_eq_bind, Option.bind_eq_some_iff, Option.pure_def,
        Option.some.injEq, Prod.mk.injEq, Kind.inst.injEq]
      constructor
      · rintro ⟨x, hx, rfl, rfl⟩
        exact ⟨op, x, ⟨rfl, rfl⟩, hx, rfl⟩
      · rintro ⟨_, x, ⟨rfl, rfl⟩, hx, rfl⟩
        exact ⟨x, hx, rfl, rfl⟩
    | _ => simp [Kind.block?]

theorem realizeFunction_steps (tracks : s.Tracks r seen) (placed : s.place? v = some (b, f)) :
    let needs := Need.inContext context (s.functionTasks v)
    ∃ r', s.Tracks r' (Need.keys needs ++ seen) ∧
      s.Steps c (s.realizeFunction c f context) ({ r with facts := · }) ({ r' with facts := · })
        (Need.dropSeen seen needs) := by
  intro needs
  by_cases once : s.survey.funcOnce f = true
  · have none : needs = [] := by simp [needs, functionTasks, placed, once, Need.inContext]
    rw [none]
    refine ⟨r, tracks, fun facts => ?_⟩
    simp [realizeFunction, once, Need.dropSeen, stateAll_nil]
  have one : needs = [⟨.function f, context⟩] := by simp [needs, functionTasks, placed, once, Need.inContext]
  rw [one]
  by_cases known : (f, context) ∈ r.funcs
  · have met := (tracks.funcs f context).1 known
    have all : ∀ n ∈ [⟨.function f, context⟩], ∃ k ∈ seen, Need.key? n = some k := by simpa [Need.key?] using met
    refine ⟨r, tracks.congr (Need.mem_keys_append all), fun facts => ?_⟩
    simp [realizeFunction, known, Need.dropSeen_eq_nil all, stateAll_nil]
  · have unmet := mt (tracks.funcs f context).2 known
    refine ⟨{ r with funcs := (f, context) :: r.funcs }, ?_, fun facts => ?_⟩
    · exact {
        funcs := by simp [Need.keys, Need.key?, tracks.funcs]
        loops := by simp [Need.keys, Need.key?, tracks.loops]
        branches := by simp [Need.keys, Need.key?, tracks.branches]
        exits := by simp [Need.keys, Need.key?, tracks.exits]
        above := tracks.above }
    · simp [realizeFunction, known, once, Need.dropSeen, Need.key?, unmet, stateAll_singleton, taskFacts, cover]

theorem realizeLoop_steps (c : Capture) (l : LoopId) (context : Context)
    (loops : ∀ l context, (l, context) ∈ r.loops ↔ ⟨.loop l, context⟩ ∈ seen) :
    ∃ marked, (∀ j context', (j, context') ∈ marked ↔ ⟨.loop j, context'⟩ ∈ Need.keys [⟨.loop l, context⟩] ++ seen) ∧
      s.Steps c (s.realizeLoop c context · l) ({ r with facts := · }) ({ r with loops := marked, facts := · })
        (Need.dropSeen seen [⟨.loop l, context⟩]) := by
  by_cases known : (l, context) ∈ r.loops
  · have met := (loops l context).1 known
    have all : ∀ n ∈ [⟨.loop l, context⟩], ∃ k ∈ seen, Need.key? n = some k := by simpa [Need.key?] using met
    refine ⟨r.loops, fun j context' => (loops j context').trans (Need.mem_keys_append all _), fun facts => ?_⟩
    simp [realizeLoop, known, Need.dropSeen_eq_nil all, stateAll_nil]
  · have unmet := mt (loops l context).2 known
    refine ⟨(l, context) :: r.loops, by simp [Need.keys, Need.key?, loops], fun facts => ?_⟩
    simp [realizeLoop, known, Need.dropSeen, Need.key?, unmet, stateAll_singleton, taskFacts, cover]

theorem realizeLoops_steps (c : Capture) (context : Context) (ls : List LoopId)
    (loops : ∀ l context, (l, context) ∈ r.loops ↔ ⟨.loop l, context⟩ ∈ seen) :
    let needs := Need.inContext context (ls.map .loop)
    ∃ marked, (∀ l context', (l, context') ∈ marked ↔ ⟨.loop l, context'⟩ ∈ Need.keys needs ++ seen) ∧
      s.Steps c (fun r => ls.foldlM (s.realizeLoop c context) r) ({ r with facts := · })
        ({ r with loops := marked, facts := · }) (Need.dropSeen seen needs) := by
  induction ls generalizing r seen with
  | nil => exact ⟨r.loops, loops, .pure _⟩
  | cons l rest ih =>
    intro needs
    have split : needs = [⟨.loop l, context⟩] ++ Need.inContext context (rest.map .loop) := rfl
    obtain ⟨marked, mem_marked, first⟩ := realizeLoop_steps (s := s) c l context loops
    obtain ⟨marked', mem_marked', later⟩ := ih (r := { r with loops := marked }) mem_marked
    rw [split, Need.keys_append, Need.dropSeen_append]
    refine ⟨marked', fun j context' => ?_, ?_⟩
    · rw [mem_marked']
      simp only [List.mem_append]
      tauto
    · simpa only [List.foldlM_cons] using first.comp later

theorem realizeBlock_steps (tracks : s.Tracks r seen) (placed : s.place? v = some (b, f)) :
    let needs := Need.inContext context (s.blockTasks v)
    ∃ r', s.Tracks r' (Need.keys needs ++ seen) ∧
      s.Steps c (s.realizeBlock c f b context) ({ r with facts := · }) ({ r' with facts := · })
        (Need.dropSeen seen needs) := by
  intro needs
  obtain ⟨op, x, -, hx, rfl⟩ := place?_eq_some.1 placed
  let around := Need.inContext context ((s.loopsAbove x.func b).map .loop)
  have split : needs = around ++ [⟨.branches b, context⟩, ⟨.exits b, context⟩] := by
    simp [needs, around, blockTasks, placed, Need.inContext]
  by_cases known : (b, context) ∈ r.blocks
  · have met : ∀ n ∈ needs, ∃ k ∈ seen, n.key? = some k := by
      rw [split]
      simp only [List.forall_mem_append, List.forall_mem_cons, around, Need.inContext, List.forall_mem_map]
      refine ⟨fun l hl => ⟨_, ?_, rfl⟩, ⟨_, ?_, rfl⟩, ⟨_, ?_, rfl⟩, by simp⟩
      · exact (tracks.loops l context).1 (tracks.above b x context hx known l hl)
      · exact (tracks.branches b context).1 known
      · exact (tracks.exits b context).1 known
    refine ⟨r, tracks.congr (Need.mem_keys_append met), fun facts => ?_⟩
    simp [realizeBlock, known, Need.dropSeen_eq_nil met, stateAll_nil]
  · have marks (n : Need) : n ∈ Need.keys around ↔ ∃ l ∈ s.loopsAbove x.func b, n = ⟨.loop l, context⟩ := by
      simp [around, Need.mem_keys, Need.inContext, Need.key?, eq_comm]
    obtain ⟨marked, mem_marked, loops⟩ := realizeLoops_steps (s := s) c context
      (r := { r with blocks := (b, context) :: r.blocks }) (s.loopsAbove x.func b) tracks.loops
    let r' : Coverage := { r with blocks := (b, context) :: r.blocks, loops := marked }
    have edges : s.Steps c
        (fun r => do
          let r := s.cover c context (← s.branchFacts b) r
          return s.cover c context (← s.exitFacts b) r)
        ({ r' with facts := · }) ({ r' with facts := · }) ([⟨.branches b, context⟩] ++ [⟨.exits b, context⟩]) := by
      intro facts
      rw [stateAll_append, stateAll_singleton, stateAll_singleton]
      simp [taskFacts, cover]
    have unmet := mt (tracks.branches b context).2 known
    have unmet' := mt (tracks.exits b context).2 known
    have fresh : Need.dropSeen (Need.keys around ++ seen) [⟨.branches b, context⟩, ⟨.exits b, context⟩] =
        [⟨.branches b, context⟩] ++ [⟨.exits b, context⟩] := by
      simp [Need.dropSeen, Need.key?, marks, unmet, unmet']
    rw [split, Need.keys_append, Need.dropSeen_append, fresh]
    refine ⟨r', ?_, fun facts => ?_⟩
    · have own : Need.keys [⟨.branches b, context⟩, ⟨.exits b, context⟩] =
          [⟨.branches b, context⟩, ⟨.exits b, context⟩] := rfl
      rw [own]
      exact {
        funcs := by simp [r', marks, tracks.funcs]
        loops := by simp [r', around, mem_marked]
        branches := by simp [r', marks, tracks.branches]
        exits := by simp [r', marks, tracks.exits]
        above := fun d y context' hy mem l hl => by
          refine (mem_marked l context').2 (List.mem_append.2 ?_)
          rcases List.mem_cons.1 mem with same | mem
          · obtain ⟨rfl, rfl⟩ := Prod.mk.inj same
            cases hx.symm.trans hy
            exact .inl ((marks _).2 ⟨l, hl, rfl⟩)
          · exact .inr ((tracks.loops l context').1 (tracks.above d y context' hy mem l hl)) }
    · rw [realizeBlock, if_neg (by simpa using known)]
      exact loops.comp edges facts

end

/-! ### Instructions and the calls above them -/

section
variable {t : Task} {i v : ValueId} {chain remaining : List ValueId} {context : Context}

theorem exists_key (context : Context) (mem : t ∈ s.chainTasks chain) : ∃ k, Need.key? ⟨t, context⟩ = some k := by
  obtain ⟨i, -, here | here⟩ := mem_chainTasks.1 mem
  · obtain ⟨b, f, -, -, rfl⟩ | ⟨-, -, rfl⟩ := mem_functionTasks.1 here <;> exact ⟨_, rfl⟩
  · obtain ⟨b, f, -, ⟨l, -, rfl⟩ | rfl | rfl⟩ := mem_blockTasks.1 here <;> exact ⟨_, rfl⟩

/-- All that a question about the value needs was seen to. -/
def Settled (s : Subject) (seen : List Need) (context : Context) (v : ValueId) : Prop :=
  ∀ n ∈ Need.inContext context (s.chainTasks (s.callerChain v)), ∃ k ∈ seen, n.key? = some k

theorem Settled.mono {seen' : List Need} (settled : s.Settled seen context v) (more : seen ⊆ seen') :
    s.Settled seen' context v := by
  intro n hn
  obtain ⟨k, hk, key⟩ := settled n hn
  exact ⟨k, more hk, key⟩

/-- The tables, and that a value with nothing to state of it was asked for. -/
structure Follows (s : Subject) (r : Realizer) (seen : List Need) : Prop extends s.Tracks r.toCoverage seen where
  asked : ∀ v context, ⟨.nothing v, context⟩ ∈ seen → (v, context) ∈ r.insts

theorem closure_of_mem {next : Nat → List Nat} (mem : v ∈ remaining) :
    closure next remaining [v] = v :: closure next (remaining.erase v) (next v) := by
  rw [closure, dif_pos mem, List.append_nil]

theorem closure_of_notMem {next : Nat → List Nat} (out : v ∉ remaining) : closure next remaining [v] = [] := by
  rw [closure, dif_neg out, closure]

theorem mem_valueIds_of_place? {b : BlockId} {f : FuncId} (placed : s.place? v = some (b, f)) : v ∈ s.program.valueIds := by
  obtain ⟨op, x, kind, -⟩ := place?_eq_some.1 placed
  exact List.mem_range.2 (Program.lt_of_kind? kind)

section
variable {r : Realizer} {b : BlockId} {f : FuncId}

theorem realizeInstruction_of_mem (known : (v, context) ∈ r.insts) : s.realizeInstruction c v context r = pure r := by
  rw [realizeInstruction, dif_pos (by simpa using known)]

variable (new : (v, context) ∉ r.insts)
include new

theorem realizeInstruction_of_none (unplaced : s.place? v = none) :
    s.realizeInstruction c v context r = pure { r with insts := (v, context) :: r.insts } := by
  rw [realizeInstruction, dif_neg (by simpa using new)]
  split
  · rfl
  · rename_i placed
    cases unplaced.symm.trans placed

theorem realizeInstruction_of_some (placed : s.place? v = some (b, f)) : s.realizeInstruction c v context r = (do
    let covered ← s.realizeFunction c f context r.toCoverage
    let caller : Noted Realizer := match s.survey.callSites f with
      | [site] => s.realizeInstruction c site context { covered with insts := (v, context) :: r.insts }
      | _ => pure { covered with insts := (v, context) :: r.insts }
    let r' ← caller
    return { r' with toCoverage := ← s.realizeBlock c f b context r'.toCoverage }) := by
  rw [realizeInstruction, dif_neg (by simpa using new)]
  split
  · rename_i unplaced
    cases placed.symm.trans unplaced
  · rename_i placed'
    cases placed.symm.trans placed'
    rfl

end

/-- The calls above an instruction are being followed. What does not remain was begun, and what remains and is marked
was seen to before. -/
structure Underway (s : Subject) (context : Context) (remaining : List ValueId) (r : Realizer) (seen : List Need) : Prop
    extends s.Follows r seen where
  distinct : remaining.Nodup
  inside : remaining ⊆ s.program.valueIds
  begun : ∀ i ∈ s.program.valueIds, i ∉ remaining → (i, context) ∈ r.insts
  settled : ∀ i ∈ remaining, (i, context) ∈ r.insts → s.Settled seen context i

/-- Realizing an instruction states what its chain needs, and marks nothing but the chain. -/
def Visits (s : Subject) (c : Capture) (context : Context) (remaining : List ValueId) (v : ValueId) (r : Realizer)
    (seen : List Need) : Prop :=
  let chain := closure s.uniqueCaller remaining [v]
  let needs := Need.inContext context (s.chainTasks chain)
  ∃ r', s.Follows r' (Need.keys needs ++ seen) ∧
    (∀ i context', (i, context') ∈ r'.insts →
      (i, context') ∈ r.insts ∨ i ∉ s.program.valueIds ∨ context' = context ∧ i ∈ chain) ∧
    s.Steps c (s.realizeInstruction c v context) ({ r with facts := · }) ({ r' with facts := · })
      (Need.dropSeen seen needs)

namespace Underway
variable {r : Realizer} (underway : s.Underway context remaining r seen)
include underway

/-- What is marked was seen to, or it is being seen to further down and starts no chain. -/
theorem visits_of_mem (known : (v, context) ∈ r.insts) : s.Visits c context remaining v r seen := by
  unfold Visits
  intro chain needs
  have met : ∀ n ∈ needs, ∃ k ∈ seen, n.key? = some k := by
    by_cases here : v ∈ remaining
    · intro n hn
      refine underway.settled v here known n ?_
      obtain ⟨t, ht, rfl⟩ := List.mem_map.1 hn
      obtain ⟨i, hi, task⟩ := mem_chainTasks.1 ht
      refine List.mem_map.2 ⟨t, mem_chainTasks.2 ⟨i, ?_, task⟩, rfl⟩
      rw [mem_closure] at hi
      exact mem_closure.2 (hi.mono underway.inside fun x mem here => .start mem (underway.inside here))
    · simp [needs, chain, closure_of_notMem here, chainTasks, Need.inContext]
  refine ⟨r, ⟨underway.toTracks.congr (Need.mem_keys_append met), fun i context' mem => ?_⟩, fun i _ => .inl,
    fun facts => ?_⟩
  · exact underway.asked i context' ((Need.mem_keys_append met _).2 mem)
  · simp [realizeInstruction_of_mem (r := { r with facts }) known, Need.dropSeen_eq_nil met, stateAll_nil]

theorem visits_of_none (new : (v, context) ∉ r.insts) (placed : s.place? v = none) :
    s.Visits c context remaining v r seen := by
  unfold Visits
  intro chain needs
  have few : needs = [] ∨ needs = [⟨.nothing v, context⟩] := by
    by_cases here : v ∈ remaining
    · have alone : chain = [v] := by simp [chain, closure_of_mem here, uniqueCaller, placed, closure]
      simp only [needs, alone, chainTasks_cons, functionTasks, blockTasks, placed]
      split <;> simp [chainTasks, Need.inContext] at *
    · simp [needs, chain, closure_of_notMem here, chainTasks, Need.inContext]
  have unseen : (⟨.nothing v, context⟩ : Need) ∉ seen := mt (underway.asked v context) new
  refine ⟨{ r with insts := (v, context) :: r.insts }, ⟨?tracks, ?asked⟩, ?marked, ?steps⟩
  case tracks =>
    rcases few with none | one
    · exact none ▸ underway.toTracks
    · rw [one]
      exact {
        funcs := by simp [Need.keys, Need.key?, underway.funcs]
        loops := by simp [Need.keys, Need.key?, underway.loops]
        branches := by simp [Need.keys, Need.key?, underway.branches]
        exits := by simp [Need.keys, Need.key?, underway.exits]
        above := underway.above }
  case asked =>
    intro i context' mem
    rcases List.mem_append.1 mem with listed | mem
    · rcases few with none | one
      · simp [none, Need.keys] at listed
      · simp_all [Need.keys, Need.key?]
    · exact .tail _ (underway.asked i context' mem)
  case marked =>
    intro i context' mem
    rcases List.mem_cons.1 mem with same | mem
    · obtain ⟨rfl, rfl⟩ := Prod.mk.inj same
      by_cases here : i ∈ remaining
      · exact .inr (.inr ⟨rfl, mem_closure.2 (.start List.mem_cons_self here)⟩)
      · exact .inr (.inl fun exists_value => new (underway.begun i exists_value here))
    · exact .inl mem
  case steps =>
    intro facts
    have states : s.stateAll c (Need.dropSeen seen needs) = pure [] := by
      rcases few with none | one
      · rw [none, Need.dropSeen, stateAll_nil]
      · simp [one, Need.dropSeen, Need.key?, unseen, stateAll_singleton, taskFacts]
    simp [realizeInstruction_of_none (r := { r with facts }) new placed, states]

omit underway in
theorem steps_caller {b : BlockId} {f : FuncId} {r₁ : Coverage} {insts : List (ValueId × Context)}
    (following : s.Underway context remaining { r₁ with insts } seen) (placed : s.place? v = some (b, f))
    (callers : ∀ site, s.Visits c context remaining site { r₁ with insts } seen) :
    let chain := closure s.uniqueCaller remaining (s.uniqueCaller v)
    let needs := Need.inContext context (s.chainTasks chain)
    ∃ r₂, s.Follows r₂ (Need.keys needs ++ seen) ∧
      (∀ i context', (i, context') ∈ r₂.insts →
        (i, context') ∈ insts ∨ i ∉ s.program.valueIds ∨ context' = context ∧ i ∈ chain) ∧
      s.Steps c (fun covered : Coverage => match s.survey.callSites f with
        | [site] => s.realizeInstruction c site context { covered with insts }
        | _ => pure { covered with insts }) ({ r₁ with facts := · }) ({ r₂ with facts := · })
        (Need.dropSeen seen needs) := by
  intro chain needs
  by_cases only : ∃ site, s.survey.callSites f = [site]
  · obtain ⟨site, single⟩ := only
    have follow : s.uniqueCaller v = [site] := by simp [uniqueCaller, placed, single]
    simp only [single, needs, chain, follow]
    exact callers site
  · have ends : s.uniqueCaller v = [] := by
      simp only [uniqueCaller, placed, Option.map_some]
      split
      · rename_i site single
        exact absurd ⟨site, Option.some.inj single⟩ only
      · rfl
    have none : needs = [] := by simp [needs, chain, ends, closure, chainTasks, Need.inContext]
    rw [none]
    refine ⟨_, following.toFollows, fun i _ => .inl, fun facts => ?_⟩
    dsimp only
    split
    · rename_i site single
      exact absurd ⟨site, single⟩ only
    · simp [Need.dropSeen, stateAll_nil]

/-- Once the function of an instruction is seen to, its call is followed with one instruction less. -/
theorem follow {b : BlockId} {f : FuncId} {r₁ : Coverage} (placed : s.place? v = some (b, f))
    (tracks : s.Tracks r₁ (Need.keys (Need.inContext context (s.functionTasks v)) ++ seen)) :
    s.Underway context (remaining.erase v) { r₁ with insts := (v, context) :: r.insts }
      (Need.keys (Need.inContext context (s.functionTasks v)) ++ seen) where
  toTracks := tracks
  asked i context' mem := by
    rcases List.mem_append.1 mem with listed | mem
    · simp only [functionTasks, placed] at listed
      split at listed <;> simp [Need.inContext, Need.keys, Need.key?] at listed
    · exact .tail _ (underway.asked i context' mem)
  distinct := underway.distinct.erase v
  inside := fun i hi => underway.inside (List.mem_of_mem_erase hi)
  begun i exists_value out := by
    by_cases same : i = v
    · exact same ▸ List.mem_cons_self
    · exact .tail _ (underway.begun i exists_value fun hi => out ((List.mem_erase_of_ne same).2 hi))
  settled i hi asked := by
    obtain ⟨ne, hi⟩ := underway.distinct.mem_erase_iff.1 hi
    have before : (i, context) ∈ r.insts := (List.mem_cons.1 asked).resolve_left fun same => ne (Prod.mk.inj same).1
    exact (underway.settled i hi before).mono (List.subset_append_right _ _)

/-- The calls further up are seen to between the function of an instruction and its block. -/
theorem visits_of_some {b : BlockId} {f : FuncId} (new : (v, context) ∉ r.insts) (placed : s.place? v = some (b, f))
    (callers : ∀ site r' seen', s.Underway context (remaining.erase v) r' seen' →
      s.Visits c context (remaining.erase v) site r' seen') : s.Visits c context remaining v r seen := by
  unfold Visits
  intro chain needs
  have here : v ∈ remaining := by
    by_contra out
    exact new (underway.begun v (mem_valueIds_of_place? placed) out)
  let chain' := closure s.uniqueCaller (remaining.erase v) (s.uniqueCaller v)
  let own := Need.inContext context (s.functionTasks v)
  let above := Need.inContext context (s.chainTasks chain')
  let around := Need.inContext context (s.blockTasks v)
  have split : chain = v :: chain' := closure_of_mem here
  have parts : needs = own ++ (above ++ around) := by
    simp [needs, split, chainTasks_cons, own, above, around, Need.inContext]
  obtain ⟨r₁, tracks₁, function⟩ := realizeFunction_steps (c := c) underway.toTracks placed
  obtain ⟨r₂, follows₂, marked₂, caller⟩ := (underway.follow placed tracks₁).steps_caller placed fun site =>
    callers site _ _ (underway.follow placed tracks₁)
  obtain ⟨r₃, tracks₃, block⟩ := realizeBlock_steps (c := c) follows₂.toTracks placed
  have keyed (k : Need) : k ∈ Need.keys around ++ (Need.keys above ++ (Need.keys own ++ seen)) ↔
      k ∈ Need.keys needs ++ seen := by
    simp only [parts, Need.keys_append, List.mem_append]
    tauto
  refine ⟨{ r₃ with insts := r₂.insts }, ⟨tracks₃.congr keyed, ?asked⟩, ?marked, ?steps⟩
  case asked =>
    intro i context' mem
    rcases List.mem_append.1 ((keyed _).2 mem) with listed | mem
    · obtain ⟨n, hn, key⟩ := Need.mem_keys.1 listed
      simp only [around, blockTasks, placed, Need.inContext, List.map_append, List.map_map, List.mem_append,
        List.mem_map, List.map_cons, List.mem_cons, List.map_nil, List.not_mem_nil, or_false] at hn
      rcases hn with ⟨l, -, rfl⟩ | rfl | rfl <;> cases key
    · exact follows₂.asked i context' mem
  case marked =>
    intro i context' mem
    rw [split]
    rcases marked₂ i context' mem with mem | out | ⟨same, mem⟩
    · rcases List.mem_cons.1 mem with same | mem
      · exact .inr (.inr ⟨(Prod.mk.inj same).2, (Prod.mk.inj same).1 ▸ List.mem_cons_self⟩)
      · exact .inl mem
    · exact .inr (.inl out)
    · exact .inr (.inr ⟨same, .tail _ mem⟩)
  case steps =>
    intro facts
    rw [realizeInstruction_of_some (r := { r with facts }) new placed, parts, Need.dropSeen_append,
      Need.dropSeen_append]
    exact function.comp (caller.comp block.lift) facts

end Underway

theorem Underway.visits {r : Realizer} {remaining : List ValueId} {v : ValueId} {seen : List Need}
    (underway : s.Underway context remaining r seen) : s.Visits c context remaining v r seen := by
  by_cases known : (v, context) ∈ r.insts
  · exact underway.visits_of_mem known
  cases placed : s.place? v with
  | none => exact underway.visits_of_none known placed
  | some place =>
    have here : v ∈ remaining := by
      by_contra out
      exact known (underway.begun v (mem_valueIds_of_place? placed) out)
    exact underway.visits_of_some known placed fun site r' seen' later => later.visits
termination_by remaining.length
decreasing_by
  have shorter := List.length_erase_of_mem here
  have pos := List.length_pos_of_mem here
  omega

/-! ### Leaves -/

/-- Between questions, all that is marked was seen to. -/
structure Rests (s : Subject) (r : Realizer) (seen : List Need) : Prop extends s.Follows r seen where
  settled : ∀ v context, v ∈ s.program.valueIds → (v, context) ∈ r.insts → s.Settled seen context v

/-- The step states what is needed and was not seen to before. -/
def Meets (s : Subject) (c : Capture) (step : Realizer → Noted Realizer) (needs : List Need) : Prop :=
  ∀ r seen, s.Rests r seen → ∃ r', s.Rests r' (Need.keys needs ++ seen) ∧
    s.Steps c step ({ r with facts := · }) ({ r' with facts := · }) (Need.dropSeen seen needs)

theorem Rests.congr {r : Realizer} {seen seen' : List Need} (rests : s.Rests r seen)
    (same : ∀ k, k ∈ seen ↔ k ∈ seen') : s.Rests r seen' where
  toTracks := rests.toTracks.congr same
  asked v context mem := rests.asked v context ((same _).2 mem)
  settled v context inside mem := (rests.settled v context inside mem).mono fun k hk => (same k).1 hk

namespace Meets
variable {f g : Realizer → Noted Realizer} {α : Type}

protected theorem pure : s.Meets c pure [] := fun r _ rests => ⟨r, rests, .pure _⟩

theorem comp (first : s.Meets c f xs) (second : s.Meets c g ys) : s.Meets c (fun r => f r >>= g) (xs ++ ys) := by
  intro r seen rests
  obtain ⟨r₁, rests₁, steps₁⟩ := first r seen rests
  obtain ⟨r₂, rests₂, steps₂⟩ := second r₁ _ rests₁
  refine ⟨r₂, rests₂.congr fun k => ?_, ?_⟩
  · simp only [Need.keys_append, List.mem_append]
    tauto
  · rw [Need.dropSeen_append]
    exact steps₁.comp steps₂

theorem foldlM {step : Realizer → α → Noted Realizer} {needs : α → List Need} (as : List α)
    (each : ∀ a ∈ as, s.Meets c (step · a) (needs a)) :
    s.Meets c (fun r => as.foldlM step r) (as.flatMap needs) := by
  induction as with
  | nil => exact .pure
  | cons a rest ih =>
    obtain ⟨first, others⟩ := List.forall_mem_cons.1 each
    simpa only [List.foldlM_cons, List.flatMap_cons] using first.comp (ih others)

theorem absent (v : ValueId) (context : Context) :
    s.Meets c (fun _ => throw (.unknownValue v)) [⟨.absent v, context⟩] := by
  refine fun r seen rests => ⟨r, rests, fun facts => ?_⟩
  simp [Need.dropSeen, Need.key?, stateAll_singleton, taskFacts]

theorem restate {t : Task} {context : Context} (unkeyed : Need.key? ⟨t, context⟩ = none) :
    s.Meets c (fun r => do return { r with toCoverage := s.cover c context (← s.taskFacts t) r.toCoverage })
      [⟨t, context⟩] := by
  intro r seen rests
  refine ⟨r, by simpa [Need.keys, unkeyed] using rests, fun facts => ?_⟩
  simp [Need.dropSeen, unkeyed, stateAll_singleton, cover]

end Meets

theorem Settled.of_mem_callerChain (mem : i ∈ s.callerChain v) :
    s.Settled (Need.keys (Need.inContext context (s.chainTasks (s.callerChain v))) ++ seen) context i := by
  intro n hn
  obtain ⟨t, ht, rfl⟩ := List.mem_map.1 hn
  obtain ⟨k, key⟩ := exists_key context ht
  obtain ⟨j, hj, task⟩ := mem_chainTasks.1 ht
  have further : j ∈ s.callerChain v := by
    rw [callerChain, mem_closure] at hj mem ⊢
    refine hj.mono (List.Subset.refl _) fun x start _ => ?_
    exact (List.mem_singleton.1 start) ▸ mem
  refine ⟨k, List.mem_append_left _ (Need.mem_keys.2 ⟨⟨t, context⟩, ?_, key⟩), key⟩
  exact List.mem_map.2 ⟨t, mem_chainTasks.2 ⟨j, further, task⟩, rfl⟩

theorem realizeInstruction_meets {k : Kind} (kind : s.program.kind? v = some k) (context : Context) :
    s.Meets c (s.realizeInstruction c v context) (Need.inContext context (s.instructionTasks v)) := by
  intro r seen rests
  have underway : s.Underway context s.program.valueIds r seen := {
    toFollows := rests.toFollows
    distinct := List.nodup_range
    inside := List.Subset.refl _
    begun := fun i inside out => absurd inside out
    settled := fun i inside mem => rests.settled i context inside mem }
  obtain ⟨r', follows, marked, steps⟩ := underway.visits (c := c) (v := v)
  rw [show s.instructionTasks v = s.chainTasks (s.callerChain v) by rw [instructionTasks, kind]]
  refine ⟨r', ⟨follows, fun i context' inside mem => ?_⟩, steps⟩
  rcases marked i context' mem with mem | out | ⟨rfl, mem⟩
  · exact (rests.settled i context' inside mem).mono (List.subset_append_right _ _)
  · exact absurd inside out
  · exact .of_mem_callerChain mem

theorem realizeSite_meets (context : Context) (v : ValueId) :
    s.Meets c (s.realizeSite c context · v) (Need.inContext context (s.instructionTasks v)) := by
  unfold realizeSite
  rw [Program.kind_eq]
  cases kind : s.program.kind? v with
  | none => simpa [instructionTasks, kind, Need.inContext] using Meets.absent v context
  | some k => simpa using realizeInstruction_meets kind context

theorem settled_param {f : FuncId} {index : Nat} (kind : s.program.kind? v = some (.param f index)) :
    s.Settled seen context v ↔ ⟨.nothing v, context⟩ ∈ seen := by
  have unplaced : s.place? v = none := by simp [place?, kind, Kind.block?]
  have here : v ∈ s.program.valueIds := List.mem_range.2 (Program.lt_of_kind? kind)
  have alone : s.callerChain v = [v] := by simp [callerChain, closure_of_mem here, uniqueCaller, unplaced, closure]
  simp [Settled, alone, chainTasks, functionTasks, blockTasks, unplaced, kind, Need.inContext, Need.key?]

theorem argument_meets {f : FuncId} {index : Nat} (kind : s.program.kind? v = some (.param f index)) :
    s.Meets c (fun r => do
      if r.insts.contains (v, context) then return r
      let binding ← s.inArgument v
      return { s.cover c context binding.toList r.toCoverage with insts := (v, context) :: r.insts })
      [⟨.argument v, context⟩] := by
  intro r seen rests
  have here : v ∈ s.program.valueIds := List.mem_range.2 (Program.lt_of_kind? kind)
  by_cases known : (v, context) ∈ r.insts
  · have met := (settled_param kind).1 (rests.settled v context here known)
    have all : ∀ n ∈ [⟨.argument v, context⟩], ∃ k ∈ seen, Need.key? n = some k := by simpa [Need.key?] using met
    refine ⟨r, rests.congr (Need.mem_keys_append all), fun facts => ?_⟩
    simp [known, Need.dropSeen_eq_nil all, stateAll_nil]
  · have unmet := mt (rests.asked v context) known
    refine ⟨{ r with insts := (v, context) :: r.insts }, ?_, fun facts => ?_⟩
    · exact {
        funcs := by simp [Need.keys, Need.key?, rests.funcs]
        loops := by simp [Need.keys, Need.key?, rests.loops]
        branches := by simp [Need.keys, Need.key?, rests.branches]
        exits := by simp [Need.keys, Need.key?, rests.exits]
        above := rests.above
        asked := fun i context' mem => by
          rcases List.mem_cons.1 mem with same | mem
          · cases same
            exact List.mem_cons_self
          · exact .tail _ (rests.asked i context' mem)
        settled := fun i context' inside mem => by
          rcases List.mem_cons.1 mem with same | mem
          · cases same
            exact (settled_param kind).2 List.mem_cons_self
          · exact (rests.settled i context' inside mem).mono (List.subset_cons_self _ _) }
    · simp [known, Need.dropSeen, Need.key?, unmet, stateAll_singleton, taskFacts, cover]

theorem realizeParameter_meets (context : Context) (v : ValueId) :
    s.Meets c (s.realizeParameter c v context) (Need.inContext context (s.parameterTasks (c.isFixed s.program) v)) := by
  unfold realizeParameter parameterTasks
  rw [Program.kind_eq]
  cases kind : s.program.kind? v with
  | none => simpa [Need.inContext] using Meets.absent v context
  | some k =>
    cases k with
    | param f index =>
      cases fixed : c.isFixed s.program v with
      | true => simpa [fixed, Need.inContext] using Meets.pure
      | false => simpa [fixed, Need.inContext] using argument_meets kind
    | _ => simpa [Need.inContext] using Meets.pure

theorem realizeCall_meets (context : Context) (call : ValueId × ValueId) :
    s.Meets c (s.realizeCall c context · call)
      (Need.inContext context ((s.owner? call.2).map (Task.binding call.1)).toList) := by
  obtain ⟨site, next⟩ := call
  dsimp only [realizeCall]
  cases s.owner? next with
  | none => exact .pure
  | some f => exact .restate (t := .binding site f) rfl

theorem realizeCallstack_meets (context : Context) (stack : List ValueId) (v : ValueId) :
    s.Meets c (s.realizeCallstack c stack v context)
      (Need.inContext context (s.activationTasks (c.isFixed s.program) stack v)) := by
  have sites := Meets.foldlM stack fun site _ => realizeSite_meets (s := s) (c := c) context site
  have calls := Meets.foldlM (stack.zip (stack.tail ++ [v])) fun call _ =>
    realizeCall_meets (s := s) (c := c) context call
  have later := sites.comp calls
  unfold realizeCallstack activationTasks bindingTasks
  simp only [Need.inContext_append, Need.inContext_flatMap, List.filterMap_eq_flatMap_toList, List.append_assoc,
    Program.kind_eq]
  cases kind : s.program.kind? v with
  | none => simpa [Need.inContext] using (Meets.absent v context).comp later
  | some k =>
    simp only [Noted.liftM_ok, pure_bind]
    cases k with
    | inst => exact (realizeInstruction_meets kind context).comp later
    | _ =>
      -- a parameter is asked for when no call leads to it
      cases stack.isEmpty with
      | true => exact (realizeParameter_meets context v).comp later
      | false => exact Meets.pure.comp later

theorem realizeLeaf_meets (l : Leaf) : s.Meets c (s.realizeLeaf c · l) (s.leafNeeds (c.isFixed s.program) l) := by
  unfold realizeLeaf leafNeeds
  cases l.ref with
  | result v stack => exact realizeCallstack_meets l.context stack v
  | operand site _ => exact realizeSite_meets l.context site.user
  | previous _ => exact .pure

theorem rests_empty : s.Rests {} [] where
  funcs := by simp
  loops := by simp
  branches := by simp
  exits := by simp
  above := by simp
  asked := by simp
  settled := by simp

/-- Realizing states the plan without its repetitions. -/
theorem realizeLeaves_eq (c : Capture) (ls : List Leaf) :
    s.realizeLeaves c ls = s.stateAll c (Need.dropSeen [] (ls.flatMap (s.leafNeeds (c.isFixed s.program)))) := by
  obtain ⟨r, -, steps⟩ := Meets.foldlM ls (fun l _ => realizeLeaf_meets (c := c) l) {} [] rests_empty
  have all := steps []
  dsimp only at all
  rw [realizeLeaves, all]
  simp

theorem realize_eq (c : Capture) (q : Clause) :
    s.realize c q = s.stateAll c (Need.dropSeen [] (s.needs (c.isFixed s.program) q)) :=
  realizeLeaves_eq c q.leaves

end
end Subject
end SsaFacts
