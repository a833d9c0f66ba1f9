import SsaFacts.Proofs.Renaming
import SsaFacts.Proofs.Verdicts

/-! The facts that are stated for a question. Each need is met on its own, whatever else is needed, and the
facts of a task speak of the default activation until they are moved to the context of their need. So where
two questions need the same in other contexts, the facts of one are those of the other in other contexts. -/
namespace SsaFacts

open Smt

/-- The leaf has the width of its value. -/
def Leaf.Modelled (p : Program) (l : Leaf) : Prop := l.width = p.modelWidth l.value

/-- The leaf has the width of its value and belongs to the default activation. -/
structure Leaf.Bare (p : Program) (l : Leaf) : Prop where
  modelled : l.Modelled p
  context_eq : l.context = 0

def Expr.Bare (p : Program) (e : Expr) : Prop := ∀ l ∈ e.leaves, l.Bare p

def Clause.Bare (p : Program) (c : Clause) : Prop := ∀ l ∈ c.leaves, l.Bare p

theorem typed_modelled (p : Program) : Typed (Leaf.Modelled p) := by
  intro l m hl hm name
  rw [hl, hm, (Leaf.solverName_inj name).2.1]

/-- A leaf of the default activation comes to the other context by way of this one. -/
theorem Leaf.Bare.tag_exchanged {p : Program} {l : Leaf} (h : l.Bare p) (capture : Capture) (context : Context) :
    capture.tag p (Equiv.swap 1 2 context) l = Renaming.exchange.leaf (capture.tag p context l) := by
  have default := h.context_eq
  obtain ⟨ref, width, _⟩ := l
  cases default
  unfold Capture.tag
  split <;> rfl

section
variable {p : Program} {e l r : Expr} {c : Clause}

theorem Expr.Stated.bare (h : e.Stated p) : e.Bare p := by
  intro l hl
  obtain ⟨v, -, rfl⟩ := h.leaf_eq hl
  exact ⟨rfl, rfl⟩

theorem Clause.Stated.bare (h : c.Stated p) : c.Bare p := by
  intro l hl
  obtain ⟨v, -, rfl⟩ := h.leaf_eq hl
  exact ⟨rfl, rfl⟩

theorem Clause.compare_bare (pred : Predicate) (hl : l.Bare p) (hr : r.Bare p) :
    Gives (compare pred l r) (Bare p) := by
  intro c hc
  unfold compare at hc
  split at hc
  · cases hc
    simpa [Bare, leaves, exprs] using List.forall_mem_append.2 ⟨hl, hr⟩
  · cases hc

theorem Clause.bare_and {a b : Clause} (ha : a.Bare p) (hb : b.Bare p) : (Clause.and a b).Bare p := by
  simpa [Bare, leaves, exprs] using List.forall_mem_append.2 ⟨ha, hb⟩

theorem Clause.bare_or {a b : Clause} (ha : a.Bare p) (hb : b.Bare p) : (Clause.or a b).Bare p := by
  simpa [Bare, leaves, exprs] using List.forall_mem_append.2 ⟨ha, hb⟩

theorem Clause.Bare.exchanged (h : c.Bare p) : c.mapLeaves Renaming.exchange.leaf = c := by
  refine Clause.mapLeaves_eq_self fun l hl => ?_
  have context := (h l hl).context_eq
  obtain ⟨ref, width, _⟩ := l
  cases context
  rfl

end

namespace Subject
variable (s : Subject)

theorem unreachableFacts_stated (f : FuncId) :
    Gives (s.unreachableFacts f) fun cs => ∀ c ∈ cs, c.Stated s.program :=
  (s.edgeExclusions_stated f).bind fun _ hedges => (s.markerFacts_stated f).bind fun _ hmarkers =>
    .pure (List.forall_mem_append.2 ⟨hedges, hmarkers⟩)

theorem inFunction_stated (f : FuncId) :
    Gives (s.inFunction f) fun cs => ∀ c ∈ cs, c.Stated s.program := by
  have inInstruction (i : ValueId) : Gives (s.inInstruction i) fun cs => ∀ c ∈ cs, c.Stated s.program := by
    refine .after fun seen => ?_
    split
    · exact .pure (by simp)
    · refine (s.inUser_stated i).bind fun o ho => (s.inLibraryCall_stated i).bind fun cs hcs => .pure ?_
      exact List.forall_mem_append.2 ⟨by simpa using ho, hcs⟩
  unfold inFunction
  split
  · exact .pure (by simp)
  · refine .after fun fn => ?_
    refine (Gives.mapM fun i _ => (inInstruction i).lift).bind fun facts hfacts => ?_
    refine (s.unreachableFacts_stated f).bind fun edges hedges => .pure ?_
    exact List.forall_mem_append.2 ⟨s.flatten_stated hfacts, hedges⟩

theorem branchFacts_stated (b : BlockId) :
    Gives (s.branchFacts b) fun cs => ∀ c ∈ cs, c.Stated s.program := by
  refine (Gives.mapM fun step _ => ?_).bind fun facts hfacts => .pure (s.flatten_stated hfacts)
  exact .after fun block => .filterMapM fun e _ => s.excludeEdge_stated step.1 e.2

theorem exitFacts_stated (b : BlockId) :
    Gives (s.exitFacts b) fun cs => ∀ c ∈ cs, c.Stated s.program := by
  refine (Gives.mapM fun x _ => ?_).bind fun facts hfacts => .pure (s.flatten_stated hfacts)
  refine .after fun phis => .filterMapM fun phi _ => ?_
  show Gives (s.exitFact? x phi.1 phi.2) _
  unfold exitFact?
  split
  · split
    · exact .none
    · refine .after fun seen => ?_
      split
      · exact (s.equal_stated _ _).some
      · exact .none
  · exact .none

theorem bindingFacts_stated (site : ValueId) (callee : FuncId) :
    Gives (s.bindingFacts site callee) fun cs => ∀ c ∈ cs, c.Stated s.program := by
  refine .after fun f => .after fun spawned => .after fun args => ?_
  split
  · exact .after fun _ => .pure (by simp)
  · refine .filterMapM fun x _ => Gives.lift (.after fun actual => ?_)
    split
    · exact .none
    · refine .after fun w => .after fun w' => ?_
      split
      · exact .none
      · refine .after fun seen => ?_
        split
        · exact .none
        · exact (s.equal_stated _ _).some

theorem inLoopBody_stated (l : Loop) :
    Gives (s.inLoopBody l) fun cs => ∀ c ∈ cs, c.Stated s.program := by
  refine .filterMapM fun i _ => .after fun seen => ?_
  split
  · exact s.inUser_stated i
  · exact .none

theorem earlier_bare (l : Loop) {c : Clause} (h : c.Bare s.program) : (s.earlier l c).Bare s.program := by
  have each (x : Leaf) (hx : x.Bare s.program) : (s.earlierLeaf l x).Bare s.program := by
    unfold earlierLeaf
    split
    · rename_i v stack eq
      split
      · split
        · refine ⟨?_, hx.context_eq⟩
          have modelled := hx.modelled
          rw [Leaf.Modelled, Leaf.value, eq] at modelled
          exact modelled
        · exact hx
      · exact hx
    · exact hx
  rw [Clause.Bare, earlier, Clause.leaves_mapLeaves, List.forall_mem_map]
  exact fun x hx => each x (h x hx)

theorem previous_bare (v : ValueId) : Gives (s.previous v) (Expr.Bare s.program) :=
  (s.program.width_gives v).bind fun w hw => .pure fun l hl => by
    obtain rfl := List.mem_singleton.1 hl
    exact ⟨hw, rfl⟩

theorem recurrentBound_bare (l : Loop) (iv cond : ValueId) (ifTrue : BlockId) :
    Gives (s.recurrentBound l iv cond ifTrue) fun cs => ∀ c ∈ cs, c.Bare s.program := by
  have word (z : Int) : (Expr.ofInt wordWidth z).Stated s.program := Expr.stated_word z
  refine (s.program.leaf_stated iv).bind fun i hi => ?_
  refine (s.inLoopBody_stated l).bind fun body hbody => ?_
  refine (Expr.combine_stated .sub hi (word 1)).bind fun less hless => ?_
  refine (s.previous_bare iv).bind fun before hbefore => ?_
  refine (Clause.compare_bare .eq hbefore hless.bare).bind fun step hstep => ?_
  refine (s.previous_bare cond).bind fun held hheld => ?_
  refine (Clause.compare_bare .eq hheld (Expr.stated_bool _).bare).bind fun taken htaken => ?_
  refine (Clause.compare_bare .eq hi.bare (word 0).bare).bind fun first hfirst => ?_
  refine (Clause.compare_bare .sgt hi.bare (word 0).bare).bind fun later hlater => .pure ?_
  refine List.forall_mem_append.2 ⟨?_, ?_⟩
  · rw [List.forall_mem_map]
    exact fun c hc => s.earlier_bare l (hbody c hc).bare
  · simpa using ⟨hstep, Clause.bare_or hfirst (Clause.bare_and hlater htaken)⟩

theorem inLoop_bare (l : Loop) : Gives (s.inLoop l) fun cs => ∀ c ∈ cs, c.Bare s.program := by
  have closed (iv trip : ValueId) : Gives (s.closedBound iv trip) fun cs => ∀ c ∈ cs, c.Bare s.program := by
    refine (s.program.leaf_stated iv).bind fun i hi => ?_
    refine (Clause.compare_stated .sge hi (Expr.stated_word 0)).bind fun low hlow => ?_
    refine (s.program.leaf_stated trip).bind fun t ht => ?_
    refine (Clause.compare_stated .slt hi ht).bind fun high hhigh => .pure ?_
    simpa using ⟨hlow.bare, hhigh.bare⟩
  have bound : Gives (s.loopBound l) fun o => ∀ cs ∈ o, ∀ c ∈ cs, c.Bare s.program := by
    unfold loopBound
    split
    · refine .after fun op => ?_
      split
      · split
        · exact .none
        · split
          · exact (closed _ _).some
          · split
            · refine .after fun block => ?_
              split
              · exact (s.recurrentBound_bare l _ _ _).some
              · exact .none
            · exact .none
      · exact .none
    · exact .none
  refine bound.bind fun o ho => ?_
  cases o with
  | none => exact .pure (by simp)
  | some cs =>
    refine (s.inLoopBody_stated l).bind fun body hbody => .pure ?_
    exact List.forall_mem_append.2 ⟨ho cs rfl, fun c hc => (hbody c hc).bare⟩

theorem taskFacts_bare (t : Task) : Gives (s.taskFacts t) fun cs => ∀ c ∈ cs, c.Bare s.program := by
  have stated {x : Noted (List Clause)} (h : Gives x fun cs => ∀ c ∈ cs, c.Stated s.program) :
      Gives x fun cs => ∀ c ∈ cs, c.Bare s.program :=
    fun cs hcs c hc => (h cs hcs c hc).bare
  cases t with
  | function f => exact stated (s.inFunction_stated f)
  | loop l => exact .after fun x => (s.inLoop_bare x).lift
  | branches b => exact stated (s.branchFacts_stated b)
  | exits b => exact stated (s.exitFacts_stated b).lift
  | argument v =>
    refine Gives.bind (s.inArgument_stated v).lift fun o ho => .pure ?_
    simpa using fun c hc => (ho c hc).bare
  | nothing v => exact .pure (by simp)
  | binding site callee => exact stated (s.bindingFacts_stated site callee)
  | absent v => exact fun cs hcs => nomatch hcs

end Subject

namespace Need

def exchanged (n : Need) : Need := { n with context := Equiv.swap 1 2 n.context }

theorem exchanged_exchanged (n : Need) : n.exchanged.exchanged = n := by
  simp [exchanged]

end Need

/-- The calls and the user that a reference names. -/
def Ref.sites : Ref → List ValueId
  | result _ stack => stack
  | operand site _ => [site.user]
  | previous _ => []

namespace Subject
variable {s : Subject} {c : Capture} {t : Task} {ds facts : List Clause} {f : Clause} {n : Need} {needs : List Need}
  {ns ns' : List Notice} {isFixed : ValueId → Bool}

def States (s : Subject) (t : Task) (ds : List Clause) : Prop := ∃ ns ns', s.taskFacts t ns = (.ok ds, ns')

theorem States.unique {ds' : List Clause} (h : s.States t ds) (h' : s.States t ds') : ds = ds' := by
  obtain ⟨ns, ns', run⟩ := h
  obtain ⟨ms, ms', run'⟩ := h'
  obtain ⟨_, again⟩ := (s.oblivious_taskFacts t).run_eq run ms
  cases again.symm.trans run'
  rfl

def Provides (s : Subject) (c : Capture) (n : Need) (f : Clause) : Prop :=
  ∃ ds, s.States n.task ds ∧ ∃ d ∈ ds, d.mapLeaves (c.tag s.program n.context) = f

theorem stateAll_eq_ok (run : s.stateAll c needs ns = (.ok facts, ns')) :
    (∀ n ∈ needs, ∃ ds, s.States n.task ds) ∧ ∀ f, f ∈ facts ↔ ∃ n ∈ needs, s.Provides c n f := by
  obtain ⟨lists, ns₁, mapped, rest⟩ := run_bind_eq_ok run
  cases rest
  refine ⟨fun n hn => ?_, ?_⟩
  · obtain ⟨ms, ms', ds, stated, -⟩ := exists_of_run_mapM mapped hn
    obtain ⟨ds, ms'', stated, -⟩ := run_bind_eq_ok stated
    exact ⟨ds, ms, ms'', stated⟩
  · have each (n : Need) : Gives (do
        return (← s.taskFacts n.task).map (Clause.mapLeaves (c.tag s.program n.context)))
          fun cs => ∀ f, f ∈ cs ↔ s.Provides c n f := by
      refine Gives.bind (P := s.States n.task) (fun ds stated => stated) fun ds stated => .pure fun f => ?_
      rw [List.mem_map]
      constructor
      · exact fun ⟨d, hd, same⟩ => ⟨ds, stated, d, hd, same⟩
      · rintro ⟨ds', stated', d, hd, same⟩
        cases stated.unique stated'
        exact ⟨d, hd, same⟩
    exact fun f => Gives.mem_flatten_mapM (fun n _ => each n) lists ⟨ns, _, mapped⟩ f

theorem stateAll_ok (stated : ∀ n ∈ needs, ∃ ds, s.States n.task ds) (ns : List Notice) :
    ∃ facts ns', s.stateAll c needs ns = (.ok facts, ns') := by
  have each : ∀ n ∈ needs, ∀ ms, ∃ fs ms', (do
      return (← s.taskFacts n.task).map (Clause.mapLeaves (c.tag s.program n.context)) : Noted _) ms =
        (.ok fs, ms') := by
    intro n hn ms
    obtain ⟨ds, _, _, run⟩ := stated n hn
    obtain ⟨ms', again⟩ := (s.oblivious_taskFacts n.task).run_eq run ms
    exact ⟨_, ms', run_bind_ok again⟩
  obtain ⟨lists, ns', mapped⟩ := run_mapM_of_ok each ns
  exact ⟨lists.flatten, ns', run_bind_ok mapped⟩

theorem stateAll_modelled (s : Subject) (c : Capture) (needs : List Need) :
    Gives (s.stateAll c needs) fun fs => ∀ f ∈ fs, ∀ l ∈ f.leaves, l.Modelled s.program := by
  refine (Gives.mapM (Q := fun fs => ∀ f ∈ fs, ∀ l ∈ f.leaves, l.Modelled s.program) fun n _ => ?_).bind
    fun lists hlists => .pure ?_
  · refine (s.taskFacts_bare n.task).bind fun ds hds => .pure ?_
    rw [List.forall_mem_map]
    intro d hd
    rw [Clause.leaves_mapLeaves, List.forall_mem_map]
    intro l hl
    have modelled := (hds d hd l hl).modelled
    unfold Capture.tag
    split <;> exact modelled
  · intro f hf
    obtain ⟨fs, hfs, hf⟩ := List.mem_flatten.1 hf
    exact hlists fs hfs f hf

section
variable {ls : List Leaf} (apart : Need.Apart (ls.flatMap (s.leafNeeds (c.isFixed s.program))))
include apart

theorem realizeLeaves_eq_ok (run : s.realizeLeaves c ls ns = (.ok facts, ns')) :
    (∀ n ∈ ls.flatMap (s.leafNeeds (c.isFixed s.program)), ∃ ds, s.States n.task ds) ∧
      ∀ f, f ∈ facts ↔ ∃ n ∈ ls.flatMap (s.leafNeeds (c.isFixed s.program)), s.Provides c n f := by
  rw [realizeLeaves_eq] at run
  simpa only [Need.mem_dropSeen_nil apart] using stateAll_eq_ok run

theorem realizeLeaves_ok (stated : ∀ n ∈ ls.flatMap (s.leafNeeds (c.isFixed s.program)), ∃ ds, s.States n.task ds)
    (ns : List Notice) : ∃ facts ns', s.realizeLeaves c ls ns = (.ok facts, ns') := by
  rw [realizeLeaves_eq]
  exact stateAll_ok (fun n hn => stated n ((Need.mem_dropSeen_nil apart).1 hn)) ns

end

theorem argument_notMem_instructionTasks (v u : ValueId) : .argument v ∉ s.instructionTasks u := by
  unfold instructionTasks
  split
  · simp
  · simp [mem_chainTasks, mem_functionTasks, mem_blockTasks]

theorem activationTasks_of_argument {stack : List ValueId} {v u : ValueId}
    (mem : .argument v ∈ s.activationTasks isFixed stack u) :
    u = v ∧ isFixed v = false ∧ s.activationTasks isFixed stack u = [.argument v] := by
  have calls : .argument v ∉ stack.flatMap s.instructionTasks ++ s.bindingTasks stack u := by
    simp [bindingTasks, argument_notMem_instructionTasks]
  unfold activationTasks at mem ⊢
  rw [List.append_assoc] at mem ⊢
  have own := (List.mem_append.1 mem).resolve_right calls
  split at own
  · simp at own
  · exact absurd own (argument_notMem_instructionTasks v u)
  · rename_i kind _ _
    split at own
    · rename_i bare
      obtain rfl := List.isEmpty_iff.1 bare
      unfold parameterTasks at own ⊢
      split at own <;> simp_all [bindingTasks]
    · cases own

/-- Only a parameter without a call stack asks for its arguments, and it asks for nothing else. -/
theorem leafNeeds_of_argument {l : Leaf} {v : ValueId} {context : Context}
    (mem : ⟨.argument v, context⟩ ∈ s.leafNeeds isFixed l) :
    l.value = v ∧ isFixed v = false ∧ l.context = context ∧ s.leafNeeds isFixed l = [⟨.argument v, context⟩] := by
  obtain ⟨ref, width, context'⟩ := l
  obtain ⟨t, listed, same⟩ := List.mem_map.1 mem
  obtain ⟨rfl, rfl⟩ := Need.mk.inj same
  cases ref with
  | operand site => exact absurd listed (argument_notMem_instructionTasks v _)
  | previous => cases listed
  | result u stack =>
    obtain ⟨rfl, free, alone⟩ := activationTasks_of_argument listed
    refine ⟨rfl, free, rfl, ?_⟩
    simp [leafNeeds, alone, Need.inContext]

theorem apart_leafNeeds (isFixed : ValueId → Bool) (l : Leaf) : Need.Apart (s.leafNeeds isFixed l) := by
  intro v context mem
  simp [(leafNeeds_of_argument mem).2.2.2]

theorem leafNeeds_exchanged (isFixed : ValueId → Bool) (l : Leaf) :
    s.leafNeeds isFixed (Renaming.exchange.leaf l) = (s.leafNeeds isFixed l).map Need.exchanged := by
  rw [leafNeeds, leafNeeds, Need.inContext, Need.inContext, List.map_map]
  rfl

end Subject

/-- The clause with its comparisons turned around and the two activations of a question exchanged. -/
def Clause.counterpart (c : Clause) : Clause := c.mirrored.mapLeaves Renaming.exchange.leaf

namespace Clause
variable {c : Clause} {l : Leaf}

theorem mem_leaves_counterpart : l ∈ c.counterpart.leaves ↔ Renaming.exchange.leaf l ∈ c.leaves := by
  rw [counterpart, leaves_mapLeaves, List.mem_map]
  simp only [mem_leaves_mirrored]
  constructor
  · rintro ⟨m, hm, rfl⟩
    rwa [Renaming.exchange_exchange]
  · exact fun hl => ⟨_, hl, Renaming.exchange_exchange l⟩

/-- A fact of the default activation comes to the other context by way of this one. -/
theorem Bare.mapLeaves_tag {p : Program} (h : c.Bare p) (capture : Capture) (context : Context) :
    c.mapLeaves (capture.tag p (Equiv.swap 1 2 context)) =
      (c.mapLeaves (capture.tag p context)).mapLeaves Renaming.exchange.leaf := by
  rw [mapLeaves, mapLeaves, mapLeaves, subst_subst]
  exact subst_congr fun l hl => congrArg Expr.leaf ((h l hl).tag_exchanged capture context)

end Clause

namespace Classes
variable (cs : Classes)

theorem canonical_exchanged (c : Clause) :
    cs.canonical (c.mapLeaves Renaming.exchange.leaf) = (cs.canonical c).mapLeaves Renaming.exchange.leaf := by
  rw [canonical, canonical, Clause.mapLeaves, Clause.mapLeaves, Clause.subst_subst, Clause.subst_subst]
  refine Clause.subst_congr fun l _ => ?_
  obtain ⟨ref, width, context⟩ := l
  show cs.canonicalLeaf ⟨ref, width, _⟩ = _
  unfold canonicalLeaf
  dsimp only [Leaf.value]
  cases cs.root (.value ref.value) with
  | literal k => rfl
  | value v => cases ref <;> rfl

theorem canonical_counterpart (c : Clause) : cs.canonical c.counterpart = (cs.canonical c).counterpart := by
  rw [Clause.counterpart, Clause.counterpart, canonical_exchanged, canonical, canonical, Clause.subst_mirrored]

theorem Uniform.canonical_modelled {cs : Classes} {p : Program} (h : cs.Uniform p) {c : Clause}
    (modelled : ∀ l ∈ c.leaves, l.Modelled p) : ∀ l ∈ (cs.canonical c).leaves, l.Modelled p := by
  intro l hl
  rw [canonical, Clause.leaves_subst, List.mem_flatMap] at hl
  obtain ⟨m, hm, hl⟩ := hl
  have width : (cs.root (.value m.value)).width p = p.modelWidth m.value := (h (.value m.value)).width_eq
  rw [← modelled m hm] at width
  unfold canonicalLeaf at hl
  cases hr : cs.root (.value m.value) with
  | literal k => simp [hr, Expr.leaves] at hl
  | value v =>
    rw [hr] at hl width
    cases href : m.ref <;> rw [href] at hl <;> obtain rfl := List.mem_singleton.1 hl <;> exact width.symm

end Classes

namespace Subject
variable {s : Subject} {n : Need} {c : Clause} {d f : Clause} {isFixed : ValueId → Bool}

theorem mem_needs_counterpart : n ∈ s.needs isFixed c.counterpart ↔ n.exchanged ∈ s.needs isFixed c := by
  simp only [needs, List.mem_flatMap, Clause.mem_leaves_counterpart]
  constructor
  · rintro ⟨l, hl, hn⟩
    refine ⟨_, hl, ?_⟩
    rw [leafNeeds_exchanged]
    exact List.mem_map_of_mem hn
  · rintro ⟨l, hl, hn⟩
    refine ⟨Renaming.exchange.leaf l, by rwa [Renaming.exchange_exchange], ?_⟩
    rw [leafNeeds_exchanged, ← n.exchanged_exchanged]
    exact List.mem_map_of_mem hn

theorem provides_exchanged {capture : Capture} :
    s.Provides capture n.exchanged (f.mapLeaves Renaming.exchange.leaf) ↔ s.Provides capture n f := by
  have moved {ds : List Clause} (stated : s.States n.task ds) (d : Clause) (hd : d ∈ ds) :
      d.mapLeaves (capture.tag s.program n.exchanged.context) = f.mapLeaves Renaming.exchange.leaf ↔
        d.mapLeaves (capture.tag s.program n.context) = f := by
    have bare : d.Bare s.program := s.taskFacts_bare n.task ds stated d hd
    rw [Need.exchanged, bare.mapLeaves_tag]
    exact Renaming.involutive_exchange.injective.eq_iff
  refine exists_congr fun ds => and_congr_right fun stated => exists_congr fun d => ?_
  exact and_congr_right fun hd => moved stated d hd

theorem apart_counterpart (apart : Need.Apart (s.needs isFixed c)) : Need.Apart (s.needs isFixed c.counterpart) :=
  fun v _ mem mem' => apart v _ (mem_needs_counterpart.1 mem) (mem_needs_counterpart.1 mem')

/-- What is realized for the counterpart of a question are the facts of the question in the other activation. -/
theorem realize_counterpart {capture : Capture} {cs : List Clause} {ns ns' : List Notice}
    (apart : Need.Apart (s.needs (capture.isFixed s.program) c)) (run : s.realize capture c ns = (.ok cs, ns')) :
    ∃ cs' ns'', s.realize capture c.counterpart ns = (.ok cs', ns'') ∧
      ∀ f, f ∈ cs' ↔ f.mapLeaves Renaming.exchange.leaf ∈ cs := by
  obtain ⟨stated, mem⟩ := realizeLeaves_eq_ok apart run
  obtain ⟨cs', ns'', run'⟩ := realizeLeaves_ok (apart_counterpart apart)
    (fun n hn => stated n.exchanged (mem_needs_counterpart.1 hn)) ns
  refine ⟨cs', ns'', run', fun f => ?_⟩
  rw [mem, (realizeLeaves_eq_ok (apart_counterpart apart) run').2]
  constructor
  · rintro ⟨n, hn, provides⟩
    exact ⟨_, mem_needs_counterpart.1 hn, provides_exchanged.2 provides⟩
  · rintro ⟨n, hn, provides⟩
    rw [← n.exchanged_exchanged] at hn provides
    exact ⟨_, mem_needs_counterpart.2 hn, provides_exchanged.1 provides⟩

end Subject

namespace Engine
variable {e : Engine} {c : Clause} {facts : List Clause}

/-- No value of the question is asked for both as a parameter and as an instruction. -/
def Unambiguous (e : Engine) (c : Clause) : Prop := Need.Apart (e.subject.needs (e.capture.isFixed e.program) c)

theorem Unambiguous.counterpart (h : e.Unambiguous c) : e.Unambiguous c.counterpart := Subject.apart_counterpart h

theorem reduce_eq_ok {classes : Classes} {cs fs : List Clause} (run : reduce classes cs = .ok fs) :
    (∀ d ∈ cs, ∃ o, (classes.canonical d).simplify = .ok o) ∧
      ∀ f, f ∈ fs ↔ (∃ d ∈ cs, classes.canonical d = f) ∧ f.simplify ≠ .ok (some true) := by
  have tested := Checked.exists_of_filterM run
  rw [List.forall_mem_map] at tested
  have known (d : Clause) (hd : d ∈ cs) : ∃ o, (classes.canonical d).simplify = .ok o := by
    obtain ⟨b, hb⟩ := tested d hd
    obtain ⟨o, ho, -⟩ := Checked.bind_eq_ok.1 hb
    exact ⟨o, ho⟩
  refine ⟨known, fun f => ?_⟩
  rw [Checked.mem_of_filterM run, List.mem_map]
  refine and_congr_right ?_
  rintro ⟨d, hd, rfl⟩
  obtain ⟨o, ho⟩ := known d hd
  simp [ho]

theorem reduce_ok {classes : Classes} {cs : List Clause}
    (known : ∀ d ∈ cs, ∃ o, (classes.canonical d).simplify = .ok o) : ∃ fs, reduce classes cs = .ok fs := by
  have tested : ∀ f ∈ cs.map classes.canonical,
      ∃ b, (do return (← f.simplify) != some true : Checked Bool) = .ok b := by
    rw [List.forall_mem_map]
    intro d hd
    obtain ⟨o, ho⟩ := known d hd
    exact ⟨_, by rw [ho]; rfl⟩
  choose! q hq using tested
  exact ⟨_, Checked.filterM_ok hq⟩

/-- What is realized for the counterpart of a question are the facts of the question in the other activation. -/
theorem Realizes.counterpart (unambiguous : e.Unambiguous c) (h : e.Realizes c facts) :
    ∃ facts', e.Realizes c.counterpart facts' ∧ ∀ f, f ∈ facts' ↔ f.mapLeaves Renaming.exchange.leaf ∈ facts := by
  obtain ⟨ns, ns', run⟩ := h
  obtain ⟨cs, ns₁, stated, reduced⟩ := run_bind_eq_ok run
  obtain ⟨reduced, -⟩ := Prod.mk.inj reduced
  obtain ⟨known, kept⟩ := reduce_eq_ok reduced
  obtain ⟨cs', ns₂, stated', moved⟩ := Subject.realize_counterpart unambiguous stated
  have known' (d : Clause) (hd : d ∈ cs') : ∃ o, (e.classes.canonical d).simplify = .ok o := by
    obtain ⟨o, ho⟩ := known _ ((moved d).1 hd)
    rw [Classes.canonical_exchanged, Clause.simplify_renamed] at ho
    exact ⟨o, ho⟩
  obtain ⟨facts', reduced'⟩ := reduce_ok known'
  refine ⟨facts', ⟨ns, ns₂, (run_bind_ok stated').trans (by rw [reduced']; rfl)⟩, fun f => ?_⟩
  have undone (f : Clause) : (f.mapLeaves Renaming.exchange.leaf).mapLeaves Renaming.exchange.leaf = f :=
    Renaming.involutive_exchange f
  rw [(reduce_eq_ok reduced').2 f, kept, Clause.simplify_renamed]
  refine and_congr_left fun _ => ⟨?_, ?_⟩
  · rintro ⟨d, hd, rfl⟩
    exact ⟨_, (moved d).1 hd, e.classes.canonical_exchanged d⟩
  · rintro ⟨d, hd, same⟩
    refine ⟨d.mapLeaves Renaming.exchange.leaf, (moved _).2 (by rwa [undone]), ?_⟩
    rw [e.classes.canonical_exchanged, same, undone]

theorem Realizes.modelled (uniform : e.classes.Uniform e.program) (h : e.Realizes c facts) :
    ∀ f ∈ facts, ∀ l ∈ f.leaves, l.Modelled e.program := by
  obtain ⟨ns, ns', run⟩ := h
  obtain ⟨cs, ns₁, realized, reduced⟩ := run_bind_eq_ok run
  obtain ⟨reduced, -⟩ := Prod.mk.inj reduced
  intro f hf
  obtain ⟨⟨d, hd, rfl⟩, -⟩ := ((reduce_eq_ok reduced).2 f).1 hf
  rw [Subject.realize_eq] at realized
  exact uniform.canonical_modelled (e.subject.stateAll_modelled _ _ cs ⟨ns, ns₁, realized⟩ d hd)

end Engine
end SsaFacts
