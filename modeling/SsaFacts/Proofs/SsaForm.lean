import SsaFacts.Proofs.LoopNesting

/-! Static single assignment form: every use of an instruction is dominated by the instruction, and φs list the
predecessors of their blocks. -/
namespace SsaFacts
namespace Program
variable {p : Program} {g : FlowGraph} {u v : ValueId} {b : BlockId} {op : Op}

def home? (p : Program) (v : ValueId) : Option BlockId := (p.kind? v).bind Kind.block?

theorem home?_of_blockOf? {home : Option BlockId} (found : p.blockOf? v = .ok home) : p.home? v = home := by
  obtain ⟨k, kind, ⟨⟩⟩ := Checked.bind_eq_ok.1 found
  rw [home?, kind_eq_ok.1 kind, Option.bind_some]

theorem exists_home (isOp : p.op? v = .ok (some op)) : ∃ b, p.home? v = some b := by
  obtain ⟨x, b, hx, kind⟩ := exists_of_op? isOp
  exact ⟨b, kind?_block?.2 ⟨x, op, hx, kind⟩⟩

theorem exists_op (home : p.home? v = some b) : ∃ op, p.op? v = .ok (some op) := by
  obtain ⟨x, op, hx, kind⟩ := kind?_block?.1 home
  refine ⟨op, ?_⟩
  rw [op?, kind_eq_ok.2 (by rw [kind?, hx, Option.map_some]), kind]
  rfl

theorem Regular.home?_eq (regular : p.Regular) (mem : v ∈ p.instsOf b) : p.home? v = some b := by
  obtain ⟨x, hx, mem⟩ := mem_instsOf.1 mem
  exact kind?_block?.2 (regular.placed b x hx v mem)

theorem lt_of_home? (home : p.home? v = some b) : v < p.values.size := by
  obtain ⟨x, op, hx, -⟩ := kind?_block?.1 home
  exact (Array.getElem?_eq_some_iff.1 hx).1

/-- Control that comes from an entry to `b` has passed the block of `v`, if `v` is an instruction. -/
def Available (p : Program) (v : ValueId) (b : BlockId) : Prop :=
  ∀ f e d, p.IsEntry f e → p.home? v = some d → Dominates p.targets e d b

/-- Static single assignment form: a φ lists exactly the predecessors of its block, and the definition of
what is used comes before the use. -/
structure Ssa (p : Program) : Prop where
  regular : p.Regular
  confined : p.Confined
  listed : ∀ v b, p.home? v = some b → v ∈ p.instsOf b
  sources : ∀ b v incoming, v ∈ p.instsOf b → p.op? v = .ok (some (.phi incoming)) →
    ∀ a, a ∈ incoming.map (·.1) ↔ b ∈ p.targets a
  incoming : ∀ v incoming, p.op? v = .ok (some (.phi incoming)) →
    ∀ edge ∈ incoming, p.Available edge.2 edge.1
  operands : ∀ b v op, v ∈ p.instsOf b → p.op? v = .ok (some op) → (∀ incoming, op ≠ .phi incoming) →
    ∀ u ∈ op.operands, p.Available u b ∧ (p.home? u = some b → [u, v].Sublist (p.instsOf b))
  conditions : ∀ b x, p.blocks[b]? = some x → ∀ c ∈ x.term.condition?, p.Available c b

/-! ### A test -/

/-- Whether a value is available in a block, read off the reached blocks and the dominators. -/
def availableTest (p : Program) (reached : List BlockId) (doms : Dominators) (v : ValueId) (b : BlockId) : Bool :=
  (p.home? v).all fun d => !reached.contains b || doms.dominates d b

def sourcesTest (p : Program) (b : BlockId) (incoming : List (BlockId × ValueId)) : Bool :=
  (incoming.all fun edge => (p.targets edge.1).contains b) &&
    p.blockIds.all fun a => !(p.targets a).contains b || (incoming.map (·.1)).contains a

/-- Whether the operands of an instruction `v` of block `b` are defined before it. -/
def operandsTest (p : Program) (available : ValueId → BlockId → Bool) (b : BlockId) (v : ValueId) : Op → Bool
  | .phi incoming => p.sourcesTest b incoming && incoming.all fun edge => available edge.2 edge.1
  | op => op.operands.all fun u => available u b && (p.home? u != some b || [u, v].isSublist (p.instsOf b))

def ssaTest (p : Program) (available : ValueId → BlockId → Bool) : Bool :=
  (p.valueIds.all fun v => (p.home? v).all fun b => (p.instsOf b).contains v &&
    ((p.kind? v).bind Kind.op?).all (p.operandsTest available b v)) &&
  p.blockIds.all fun b => (p.blocks[b]?.bind (·.term.condition?)).all fun c => available c b

theorem available_of_test (confined : p.Confined) (shows_p : g.Shows p)
    (test : p.availableTest (g.reached p) (Dominators.ofProgram p g) v b = true) : p.Available v b := by
  intro f e d he home
  rw [availableTest, home, Option.all_some, Bool.or_eq_true, Bool.not_eq_true', List.contains_eq_mem,
    decide_eq_false_iff_not, shows_p.mem_reached confined] at test
  rcases test with out | dominates
  · exact fun vs path => absurd ⟨f, e, he, vs, path⟩ out
  · by_cases reaches : Reaches p.targets e b
    · exact (Dominators.dominates_eq_true confined shows_p he reaches).1 dominates
    · exact fun vs path => absurd ⟨vs, path⟩ reaches

theorem sources_of_test {incoming : List (BlockId × ValueId)} (test : p.sourcesTest b incoming = true) (a : BlockId) :
    a ∈ incoming.map (·.1) ↔ b ∈ p.targets a := by
  simp only [sourcesTest, Bool.and_eq_true, List.all_eq_true, Bool.or_eq_true, Bool.not_eq_true',
    List.contains_eq_mem, decide_eq_true_eq, decide_eq_false_iff_not] at test
  constructor
  · intro listed
    obtain ⟨edge, mem, rfl⟩ := List.mem_map.1 listed
    exact test.1 edge mem
  · intro mem
    obtain ⟨x, hx, -⟩ := mem_targets.1 mem
    have known := test.2 a (List.mem_range.2 (Array.getElem?_eq_some_iff.1 hx).1)
    exact known.resolve_left fun out => out mem

theorem ssa_of_test (regular : p.Regular) (confined : p.Confined)
    (test : (FlowGraph.ofProgram p).toOption.map (fun g =>
      p.ssaTest (p.availableTest (g.reached p) (Dominators.ofProgram p g))) = some true) : p.Ssa := by
  obtain ⟨g, made, shows_p⟩ := FlowGraph.ofProgram_ok confined
  rw [made] at test
  obtain ⟨insts, conditions⟩ := Bool.and_eq_true_iff.1 (Option.some.inj test)
  rw [List.all_eq_true] at insts conditions
  let available := p.availableTest (g.reached p) (Dominators.ofProgram p g)
  have available_of {v b} (test : available v b = true) : p.Available v b := available_of_test confined shows_p test
  have each {v b} (home : p.home? v = some b) : v ∈ p.instsOf b ∧
      ((p.kind? v).bind Kind.op?).all (p.operandsTest available b v) = true := by
    have each := insts v (List.mem_range.2 (lt_of_home? home))
    rwa [home, Option.all_some, Bool.and_eq_true, List.contains_iff_mem] at each
  have operation {v b op} (home : p.home? v = some b) (isOp : p.op? v = .ok (some op)) :
      p.operandsTest available b v op = true := by
    obtain ⟨k, kind, named⟩ := Checked.bind_eq_ok.1 isOp
    have tested := (each home).2
    rwa [kind_eq_ok.1 kind, Option.bind_some, Except.ok.inj named, Option.all_some] at tested
  have edges {v b incoming} (home : p.home? v = some b) (isPhi : p.op? v = .ok (some (.phi incoming))) :
      p.sourcesTest b incoming = true ∧ ∀ edge ∈ incoming, p.Available edge.2 edge.1 := by
    have tested := operation home isPhi
    rw [operandsTest, Bool.and_eq_true, List.all_eq_true] at tested
    exact ⟨tested.1, fun edge mem => available_of (tested.2 edge mem)⟩
  refine ⟨regular, confined, fun v b home => (each home).1, ?_, ?_, ?_, ?_⟩
  · intro b v incoming mem isPhi a
    exact sources_of_test (edges (regular.home?_eq mem) isPhi).1 a
  · intro v incoming isPhi edge mem
    obtain ⟨b, home⟩ := exists_home isPhi
    exact (edges home isPhi).2 edge mem
  · intro b v op mem isOp notPhi u used
    have tested := operation (regular.home?_eq mem) isOp
    have each : (available u b && (p.home? u != some b || [u, v].isSublist (p.instsOf b))) = true := by
      cases op with
      | phi incoming => exact absurd rfl (notPhi incoming)
      | _ => exact List.all_eq_true.1 tested u used
    rw [Bool.and_eq_true, Bool.or_eq_true, bne_iff_ne, List.isSublist_iff_sublist] at each
    exact ⟨available_of each.1, fun home => each.2.resolve_left fun other => other home⟩
  · intro b x hx c mem
    have each := conditions b (List.mem_range.2 (Array.getElem?_eq_some_iff.1 hx).1)
    rw [hx, Option.bind_some, Option.mem_def.1 mem, Option.all_some] at each
    exact available_of each

end Program
end SsaFacts
