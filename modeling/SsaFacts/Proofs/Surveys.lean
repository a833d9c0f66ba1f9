import SsaFacts.Proofs.Loops
import SsaFacts.Survey

/-! What a survey is put together from. -/
namespace SsaFacts
namespace Survey
variable {p : Program} {marked : List BlockId} {s : Survey} {b : BlockId} {f : FuncId}

def setting (p : Program) (marked : List BlockId) (s : Survey) (calls : CallGraph) : Execution.Setting where
  program := p
  calls
  runs := fun b => (s.graph.reached p).contains b && !marked.contains b
  inLoop := fun b => (s.innermost? b).isSome
  reached := calls.reachable p p.entryFunction?.toList

structure Parts (p : Program) (marked : List BlockId) (s : Survey) (forest : LoopForest) (calls : CallGraph)
    (execution : Execution) : Prop where
  graph_eq : FlowGraph.ofProgram p = .ok s.graph
  forest_eq : LoopForest.ofProgram p s.graph (.ofProgram p s.graph) (s.graph.reached p) = .ok forest
  calls_eq : CallGraph.ofProgram p = .ok calls
  execution_eq : Execution.ofSetting (setting p marked s calls) = .ok execution
  idom_eq : s.idom? = (Dominators.ofProgram p s.graph).idom?
  loops_eq : s.loops = forest.loops
  topLoops_eq : ∀ f < p.functions.size, s.topLoops f = forest.top f
  innermost_eq : ∀ b < p.blocks.size, s.innermost? b = forest.innermost? b
  funcOnce_eq : s.funcOnce = execution.funcOnce.contains
  instOnce_eq : s.instOnce = execution.instOnce.contains
  instDead_eq : s.instDead = execution.instDead.contains

theorem exists_parts (made : ofProgram p marked = .ok s) :
    ∃ forest calls execution, Parts p marked s forest calls execution := by
  obtain ⟨graph, hg, made⟩ := Checked.bind_eq_ok.1 made
  obtain ⟨forest, hforest, made⟩ := Checked.bind_eq_ok.1 made
  obtain ⟨calls, hcalls, made⟩ := Checked.bind_eq_ok.1 made
  obtain ⟨-, -, made⟩ := Checked.bind_eq_ok.1 made
  obtain ⟨execution, hexecution, made⟩ := Checked.bind_eq_ok.1 made
  obtain ⟨memory, -, made⟩ := Checked.bind_eq_ok.1 made
  cases made
  refine ⟨forest, calls, execution, hg, hforest, hcalls, hexecution, rfl, rfl, ?_, ?_, rfl, rfl, rfl⟩
  · intro f inside
    simp [Program.functionIds, inside]
  · intro b inside
    simp [Program.blockIds, inside]

structure Sharing (p : Program) (s : Survey) (calls : CallGraph) (memory : Memory) : Prop where
  calls_eq : CallGraph.ofProgram p = .ok calls
  memory_eq : Memory.ofProgram p calls = .ok memory
  callees_eq : s.callees = calls.callees
  mem_sites : ∀ f, ∀ i ∈ s.callSites f, i ∈ calls.sites p f
  mustAlias_eq : s.mustAlias = memory.mustAlias
  mayWrite_eq : s.mayWrite = memory.mayWrite calls

theorem exists_memory (made : ofProgram p marked = .ok s) : ∃ calls memory, Sharing p s calls memory := by
  obtain ⟨graph, -, made⟩ := Checked.bind_eq_ok.1 made
  obtain ⟨forest, -, made⟩ := Checked.bind_eq_ok.1 made
  obtain ⟨calls, hcalls, made⟩ := Checked.bind_eq_ok.1 made
  obtain ⟨-, -, made⟩ := Checked.bind_eq_ok.1 made
  obtain ⟨execution, -, made⟩ := Checked.bind_eq_ok.1 made
  obtain ⟨memory, hmemory, ⟨⟩⟩ := Checked.bind_eq_ok.1 made
  refine ⟨calls, memory, hcalls, hmemory, rfl, fun f i mem => ?_, rfl, rfl⟩
  by_cases inside : f < p.functions.size
  · simpa [Program.functionIds, inside] using mem
  · simp [Program.functionIds, inside] at mem

theorem exists_of_map_eq {α : Type} {read : Survey → α} {a : α}
    (found : (ofProgram p marked).toOption.map read = some a) : ∃ s, ofProgram p marked = .ok s ∧ read s = a := by
  cases made : ofProgram p marked with
  | error e =>
    rw [made] at found
    cases found
  | ok s =>
    rw [made] at found
    exact ⟨s, rfl, Option.some.inj found⟩

theorem shows_graph (confined : p.Confined) (made : ofProgram p marked = .ok s) : s.graph.Shows p := by
  obtain ⟨forest, calls, execution, parts⟩ := exists_parts made
  obtain ⟨g, hg, shows_p⟩ := FlowGraph.ofProgram_ok confined
  cases hg.symm.trans parts.graph_eq
  exact shows_p

end Survey
end SsaFacts
