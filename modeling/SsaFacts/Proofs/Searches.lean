import SsaFacts.Proofs.EdgeExclusions

/-! Searches in the flow graph. A search that starts at a block and never enters a sink finds exactly the blocks to
which a way leads around the sink, each once. Along the edges of a program, a search against the edges finds exactly
the blocks from which such a way leads to its start. -/
namespace SsaFacts

/-- A way leads from `a` to `b` that passes no block of `sink`. -/
def Evades (next : Nat → List Nat) (sink : List Nat) (a b : Nat) : Prop := ∃ vs, Path next a vs b ∧ ∀ x ∈ vs, x ∉ sink

theorem Evades.last_notMem {next : Nat → List Nat} {sink : List Nat} {a b : Nat} (evades : Evades next sink a b) :
    b ∉ sink := by
  obtain ⟨vs, path, all⟩ := evades
  exact all b path.mem_last

namespace FlowGraph
variable {g : FlowGraph} {start b : BlockId} {sink : List BlockId}

theorem nodup_reach : (g.reach start sink).Nodup := reach_perm_closure.nodup_iff.2 (nodup_closure nodup_outside)

theorem nodup_reachBack : (g.reachBack start sink).Nodup :=
  reachBack_perm_closure.nodup_iff.2 (nodup_closure nodup_outside)

theorem reachBack_of_mem_sink (sunk : start ∈ sink) : g.reachBack start sink = [] := by
  rw [reachBack, if_neg (by simp [mem_outside, sunk])]

section
variable (known : start < g.size ∨ start ∈ sink)
include known

theorem reachFrom_eq_ok : g.reachFrom start sink = .ok (g.reach start sink) :=
  if_pos (by simpa using known)

theorem reachTo_eq_ok : g.reachTo start sink = .ok (g.reachBack start sink) :=
  if_pos (by simpa using known)

variable {p : Program} (made : ofProgram p = .ok g)
include made

/-- Where no edge leads out of the graph, a way around the sink stays in it. -/
theorem mem_reach_of_ofProgram : b ∈ g.reach start sink ↔ Evades p.targets sink start b := by
  have shows_p := shows_of_ofProgram made
  rw [mem_reach_iff]
  simp only [shows_p.path_iff]
  constructor
  · rintro ⟨vs, path, all⟩
    exact ⟨vs, path, fun x hx => (all x hx).2⟩
  · rintro ⟨vs, path, all⟩
    refine ⟨vs, path, fun x hx => ⟨?_, all x hx⟩⟩
    obtain ⟨ws, reached⟩ := path.reaches_of_mem hx
    cases reached with
    | refl => exact known.resolve_right (all start path.mem_first)
    | step _ edge => exact shows_p.size_eq ▸ targets_lt_of_ofProgram made _ _ edge

theorem mem_reachBack_of_ofProgram : b ∈ g.reachBack start sink ↔ Evades p.targets sink b start := by
  by_cases sunk : start ∈ sink
  · rw [reachBack_of_mem_sink sunk]
    exact iff_of_false List.not_mem_nil fun evades => evades.last_notMem sunk
  · exact (shows_of_ofProgram made).mem_reachBack (known.resolve_right sunk)

end

/-- A search returns from every block of every table of edges, or at once from a block of the sink. It finds each
block once, and it finds those that are reached by a way through rows of the table outside the sink. In the graph of
a program these are the blocks that the jumps of the program lead to around the sink, and a search against the edges
finds the blocks whose jumps lead to its start. -/
theorem searches_exact (g : FlowGraph) (start : BlockId) (sink : List BlockId)
    (known : start < g.size ∨ start ∈ sink) :
    (∃ found, g.reachFrom start sink = .ok found ∧ found.Nodup ∧
      ∀ b, b ∈ found ↔ ∃ vs, Path g.next start vs b ∧ ∀ x ∈ vs, x < g.size ∧ x ∉ sink) ∧
    ∀ p, ofProgram p = .ok g →
      (∃ found, g.reachFrom start sink = .ok found ∧ ∀ b, b ∈ found ↔ Evades p.targets sink start b) ∧
      ∃ found, g.reachTo start sink = .ok found ∧ found.Nodup ∧ ∀ b, b ∈ found ↔ Evades p.targets sink b start := by
  refine ⟨⟨_, reachFrom_eq_ok known, nodup_reach, fun b => mem_reach_iff⟩, fun p made => ⟨?_, ?_⟩⟩
  · exact ⟨_, reachFrom_eq_ok known, fun b => mem_reach_of_ofProgram known made⟩
  · exact ⟨_, reachTo_eq_ok known, nodup_reachBack, fun b => mem_reachBack_of_ofProgram known made⟩

/-- Around one of two blocks that branch to each other, the exit is still reached from the entry through the other.
Against the edges and around that other one, the exit leads back to the orphan alone. -/
theorem searches_exact_entwined : ∃ g found back, ofProgram .entwined = .ok g ∧
    g.reachFrom 0 [1] = .ok found ∧ found.Nodup ∧ 3 ∈ found ∧ 1 ∉ found ∧
    g.reachTo 3 [2] = .ok back ∧ back.Nodup ∧ 4 ∈ back ∧ 1 ∉ back := by
  obtain ⟨g, made, shows_p⟩ := ofProgram_ok Program.confined_entwined
  have size : g.size = 5 := shows_p.size_eq
  obtain ⟨⟨found, searched, nodup, -⟩, forward⟩ := searches_exact g 0 [1] (.inl (size ▸ by decide))
  obtain ⟨-, backward⟩ := searches_exact g 3 [2] (.inl (size ▸ by decide))
  obtain ⟨⟨found', searched', mem_found⟩, -⟩ := forward _ made
  obtain ⟨-, back, turned, nodup', mem_back⟩ := backward _ made
  cases searched.symm.trans searched'
  refine ⟨g, found, back, made, searched, nodup, ?_, ?_, turned, nodup', ?_, ?_⟩
  · rw [mem_found]
    exact ⟨[3, 2, 0], .step (.step .refl (by decide)) (by decide), by decide⟩
  · rw [mem_found]
    exact fun evades => evades.last_notMem (by decide)
  · rw [mem_back]
    exact ⟨[3, 4], .step .refl (by decide), by decide⟩
  · rw [mem_back]
    rintro ⟨vs, path, all⟩
    -- the only way on from block 1 enters the sink
    have stays : ∀ {ws b}, Path Program.entwined.targets 1 ws b → (∀ x ∈ ws, x ∉ [2]) → b = 1 := by
      intro ws b path all
      induction path with
      | refl => rfl
      | step _ edge ih =>
        obtain ⟨here, all⟩ := List.forall_mem_cons.1 all
        obtain rfl := ih all
        exact absurd edge here
    cases stays path all

end FlowGraph
end SsaFacts
