import SsaFacts.Proofs.Paths

/-! Natural loops of a graph in which one block is the start. A loop is given by its header, and two of them
are nested or have no block in common that is reached from the start. A cycle belongs to a loop if one of
its blocks dominates the others. -/
namespace SsaFacts

variable {next : Nat → List Nat} {start : Nat} {vs : List Nat} {b c h k l x : Nat}

structure Latch (next : Nat → List Nat) (start h l : Nat) : Prop where
  reaches : Reaches next start l
  edge : h ∈ next l
  dominates : Dominates next start h l

/-- The header of a loop, or what leads to one of its latches without passing the header. -/
def InLoop (next : Nat → List Nat) (start h b : Nat) : Prop :=
  b = h ∨ ∃ l, Latch next start h l ∧ Avoids next h b l

namespace InLoop

theorem header : InLoop next start h h := .inl rfl

/-- The header dominates the blocks of its loop that are reached. -/
theorem dominates (inside : InLoop next start h b) : Dominates next start h b := by
  rcases inside with rfl | ⟨l, latch, rest⟩
  · exact .refl b
  · by_contra outside
    exact latch.dominates.not_avoids (not_dominates_iff.1 outside) rest

theorem not_header (dominates : Dominates next start h k) (ne : h ≠ k) (reaches : Reaches next start k) :
    ¬InLoop next start k h :=
  fun inside => ne (dominates.antisymm inside.dominates reaches)

/-- Where a loop contains the header of another one, it contains the other one. -/
theorem nested (inside : InLoop next start h k) (ne : h ≠ k) (reaches : Reaches next start k)
    (member : InLoop next start k b) : InLoop next start h b := by
  obtain ⟨latch, isLatch, rest⟩ := inside.resolve_left (Ne.symm ne)
  rcases member with rfl | ⟨l, isLatch', vs, path, out⟩
  · exact inside
  · -- The way to the inner latch does not pass the outer header, which the inner loop does not contain.
    have avoids : h ∉ vs := fun hit =>
      not_header inside.dominates ne reaches (.inr ⟨l, isLatch', .of_mem path out hit⟩)
    have toLatch : Avoids next h b l := ⟨vs, path, avoids⟩
    exact .inr ⟨latch, isLatch, toLatch.trans ((Avoids.edge toLatch.ne_last ne isLatch'.edge).trans rest)⟩

/-- Of two loops with a block in common, the one whose header dominates contains the other header. -/
theorem of_common (dominates : Dominates next start h k) (ne : h ≠ k) (reaches : Reaches next start b)
    (outer : InLoop next start h b) (inner : InLoop next start k b) :
    InLoop next start h k := by
  have hk : Reaches next start k := inner.dominates.reaches reaches
  have toHeader : Avoids next k start h := not_dominates_iff.1 fun back =>
    ne (dominates.antisymm back hk)
  rcases outer with rfl | ⟨l, latch, rest⟩
  · exact absurd inner (not_header dominates ne hk)
  · -- From its last visit to the inner header on, a way to the common block does not pass the outer one.
    obtain ⟨vs, path⟩ := reaches
    obtain ⟨front, back, rfl, last, -, after⟩ := path.cut_last (inner.dominates vs path)
    refine .inr ⟨l, latch, .trans ⟨_, after, ?_⟩ rest⟩
    rw [List.mem_append, List.mem_singleton]
    rintro (hit | same)
    · obtain ⟨later, between, rfl⟩ := List.append_of_mem hit
      rw [List.append_assoc, List.cons_append] at after
      have again : k ∈ later := inner.dominates.mem_of_avoids toHeader after.cut.2
      exact last (List.mem_append_left _ again)
    · exact ne same

theorem laminar (reaches : Reaches next start b) (first : InLoop next start h b)
    (second : InLoop next start k b) :
    (∀ x, InLoop next start h x → InLoop next start k x) ∨
      ∀ x, InLoop next start k x → InLoop next start h x := by
  by_cases same : h = k
  · exact .inl fun x => same ▸ id
  rcases first.dominates.total second.dominates reaches with dominates | dominates
  · have inside := of_common dominates same reaches first second
    exact .inr fun x => nested inside same (second.dominates.reaches reaches)
  · have inside := of_common dominates (Ne.symm same) reaches second first
    exact .inl fun x => nested inside (Ne.symm same) (first.dominates.reaches reaches)

/-- A block on a cycle that one of the cycle's blocks dominates is in the loop of that block. -/
theorem of_cycle (reaches : Reaches next start b) (cycle : Path next b vs b) (turns : 1 < vs.length)
    (mem : h ∈ vs) (dominates : ∀ x ∈ vs, Dominates next start h x) :
    InLoop next start h b ∧ ∃ l, Latch next start h l := by
  have isLatch {l : Nat} (hl : l ∈ vs) (edge : h ∈ next l) : Latch next start h l := by
    obtain ⟨ws, path⟩ := reaches
    exact ⟨(path.append cycle).reaches_of_mem ((path.mem_append cycle).2 (.inr hl)), edge, dominates l hl⟩
  by_cases same : b = h
  · subst same
    cases cycle with
    | refl => simp at turns
    | step path edge => exact ⟨.header, _, isLatch (.tail _ path.mem_last) edge⟩
  · obtain ⟨front, back, rfl, first, before, -⟩ := cycle.cut_first mem
    cases before with
    | refl => exact absurd rfl same
    | step path edge =>
      have latch := isLatch (List.mem_append_right _ (.tail _ path.mem_last)) edge
      exact ⟨.inr ⟨_, latch, back, path, first⟩, _, latch⟩

end InLoop

theorem Path.exists_cycle (path : Path next start vs c) (twice : 1 < vs.count b) :
    ∃ ws, Path next b ws b ∧ 1 < ws.length := by
  have mem : b ∈ vs := List.count_pos_iff.1 (by omega)
  obtain ⟨front, back, rfl, last, before, -⟩ := path.cut_last mem
  have again : b ∈ back := by
    rw [List.count_append, List.count_cons_self, List.count_eq_zero_of_not_mem last] at twice
    exact List.count_pos_iff.1 (by omega)
  cases before with
  | refl => cases again
  | step path edge =>
    obtain ⟨_, _, -, -, -, after⟩ := path.cut_last again
    exact ⟨_, after.step edge, by simp⟩

end SsaFacts
