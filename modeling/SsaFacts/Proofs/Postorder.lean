import Mathlib
import SsaFacts.Flow.Graph

/-! Ways along edges, and depth-first search. It leaves exactly the nodes that are reached, and leaves each of them before the
one from which it was entered. So in reverse postorder every node but the first comes after a predecessor. -/
namespace SsaFacts

variable {next : Nat → List Nat} {start : Nat}

/-- A way along edges and the nodes on it, the last one first. -/
inductive Path (next : Nat → List Nat) (start : Nat) : List Nat → Nat → Prop
  | refl : Path next start [start] start
  | step {vs : List Nat} {a b : Nat} (path : Path next start vs a) (edge : b ∈ next a) :
      Path next start (b :: vs) b

def Reaches (next : Nat → List Nat) (start b : Nat) : Prop := ∃ vs, Path next start vs b

theorem Reaches.refl : Reaches next start start := ⟨[start], .refl⟩

theorem Reaches.step {a b : Nat} (h : Reaches next start a) (edge : b ∈ next a) : Reaches next start b := by
  obtain ⟨vs, path⟩ := h
  exact ⟨b :: vs, path.step edge⟩

theorem Path.reaches_of_mem {vs : List Nat} {a b : Nat} (path : Path next start vs b) (ha : a ∈ vs) :
    Reaches next start a := by
  induction path with
  | refl =>
    obtain rfl := List.mem_singleton.1 ha
    exact .refl
  | step path edge ih =>
    rcases List.mem_cons.1 ha with rfl | ha
    · exact ⟨_, path.step edge⟩
    · exact ih ha

namespace Path
variable {prev : Nat → List Nat} {a b c x : Nat} {vs ws front back : List Nat}

theorem mem_last (path : Path next a vs b) : b ∈ vs := by
  cases path <;> exact List.mem_cons_self

theorem mem_first (path : Path next a vs b) : a ∈ vs := by
  induction path with
  | refl => exact List.mem_cons_self
  | step _ _ ih => exact .tail _ ih

theorem eq_of_leaf (leaf : next a = []) (path : Path next a vs b) : vs = [a] := by
  induction path with
  | refl => rfl
  | step path edge ih =>
    subst ih
    obtain rfl := List.mem_singleton.1 path.mem_last
    rw [leaf] at edge
    cases edge

theorem append (first : Path next a vs b) (second : Path next b ws c) :
    Path next a (ws ++ vs.tail) c := by
  induction second with
  | refl => cases first with
    | refl => exact .refl
    | step path edge => exact path.step edge
  | step _ edge ih => exact ih.step edge

theorem mem_append (first : Path next a vs b) (second : Path next b ws c) :
    x ∈ ws ++ vs.tail ↔ x ∈ vs ∨ x ∈ ws := by
  have meet := second.mem_first
  cases first <;> grind

theorem cut (path : Path next a (front ++ x :: back) c) :
    Path next a (x :: back) x ∧ Path next x (front ++ [x]) c := by
  generalize same : front ++ x :: back = vs at path
  induction path generalizing front with
  | refl =>
    obtain ⟨rfl, rfl, rfl⟩ : front = [] ∧ x = a ∧ back = [] := by
      cases front <;> simp_all
    exact ⟨.refl, .refl⟩
  | step path edge ih =>
    cases front with
    | nil =>
      obtain ⟨rfl, rfl⟩ := List.cons.inj same
      exact ⟨path.step edge, .refl⟩
    | cons y front =>
      obtain ⟨rfl, rest⟩ := List.cons.inj same
      obtain ⟨before, after⟩ := ih rest
      exact ⟨before, after.step edge⟩

theorem cut_last (path : Path next a vs c) (mem : x ∈ vs) :
    ∃ front back, vs = front ++ x :: back ∧ x ∉ front ∧ Path next a (x :: back) x ∧
      Path next x (front ++ [x]) c := by
  obtain ⟨front, back, rfl, last⟩ := List.eq_append_cons_of_mem mem
  exact ⟨front, back, rfl, last, path.cut⟩

theorem cut_first (path : Path next a vs c) (mem : x ∈ vs) :
    ∃ front back, vs = front ++ x :: back ∧ x ∉ back ∧ Path next a (x :: back) x ∧
      Path next x (front ++ [x]) c := by
  obtain ⟨back, front, same, first⟩ := List.eq_append_cons_of_mem (List.mem_reverse.2 mem)
  obtain rfl : vs = front.reverse ++ x :: back.reverse := by
    rw [← List.reverse_reverse vs, same]
    simp
  exact ⟨front.reverse, back.reverse, rfl, by simpa using first, path.cut⟩

theorem reverse (mirror : ∀ a b, a ∈ prev b ↔ b ∈ next a) (path : Path prev a vs b) :
    Path next b vs.reverse a := by
  induction path with
  | refl => exact .refl
  | step _ edge ih =>
    have turned := (Path.refl.step ((mirror _ _).1 edge)).append ih
    simpa using turned

end Path

/-- The nodes that are reached, each once, and each but the first after one of its predecessors. -/
structure Numbers (next : Nat → List Nat) (start : Nat) (order : List Nat) : Prop where
  nodup : order.Nodup
  mem_iff : ∀ b, b ∈ order ↔ Reaches next start b
  parent : ∀ b ∈ order, b ≠ start → ∃ a ∈ order, b ∈ next a ∧ order.idxOf a < order.idxOf b

/-- Every node on the stack was entered from the one below it, the lowest one is the start. -/
def Entered (next : Nat → List Nat) (start : Nat) : List (Nat × List Nat) → Prop
  | [] => True
  | [(x, _)] => x = start
  | (x, _) :: (a, later) :: below => x ∈ next a ∧ Entered next start ((a, later) :: below)

structure Searching (next : Nat → List Nat) (start : Nat) (remaining : List Nat)
    (stack : List (Nat × List Nat)) (done : List Nat) : Prop where
  fresh : remaining.Nodup
  nodup : (stack.map Prod.fst ++ done).Nodup
  apart : ∀ x ∈ remaining, x ∉ stack.map Prod.fst ++ done
  covered : ∀ x, ∀ y ∈ next x, y ∈ remaining ∨ y ∈ stack.map Prod.fst ++ done
  started : start ∈ stack.map Prod.fst ++ done
  reached : ∀ x ∈ stack.map Prod.fst ++ done, Reaches next start x
  entered : Entered next start stack
  ahead : ∀ frame ∈ stack, frame.2 ⊆ next frame.1
  behind : ∀ frame ∈ stack, ∀ y ∈ next frame.1, y ∈ frame.2 ∨ y ∉ remaining
  explored : ∀ x ∈ done, ∀ y ∈ next x, y ∉ remaining
  parent : ∀ x ∈ done, x ≠ start →
    ∃ a, x ∈ next a ∧ (a ∈ stack.map Prod.fst ∨ a ∈ done ∧ done.idxOf a < done.idxOf x)

namespace Searching
variable {remaining done later : List Nat} {stack below : List (Nat × List Nat)} {x y : Nat}

theorem numbers (h : Searching next start remaining [] done) : Numbers next start done where
  nodup := h.nodup
  mem_iff b := by
    refine ⟨h.reached b, ?_⟩
    rintro ⟨vs, path⟩
    induction path with
    | refl => exact h.started
    | step _ edge ih => exact (h.covered _ _ edge).resolve_left (h.explored _ ih _ edge)
  parent b hb ne := by
    obtain ⟨a, edge, on | ⟨mem, before⟩⟩ := h.parent b hb ne
    · cases on
    · exact ⟨a, mem, edge, before⟩

/-- The search leaves a node whose successors it has looked at. -/
theorem leave (h : Searching next start remaining ((x, []) :: below) done) :
    Searching next start remaining below (x :: done) := by
  have moved : (((x, []) :: below).map Prod.fst ++ done).Perm (below.map Prod.fst ++ x :: done) :=
    List.perm_middle.symm
  have new : x ∉ done := by
    have nodup := h.nodup
    grind
  refine ⟨h.fresh, moved.nodup_iff.1 h.nodup, fun z hz mem => h.apart z hz (moved.mem_iff.2 mem),
    fun z w hw => (h.covered z w hw).imp_right moved.mem_iff.1, moved.mem_iff.1 h.started,
    fun z hz => h.reached z (moved.mem_iff.2 hz), ?_, fun frame hf => h.ahead frame (.tail _ hf),
    fun frame hf => h.behind frame (.tail _ hf), ?_, ?_⟩
  · cases below with
    | nil => trivial
    | cons frame below => exact h.entered.2
  · intro z hz w hw
    rcases List.mem_cons.1 hz with rfl | hz
    · exact (h.behind _ List.mem_cons_self w hw).resolve_left List.not_mem_nil
    · exact h.explored z hz w hw
  · intro z hz ne
    rcases List.mem_cons.1 hz with rfl | hz
    · cases below with
      | nil => exact absurd h.entered ne
      | cons frame below => exact ⟨frame.1, h.entered.1, .inl (by simp)⟩
    · obtain ⟨a, edge, place⟩ := h.parent z hz ne
      have other : x ≠ z := fun same => new (same ▸ hz)
      refine ⟨a, edge, ?_⟩
      rw [List.idxOf_cons_ne _ other]
      by_cases same : x = a
      · subst same
        exact .inr ⟨List.mem_cons_self, by simp⟩
      · rw [List.idxOf_cons_ne _ same]
        rcases place with on | ⟨mem, before⟩
        · exact .inl (List.mem_of_ne_of_mem (Ne.symm same) on)
        · exact .inr ⟨.tail _ mem, Nat.succ_lt_succ before⟩

theorem enter (h : Searching next start remaining ((x, y :: later) :: below) done)
    (unseen : y ∈ remaining) :
    Searching next start (remaining.erase y) ((y, next y) :: (x, later) :: below) done := by
  have edge : y ∈ next x := h.ahead _ List.mem_cons_self List.mem_cons_self
  have new : y ∉ x :: below.map Prod.fst ++ done := h.apart y unseen
  have left (z : Nat) : z ∈ remaining.erase y ↔ z ≠ y ∧ z ∈ remaining := h.fresh.mem_erase_iff
  refine ⟨h.fresh.erase y, List.nodup_cons.2 ⟨new, h.nodup⟩, ?_, ?_, .tail _ h.started, ?_,
    ⟨edge, ?_⟩, ?_, ?_, ?_, ?_⟩
  · intro z hz mem
    obtain ⟨ne, hz⟩ := (left z).1 hz
    exact h.apart z hz (List.mem_of_ne_of_mem ne mem)
  · intro z w hw
    rcases h.covered z w hw with mem | mem
    · by_cases same : w = y
      · exact .inr (by simp [same])
      · exact .inl ((left w).2 ⟨same, mem⟩)
    · exact .inr (.tail _ mem)
  · intro z hz
    rcases List.mem_cons.1 hz with rfl | hz
    · exact (h.reached x (by simp)).step edge
    · exact h.reached z hz
  · have entered := h.entered
    cases below <;> exact entered
  · intro frame hf
    rcases List.mem_cons.1 hf with rfl | hf
    · exact fun _ hw => hw
    rcases List.mem_cons.1 hf with rfl | hf
    · exact fun w hw => h.ahead _ List.mem_cons_self (.tail _ hw)
    · exact h.ahead frame (.tail _ hf)
  · intro frame hf w hw
    rw [left]
    rcases List.mem_cons.1 hf with rfl | hf
    · exact .inl hw
    rcases List.mem_cons.1 hf with rfl | hf
    · have looked := h.behind _ List.mem_cons_self w hw
      grind
    · exact (h.behind frame (.tail _ hf) w hw).imp_right fun out mem => out mem.2
  · exact fun z hz w hw mem => h.explored z hz w hw ((left w).1 mem).2
  · intro z hz ne
    obtain ⟨a, edge, place⟩ := h.parent z hz ne
    exact ⟨a, edge, place.imp_left fun on => .tail _ on⟩

/-- The search passes over a successor that it has seen. -/
theorem skip (h : Searching next start remaining ((x, y :: later) :: below) done)
    (seen : y ∉ remaining) : Searching next start remaining ((x, later) :: below) done := by
  refine ⟨h.fresh, h.nodup, h.apart, h.covered, h.started, h.reached, ?_, ?_, ?_, h.explored, h.parent⟩
  · have entered := h.entered
    cases below <;> exact entered
  · intro frame hf
    rcases List.mem_cons.1 hf with rfl | hf
    · exact fun w hw => h.ahead _ List.mem_cons_self (.tail _ hw)
    · exact h.ahead frame (.tail _ hf)
  · intro frame hf w hw
    rcases List.mem_cons.1 hf with rfl | hf
    · have looked := h.behind _ List.mem_cons_self w hw
      grind
    · exact h.behind frame (.tail _ hf) w hw

theorem numbers_depthFirst (h : Searching next start remaining stack done) :
    Numbers next start (depthFirst next remaining stack done) := by
  fun_induction depthFirst next remaining stack done with
  | case1 => exact h.numbers
  | case2 _ _ _ _ ih => exact ih h.leave
  | case3 _ _ _ _ _ _ unseen ih => exact ih (h.enter unseen)
  | case4 _ _ _ _ _ _ seen ih => exact ih (h.skip seen)

end Searching

theorem searching_start {remaining : List Nat} (fresh : remaining.Nodup)
    (covered : ∀ x, ∀ y ∈ next x, y = start ∨ y ∈ remaining) (new : start ∉ remaining) :
    Searching next start remaining [(start, next start)] [] where
  fresh := fresh
  nodup := by simp
  apart x hx := by
    have ne : x ≠ start := fun same => new (same ▸ hx)
    simpa using ne
  covered x y hy := by simpa using (covered x y hy).symm
  started := by simp
  reached x hx := by
    obtain rfl : x = start := by simpa using hx
    exact .refl
  entered := rfl
  ahead frame hf := by
    obtain rfl := List.mem_singleton.1 hf
    exact fun _ hw => hw
  behind frame hf y hy := by
    obtain rfl := List.mem_singleton.1 hf
    exact .inl hy
  explored := by simp
  parent := by simp

namespace FlowGraph
variable {g : FlowGraph}

/-- Reverse postorder numbers the blocks that are reached, if edges lead to blocks only. -/
theorem numbers_reversePostorder (edges : ∀ a, ∀ b ∈ g.next a, b < g.size) (entry : BlockId) :
    Numbers g.next entry (g.reversePostorder entry) := by
  have fresh : (List.range g.size).Nodup := List.nodup_range
  refine (searching_start (fresh.erase entry) (fun a b hb => ?_) ?_).numbers_depthFirst
  · rw [fresh.mem_erase_iff, List.mem_range]
    have bound := edges a b hb
    tauto
  · rw [fresh.mem_erase_iff]
    tauto

end FlowGraph
end SsaFacts
