import Mathlib
import SsaFacts.Flow.Loops

/-! The nesting of loops. It is read off the block sets: the parent of a loop is the smallest set that
contains its own. This is right where no two sets overlap without one containing the other. -/
namespace SsaFacts
namespace LoopForest

variable {sets : List (List BlockId)} {s t : List BlockId} {base i j k : Nat}

def Inside (sets : List (List BlockId)) (i j : Nat) : Prop :=
  ∃ s t : List BlockId, sets[i]? = some s ∧ sets[j]? = some t ∧ s ⊆ t

structure Parent (sets : List (List BlockId)) (i j : Nat) : Prop where
  ne : j ≠ i
  inside : Inside sets i j
  least : ∀ k, k ≠ i → Inside sets i k → Inside sets j k

namespace Inside

theorem refl (here : sets[i]? = some s) : Inside sets i i := ⟨s, s, here, here, List.Subset.refl _⟩

theorem trans (first : Inside sets i j) (second : Inside sets j k) : Inside sets i k := by
  obtain ⟨s, t, hs, ht, sub⟩ := first
  obtain ⟨t', u, ht', hu, sub'⟩ := second
  cases ht.symm.trans ht'
  exact ⟨s, u, hs, hu, List.Subset.trans sub sub'⟩

theorem lt_length (inside : Inside sets i j) : i < sets.length ∧ j < sets.length := by
  obtain ⟨s, t, hs, ht, -⟩ := inside
  exact ⟨(List.getElem?_eq_some_iff.1 hs).1, (List.getElem?_eq_some_iff.1 ht).1⟩

theorem finite (sets : List (List BlockId)) (i : Nat) : {k | Inside sets i k}.Finite :=
  (Set.finite_lt_nat sets.length).subset fun _ inside => inside.lt_length.2

end Inside

/-- A set that contains another one is larger, and of those that contain one and the same set one contains
the other. -/
structure Chained (sets : List (List BlockId)) : Prop where
  shrinks : ∀ (i j : Nat) (s t : List BlockId), i ≠ j → sets[i]? = some s → sets[j]? = some t → s ⊆ t →
    s.length < t.length
  chain : ∀ i j k, Inside sets i j → Inside sets i k → Inside sets j k ∨ Inside sets k j

/-- Chained sets in order of size. -/
structure Laminar (sets : List (List BlockId)) : Prop extends Chained sets where
  sorted : sets.Pairwise fun s t => t.length ≤ s.length

/-- The size of a set, by which the smallest is chosen. -/
def extent (sets : List (List BlockId)) (i : Nat) : Nat := (sets[i]?.map List.length).getD 0

namespace Chained

theorem extent_lt (chained : Chained sets) (ne : i ≠ j) (inside : Inside sets i j) :
    extent sets i < extent sets j := by
  obtain ⟨s, t, hs, ht, sub⟩ := inside
  simpa [extent, hs, ht] using chained.shrinks i j s t ne hs ht sub

theorem antisymm (chained : Chained sets) (first : Inside sets i j) (second : Inside sets j i) : i = j := by
  by_contra ne
  exact (chained.extent_lt ne first).asymm (chained.extent_lt (Ne.symm ne) second)

/-- Around a set with a parent there are the sets around its parent and itself. -/
theorem around_of_parent (chained : Chained sets) (parent : Parent sets i j) :
    {k | Inside sets i k} = insert i {k | Inside sets j k} ∧ i ∉ {k | Inside sets j k} := by
  refine ⟨Set.ext fun k => ?_, fun back => parent.ne (chained.antisymm back parent.inside)⟩
  rw [Set.mem_insert_iff]
  constructor
  · exact fun inside => or_iff_not_imp_left.2 fun ne => parent.least k ne inside
  · rintro (rfl | inside)
    · obtain ⟨s, t, hs, -⟩ := parent.inside
      exact .refl hs
    · exact parent.inside.trans inside

end Chained

theorem Laminar.lt (laminar : Laminar sets) (ne : i ≠ j) (inside : Inside sets i j) : j < i := by
  obtain ⟨s, t, hs, ht, sub⟩ := inside
  have lt := laminar.shrinks i j s t ne hs ht sub
  obtain ⟨hi, rfl⟩ := List.getElem?_eq_some_iff.1 hs
  obtain ⟨hj, rfl⟩ := List.getElem?_eq_some_iff.1 ht
  by_contra later
  have le := List.pairwise_iff_getElem.1 laminar.sorted i j hi hj (by omega)
  omega

/-! ### Parents -/

section
variable {loops : List Loop} {x y : Loop}

def blockSets (loops : List Loop) : List (List BlockId) := loops.map (·.blocks)

theorem getElem?_blockSets (i : Nat) : (blockSets loops)[i]? = loops[i]?.map (·.blocks) := List.getElem?_map

theorem Inside.exists_loops (inside : Inside (blockSets loops) i j) :
    (∃ x, loops[i]? = some x) ∧ ∃ y, loops[j]? = some y := by
  obtain ⟨s, t, hs, ht, -⟩ := inside
  rw [getElem?_blockSets] at hs ht
  obtain ⟨x, hx, -⟩ := Option.map_eq_some_iff.1 hs
  obtain ⟨y, hy, -⟩ := Option.map_eq_some_iff.1 ht
  exact ⟨⟨x, hx⟩, y, hy⟩

theorem inside_iff (hx : loops[i]? = some x) (hy : loops[j]? = some y) :
    Inside (blockSets loops) i j ↔ x.blocks ⊆ y.blocks := by
  simp [Inside, getElem?_blockSets, hx, hy]

theorem smallest?_eq_argmin (candidates : List Nat) :
    smallest? loops.toArray candidates = candidates.argmin (extent (blockSets loops)) := by
  have extent_eq (i : Nat) : extent (blockSets loops) i = (loops[i]?.map (·.blocks.length)).getD 0 := by
    simp [extent, getElem?_blockSets, Function.comp_def]
  simp only [smallest?, List.getElem?_toArray, List.argmin]
  congr 1
  funext best i
  cases best with
  | none => rfl
  | some j => simp only [List.argAux, extent_eq]

theorem parentOf?_eq_argmin (here : loops[i]? = some x) :
    parentOf? loops.toArray i = ((List.range i).filter fun j =>
      loops[j]?.any fun outer => x.blocks.all outer.contains).argmin (extent (blockSets loops)) := by
  simp only [parentOf?, List.getElem?_toArray, here, Option.map_some, Option.getD_some, smallest?_eq_argmin]

variable (laminar : Laminar (blockSets loops)) (here : loops[i]? = some x)
include laminar here

theorem mem_candidates :
    k ∈ (List.range i).filter (fun j => loops[j]?.any fun outer => x.blocks.all outer.contains) ↔
      k ≠ i ∧ Inside (blockSets loops) i k := by
  have contains : (loops[k]?.any fun outer => x.blocks.all outer.contains) = true ↔
      Inside (blockSets loops) i k := by
    simp [Option.any_eq_true, Inside, getElem?_blockSets, here, Loop.contains, List.subset_def]
  rw [List.mem_filter, List.mem_range, contains]
  exact and_congr_left fun inside => ⟨Nat.ne_of_lt, fun ne => laminar.lt (Ne.symm ne) inside⟩

theorem parentOf?_eq_some : parentOf? loops.toArray i = some j ↔ Parent (blockSets loops) i j := by
  rw [parentOf?_eq_argmin here]
  constructor
  · intro smallest
    obtain ⟨ne, inside⟩ := (mem_candidates laminar here).1 (List.argmin_mem smallest)
    refine ⟨ne, inside, fun k other around => ?_⟩
    rcases laminar.chain i j k inside around with inside | back
    · exact inside
    · -- A smaller set around `i` would have been chosen.
      have le := List.le_of_mem_argmin ((mem_candidates laminar here).2 ⟨other, around⟩) smallest
      have same : k = j := by
        by_contra ne
        exact (laminar.extent_lt ne back).not_ge le
      exact same ▸ back
  · intro parent
    have mem := (mem_candidates laminar here).2 ⟨parent.ne, parent.inside⟩
    obtain ⟨m, chosen⟩ := Option.ne_none_iff_exists'.1
      (mt (List.argmin_eq_none (f := extent (blockSets loops))).1 (List.ne_nil_of_mem mem))
    obtain ⟨ne, inside⟩ := (mem_candidates laminar here).1 (List.argmin_mem chosen)
    have le := List.le_of_mem_argmin mem chosen
    have same : j = m := by
      by_contra other
      exact (laminar.extent_lt other (parent.least m ne inside)).not_ge le
    rw [chosen, same]

theorem parentOf?_eq_none :
    parentOf? loops.toArray i = none ↔ {k | Inside (blockSets loops) i k} = {i} := by
  have self : Inside (blockSets loops) i i := .refl (by rw [getElem?_blockSets, here]; rfl)
  rw [parentOf?_eq_argmin here, List.argmin_eq_none, List.eq_nil_iff_forall_not_mem, Set.eq_singleton_iff_unique_mem]
  simp only [mem_candidates laminar here, not_and', not_not]
  exact ⟨fun only => ⟨self, only⟩, fun only => only.2⟩

end

/-! ### Depths -/

/-- The depth of a loop below its parent, by the depths of the loops before it. -/
def depthBelow (depths : Array Nat) : Option Nat → Nat
  | some j => depths.getD j 0 + 1
  | none => 1

def levels (parents : List (Option Nat)) : Array Nat :=
  parents.foldl (fun depths parent => depths.push (depthBelow depths parent)) #[]

theorem levels_concat (parents : List (Option Nat)) (last : Option Nat) :
    levels (parents ++ [last]) = (levels parents).push (depthBelow (levels parents) last) := by
  simp [levels]

theorem size_levels (parents : List (Option Nat)) : (levels parents).size = parents.length := by
  induction parents using List.reverseRecOn with
  | nil => rfl
  | append_singleton parents parent ih => simp [levels_concat, ih]

theorem depthBelow_push {depths : Array Nat} {parent : Option Nat} (m : Nat)
    (earlier : ∀ j, parent = some j → j < depths.size) :
    depthBelow (depths.push m) parent = depthBelow depths parent := by
  cases parent with
  | none => rfl
  | some j =>
    have ne : j ≠ depths.size := (earlier j rfl).ne
    simp [depthBelow, Array.getElem?_push, ne]

/-- Every loop is one deeper than its parent, if that one comes before it. -/
theorem getD_levels {parents : List (Option Nat)} {parent : Option Nat}
    (earlier : ∀ i j : Nat, parents[i]? = some (some j) → j < i) (here : parents[i]? = some parent) (d : Nat) :
    (levels parents).getD i d = depthBelow (levels parents) parent := by
  induction parents using List.reverseRecOn with
  | nil => simp at here
  | append_singleton parents last ih =>
    have size := size_levels parents
    have before : i ≤ parents.length := by
      have := (List.getElem?_eq_some_iff.1 here).1
      simp at this
      omega
    rw [levels_concat, depthBelow_push]
    · rcases before.lt_or_eq with before | rfl
      · rw [List.getElem?_append_left before] at here
        rw [← ih (fun i j hj => earlier i j ?_) here]
        · simp [Array.getElem?_push, size, before.ne]
        · rwa [List.getElem?_append_left (List.getElem?_eq_some_iff.1 hj).1]
      · obtain rfl : last = parent := by simpa using here
        rw [Array.getD_eq_getD_getElem?, ← size, Array.getElem?_push_size, Option.getD_some]
    · rintro j rfl
      have := earlier i j here
      omega

/-! ### The nesting -/

/-- Loops whose ids are counted from `base`, nested as their block sets are. -/
structure Nested (base : Nat) (loops : List Loop) : Prop extends Chained (blockSets loops) where
  parent : ∀ i x, loops[i]? = some x → ∀ j,
    x.parent = some j ↔ ∃ k, j = base + k ∧ Parent (blockSets loops) i k
  orphan : ∀ i x, loops[i]? = some x → x.parent = none → ∀ k, Inside (blockSets loops) i k → k = i
  children : ∀ i x, loops[i]? = some x → ∀ j,
    j ∈ x.children ↔ ∃ k, j = base + k ∧ Parent (blockSets loops) k i
  nodup : ∀ x ∈ loops, x.children.Nodup
  depth : ∀ i x, loops[i]? = some x → x.depth = {k | Inside (blockSets loops) i k}.ncard

section
variable {found : List Loop} {x : Loop}

def parentsOf (found : List Loop) : List (Option Nat) := (List.range found.length).map (parentOf? found.toArray)

theorem getElem?_parentsOf (inside : i < found.length) :
    (parentsOf found)[i]? = some (parentOf? found.toArray i) := by
  simp [parentsOf, inside]

theorem getElem?_nest :
    (nest base found)[i]? = found[i]?.map fun l =>
      { l with
        depth := (levels (parentsOf found)).getD i 1
        parent := (parentOf? found.toArray i).map (base + ·)
        children := ((List.range found.length).filter fun k =>
          parentOf? found.toArray k = some i).map (base + ·) } := by
  have parents : (List.range found.toArray.size).map (parentOf? found.toArray) = parentsOf found := rfl
  have filtered : (List.range found.toArray.size).filter (fun k => (parentsOf found)[k]? = some (some i)) =
      (List.range found.length).filter fun k => parentOf? found.toArray k = some i := by
    refine List.filter_congr fun k hk => ?_
    have listed := getElem?_parentsOf (List.mem_range.1 hk)
    simpa using congrArg (· = some (some i)) listed
  unfold nest
  dsimp only
  rw [List.getElem?_map, List.getElem?_zipIdx, parents]
  cases here : found[i]? with
  | none => rfl
  | some l =>
    have inside : i < found.length := (List.getElem?_eq_some_iff.1 here).1
    simp only [Option.map_some, Nat.zero_add, getElem?_parentsOf inside, Option.getD_some, filtered]
    rfl

theorem blockSets_nest : blockSets (nest base found) = blockSets found := by
  refine List.ext_getElem? fun i => ?_
  simp [getElem?_blockSets, getElem?_nest, Function.comp_def]

variable (laminar : Laminar (blockSets found))
include laminar

theorem lt_of_parent (parent : (parentsOf found)[i]? = some (some j)) : j < i := by
  have inside : i < found.length := by
    simpa [parentsOf] using (List.getElem?_eq_some_iff.1 parent).1
  rw [getElem?_parentsOf inside, Option.some_inj] at parent
  have isParent := (parentOf?_eq_some laminar (List.getElem?_eq_getElem inside)).1 parent
  exact laminar.lt isParent.ne.symm isParent.inside

/-- The depth of a loop is the number of loops around it, itself included. -/
theorem getD_levels_eq (here : found[i]? = some x) (d : Nat) :
    (levels (parentsOf found)).getD i d = {k | Inside (blockSets found) i k}.ncard := by
  induction i using Nat.strong_induction_on generalizing x d with
  | _ i ih =>
    have inside : i < found.length := (List.getElem?_eq_some_iff.1 here).1
    rw [getD_levels (fun i j => lt_of_parent laminar) (getElem?_parentsOf inside)]
    cases parent : parentOf? found.toArray i with
    | none =>
      rw [(parentOf?_eq_none laminar here).1 parent, Set.ncard_singleton]
      rfl
    | some j =>
      have isParent := (parentOf?_eq_some laminar here).1 parent
      have before := laminar.lt isParent.ne.symm isParent.inside
      obtain ⟨around, new⟩ := laminar.around_of_parent isParent
      rw [around, Set.ncard_insert_of_notMem new (Inside.finite _ _),
        ← ih j before (List.getElem?_eq_getElem (before.trans inside)) 0]
      rfl

theorem nested_nest : Nested base (nest base found) := by
  have made {i : Nat} {x : Loop} (hx : (nest base found)[i]? = some x) :
      ∃ l, found[i]? = some l ∧ x.parent = (parentOf? found.toArray i).map (base + ·) ∧
        x.depth = (levels (parentsOf found)).getD i 1 ∧
        x.children = ((List.range found.length).filter fun k =>
          parentOf? found.toArray k = some i).map (base + ·) := by
    rw [getElem?_nest] at hx
    obtain ⟨l, hl, rfl⟩ := Option.map_eq_some_iff.1 hx
    exact ⟨l, hl, rfl, rfl, rfl⟩
  refine ⟨by simpa only [blockSets_nest] using laminar.toChained, ?_, ?_, ?_, ?_, ?_⟩
  · intro i x hx j
    obtain ⟨l, hl, parent, -⟩ := made hx
    simp only [parent, blockSets_nest, Option.map_eq_some_iff, parentOf?_eq_some laminar hl]
    exact exists_congr fun k => and_comm.trans (and_congr_left' eq_comm)
  · intro i x hx none k inside
    obtain ⟨l, hl, parent, -⟩ := made hx
    rw [parent, Option.map_eq_none_iff, parentOf?_eq_none laminar hl] at none
    rw [blockSets_nest] at inside
    exact none.le inside
  · intro i x hx j
    obtain ⟨l, hl, -, -, children⟩ := made hx
    rw [children, blockSets_nest, List.mem_map]
    refine exists_congr fun k => and_comm.trans (and_congr eq_comm ?_)
    rw [List.mem_filter, List.mem_range, decide_eq_true_eq]
    constructor
    · rintro ⟨inside, parent⟩
      exact (parentOf?_eq_some laminar (List.getElem?_eq_getElem inside)).1 parent
    · intro parent
      have inside : k < found.length := by
        simpa [blockSets] using parent.inside.lt_length.1
      exact ⟨inside, (parentOf?_eq_some laminar (List.getElem?_eq_getElem inside)).2 parent⟩
  · intro x hx
    obtain ⟨i, hi⟩ := List.mem_iff_getElem?.1 hx
    obtain ⟨l, -, -, -, children⟩ := made hi
    rw [children]
    exact (List.nodup_range.filter _).map (add_right_injective base)
  · intro i x hx
    obtain ⟨l, hl, -, depth, -⟩ := made hx
    rw [depth, blockSets_nest, getD_levels_eq laminar hl]

end

/-! ### Nested loops side by side -/

section
variable {ss ts : List (List BlockId)}

def Apart (ss ts : List (List BlockId)) : Prop := ∀ s ∈ ss, ∀ t ∈ ts, ¬s ⊆ t ∧ ¬t ⊆ s

namespace Apart

theorem inside_left (apart : Apart ss ts) (before : i < ss.length) :
    Inside (ss ++ ts) i j ↔ Inside ss i j := by
  simp only [Inside, List.getElem?_append_left before]
  refine exists₂_congr fun s t => and_congr_right fun hs => ?_
  rcases lt_or_ge j ss.length with inside | after
  · rw [List.getElem?_append_left inside]
  · rw [List.getElem?_append_right after, List.getElem?_eq_none after]
    refine ⟨fun ⟨ht, sub⟩ => ?_, nofun⟩
    exact absurd sub (apart s (List.mem_of_getElem? hs) t (List.mem_of_getElem? ht)).1

theorem inside_right (apart : Apart ss ts) :
    Inside (ss ++ ts) (ss.length + i) j ↔ ∃ k, j = ss.length + k ∧ Inside ts i k := by
  have shift (k : Nat) : (ss ++ ts)[ss.length + k]? = ts[k]? := by
    rw [List.getElem?_append_right (Nat.le_add_right ..), Nat.add_sub_cancel_left]
  constructor
  · rintro ⟨s, t, hs, ht, sub⟩
    rw [shift] at hs
    rcases lt_or_ge j ss.length with before | after
    · rw [List.getElem?_append_left before] at ht
      exact absurd sub (apart t (List.mem_of_getElem? ht) s (List.mem_of_getElem? hs)).2
    · obtain ⟨k, rfl⟩ := Nat.exists_eq_add_of_le after
      exact ⟨k, rfl, s, t, hs, shift k ▸ ht, sub⟩
  · rintro ⟨k, rfl, s, t, hs, ht, sub⟩
    exact ⟨s, t, (shift i).trans hs, (shift k).trans ht, sub⟩

theorem parent_left (apart : Apart ss ts) (before : i < ss.length) :
    Parent (ss ++ ts) i j ↔ Parent ss i j := by
  have iff (inside : Inside ss i j) (k : Nat) : Inside (ss ++ ts) j k ↔ Inside ss j k :=
    apart.inside_left inside.lt_length.2
  constructor
  · rintro ⟨ne, inside, least⟩
    rw [apart.inside_left before] at inside
    exact ⟨ne, inside, fun k other around =>
      (iff inside k).1 (least k other ((apart.inside_left before).2 around))⟩
  · rintro ⟨ne, inside, least⟩
    exact ⟨ne, (apart.inside_left before).2 inside, fun k other around =>
      (iff inside k).2 (least k other ((apart.inside_left before).1 around))⟩

theorem parent_right (apart : Apart ss ts) :
    Parent (ss ++ ts) (ss.length + i) j ↔ ∃ k, j = ss.length + k ∧ Parent ts i k := by
  constructor
  · rintro ⟨ne, inside, least⟩
    obtain ⟨k, rfl, within⟩ := apart.inside_right.1 inside
    refine ⟨k, rfl, fun same => ne (same ▸ rfl), within, fun m other around => ?_⟩
    obtain ⟨m', same, within⟩ := apart.inside_right.1
      (least (ss.length + m) (by omega) (apart.inside_right.2 ⟨m, rfl, around⟩))
    obtain rfl := Nat.add_left_cancel same
    exact within
  · rintro ⟨k, rfl, ne, inside, least⟩
    refine ⟨by omega, apart.inside_right.2 ⟨k, rfl, inside⟩, fun m other around => ?_⟩
    obtain ⟨m, rfl, within⟩ := apart.inside_right.1 around
    exact apart.inside_right.2 ⟨m, rfl, least m (by omega) within⟩

theorem chained (apart : Apart ss ts) (left : Chained ss) (right : Chained ts) : Chained (ss ++ ts) := by
  have split (i : Nat) : i < ss.length ∨ ∃ k, i = ss.length + k :=
    (lt_or_ge i ss.length).imp_right Nat.exists_eq_add_of_le
  constructor
  · intro i j s t ne hs ht sub
    have inside : Inside (ss ++ ts) i j := ⟨s, t, hs, ht, sub⟩
    rcases split i with before | ⟨i, rfl⟩
    · have after := ((apart.inside_left before).1 inside).lt_length.2
      rw [List.getElem?_append_left before] at hs
      rw [List.getElem?_append_left after] at ht
      exact left.shrinks i j s t ne hs ht sub
    · obtain ⟨j, rfl, -⟩ := apart.inside_right.1 inside
      rw [List.getElem?_append_right (Nat.le_add_right ..), Nat.add_sub_cancel_left] at hs ht
      exact right.shrinks i j s t (by omega) hs ht sub
  · intro i j k first second
    rcases split i with before | ⟨i, rfl⟩
    · rw [apart.inside_left before] at first second
      rw [apart.inside_left first.lt_length.2, apart.inside_left second.lt_length.2]
      exact left.chain i j k first second
    · obtain ⟨j, rfl, hj⟩ := apart.inside_right.1 first
      obtain ⟨k, rfl, hk⟩ := apart.inside_right.1 second
      exact (right.chain i j k hj hk).imp (fun inside => apart.inside_right.2 ⟨k, rfl, inside⟩)
        fun inside => apart.inside_right.2 ⟨j, rfl, inside⟩

end Apart

/-- Loops that are nested stay so next to others that they have nothing to do with. -/
theorem Nested.append {xs ys : List Loop} (left : Nested base xs) (right : Nested (base + xs.length) ys)
    (apart : Apart (blockSets xs) (blockSets ys)) : Nested base (xs ++ ys) := by
  have sets : blockSets (xs ++ ys) = blockSets xs ++ blockSets ys := List.map_append
  have length : (blockSets xs).length = xs.length := List.length_map _
  -- Each loop of the row is one of the left or one of the right, with its position there.
  have split {i : Nat} {x : Loop} (hx : (xs ++ ys)[i]? = some x) :
      (i < (blockSets xs).length ∧ xs[i]? = some x) ∨ ∃ k, i = (blockSets xs).length + k ∧ ys[k]? = some x := by
    rw [length]
    rcases lt_or_ge i xs.length with before | after
    · exact .inl ⟨before, by rwa [List.getElem?_append_left before] at hx⟩
    · obtain ⟨k, rfl⟩ := Nat.exists_eq_add_of_le after
      rw [List.getElem?_append_right after, Nat.add_sub_cancel_left] at hx
      exact .inr ⟨k, rfl, hx⟩
  have child_left {i k : Nat} (before : i < (blockSets xs).length) :
      Parent (blockSets xs ++ blockSets ys) k i ↔ Parent (blockSets xs) k i := by
    rcases lt_or_ge k (blockSets xs).length with inside | after
    · exact apart.parent_left inside
    · obtain ⟨k, rfl⟩ := Nat.exists_eq_add_of_le after
      refine ⟨fun parent => ?_, fun parent => absurd parent.inside.lt_length.1 (by omega)⟩
      obtain ⟨_, rfl, -⟩ := apart.parent_right.1 parent
      omega
  refine ⟨sets ▸ apart.chained left.toChained right.toChained, ?_, ?_, ?_, ?_, ?_⟩
  · intro i x hx j
    rw [sets]
    rcases split hx with ⟨before, here⟩ | ⟨i, rfl, here⟩
    · simpa only [apart.parent_left before] using left.parent i x here j
    · rw [right.parent i x here j]
      constructor
      · rintro ⟨k, rfl, parent⟩
        exact ⟨_, by rw [length]; omega, apart.parent_right.2 ⟨k, rfl, parent⟩⟩
      · rintro ⟨_, rfl, parent⟩
        obtain ⟨k, rfl, parent'⟩ := apart.parent_right.1 parent
        exact ⟨k, by omega, parent'⟩
  · intro i x hx none k inside
    rw [sets] at inside
    rcases split hx with ⟨before, here⟩ | ⟨i, rfl, here⟩
    · exact left.orphan i x here none k ((apart.inside_left before).1 inside)
    · obtain ⟨k, rfl, within⟩ := apart.inside_right.1 inside
      rw [right.orphan i x here none k within]
  · intro i x hx j
    rw [sets]
    rcases split hx with ⟨before, here⟩ | ⟨i, rfl, here⟩
    · simpa only [child_left before] using left.children i x here j
    · rw [right.children i x here j]
      constructor
      · rintro ⟨k, rfl, parent⟩
        exact ⟨_, by rw [length]; omega, apart.parent_right.2 ⟨i, rfl, parent⟩⟩
      · rintro ⟨k, rfl, parent⟩
        rcases lt_or_ge k (blockSets xs).length with inside | after
        · have := ((apart.parent_left inside).1 parent).inside.lt_length.2
          omega
        · obtain ⟨k, rfl⟩ := Nat.exists_eq_add_of_le after
          obtain ⟨i', same, parent⟩ := apart.parent_right.1 parent
          obtain rfl := Nat.add_left_cancel same
          exact ⟨k, by omega, parent⟩
  · intro x hx
    exact (List.mem_append.1 hx).elim (left.nodup x) (right.nodup x)
  · intro i x hx
    rw [sets]
    rcases split hx with ⟨before, here⟩ | ⟨i, rfl, here⟩
    · simpa only [apart.inside_left before] using left.depth i x here
    · have around : {k | Inside (blockSets xs ++ blockSets ys) ((blockSets xs).length + i) k} =
          ((blockSets xs).length + ·) '' {k | Inside (blockSets ys) i k} := by
        refine Set.ext fun k => apart.inside_right.trans ?_
        exact exists_congr fun m => and_comm.trans (and_congr_right' eq_comm)
      rw [around, Set.ncard_image_of_injective _ (add_right_injective _), right.depth i x here]

end

end LoopForest
end SsaFacts
