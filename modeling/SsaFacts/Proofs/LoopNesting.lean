import SsaFacts.Proofs.Linking

/-! The loops that a survey shows are the natural loops of its program, nested as their blocks are. Walks
from outer to inner loops and the innermost loop around a block follow from the nesting alone. -/
namespace SsaFacts
namespace LoopForest
variable {loops : List Loop} {x y : Loop} {i j k : Nat}

namespace Nested

theorem parent_iff (nested : Nested 0 loops) (hx : loops[i]? = some x) :
    x.parent = some j ↔ Parent (blockSets loops) i j := by
  rw [nested.parent i x hx]
  simp

theorem mem_children (nested : Nested 0 loops) (hx : loops[i]? = some x) :
    j ∈ x.children ↔ Parent (blockSets loops) j i := by
  rw [nested.children i x hx]
  simp

theorem exists_parent (nested : Nested 0 loops) (inside : Inside (blockSets loops) i k) (ne : k ≠ i) :
    ∃ j, Parent (blockSets loops) i j ∧ Inside (blockSets loops) j k := by
  obtain ⟨x, hx⟩ := inside.exists_loops.1
  cases parent : x.parent with
  | none => exact absurd (nested.orphan i x hx parent k inside) ne
  | some j =>
    have isParent := (nested.parent_iff hx).1 parent
    exact ⟨j, isParent, isParent.least k ne inside⟩

theorem ncard_lt (nested : Nested 0 loops) (inside : Inside (blockSets loops) i j) (ne : i ≠ j) :
    {k | Inside (blockSets loops) j k}.ncard < {k | Inside (blockSets loops) i k}.ncard := by
  refine Set.ncard_lt_ncard ⟨fun k => inside.trans, fun back => ne ?_⟩ (Inside.finite _ _)
  obtain ⟨s, t, hs, ht, sub⟩ := inside
  exact nested.antisymm ⟨s, t, hs, ht, sub⟩ (back (Inside.refl hs))

/-- What is inside a loop is the loop itself or inside one of its children. -/
theorem inside_cases (nested : Nested 0 loops) (inside : Inside (blockSets loops) i k) :
    i = k ∨ ∃ c, Parent (blockSets loops) c k ∧ Inside (blockSets loops) i c := by
  induction n : {m | Inside (blockSets loops) i m}.ncard using Nat.strong_induction_on generalizing i with
  | _ n ih =>
    refine or_iff_not_imp_left.2 fun ne => ?_
    obtain ⟨j, parent, within⟩ := nested.exists_parent inside (Ne.symm ne)
    have fewer := nested.ncard_lt parent.inside parent.ne.symm
    rcases ih _ (n ▸ fewer) within rfl with rfl | ⟨c, child, deeper⟩
    · obtain ⟨s, t, hs, -⟩ := parent.inside
      exact ⟨i, parent, .refl hs⟩
    · exact ⟨c, child, parent.inside.trans deeper⟩

theorem exists_outermost (nested : Nested 0 loops) (hx : loops[i]? = some x) :
    ∃ j y, loops[j]? = some y ∧ y.parent = none ∧ Inside (blockSets loops) i j := by
  induction n : {m | Inside (blockSets loops) i m}.ncard using Nat.strong_induction_on generalizing i x with
  | _ n ih =>
    cases parent : x.parent with
    | none =>
      exact ⟨i, x, hx, parent, .refl (by rw [getElem?_blockSets, hx]; rfl)⟩
    | some j =>
      have isParent := (nested.parent_iff hx).1 parent
      have fewer := nested.ncard_lt isParent.inside isParent.ne.symm
      obtain ⟨y, hy⟩ := isParent.inside.exists_loops.2
      obtain ⟨k, y, hy, top, within⟩ := ih _ (n ▸ fewer) hy rfl
      exact ⟨k, y, hy, top, isParent.inside.trans within⟩

end Nested

/-! ### Walks from outer to inner loops -/

/-- The loops inside those of a list. -/
def under (loops : List Loop) (stack : List LoopId) : Set LoopId :=
  {i | ∃ l ∈ stack, Inside (blockSets loops) i l}

/-- None of the listed loops is inside another one. -/
def Spread (loops : List Loop) (stack : List LoopId) : Prop :=
  (∀ l ∈ stack, l < loops.length) ∧
    stack.Pairwise fun a b => ¬Inside (blockSets loops) a b ∧ ¬Inside (blockSets loops) b a

theorem inside_self (inside : i < loops.length) : Inside (blockSets loops) i i :=
  .refl (by rw [getElem?_blockSets, List.getElem?_eq_getElem inside]; rfl)

theorem finite_under (loops : List Loop) (stack : List LoopId) : (under loops stack).Finite :=
  (Set.finite_lt_nat (blockSets loops).length).subset fun _ ⟨_, _, inside⟩ => inside.lt_length.1

namespace Spread
variable {l : LoopId} {rest : List LoopId}

theorem descend (spread : Spread loops (l :: rest)) (nested : Nested 0 loops) (hx : loops[l]? = some x) :
    Spread loops (x.children ++ rest) := by
  obtain ⟨valid, apart⟩ := spread
  obtain ⟨head, tail⟩ := List.pairwise_cons.1 apart
  have child {c : LoopId} (hc : c ∈ x.children) := (nested.mem_children hx).1 hc
  refine ⟨fun c hc => ?_, List.pairwise_append.2 ⟨?_, tail, fun c hc r hr => ⟨fun inside => ?_, fun inside => ?_⟩⟩⟩
  · rcases List.mem_append.1 hc with hc | hc
    · simpa [blockSets] using (child hc).inside.lt_length.1
    · exact valid c (.tail _ hc)
  · -- A loop between a child and its parent is one of the two.
    have between {a b : LoopId} (ha : a ∈ x.children) (hb : b ∈ x.children) (ne : b ≠ a) :
        ¬Inside (blockSets loops) a b := fun inside =>
      (child hb).ne (nested.antisymm ((child ha).least b ne inside) (child hb).inside)
    have distinct := nested.nodup x (List.mem_of_getElem? hx)
    exact distinct.imp_of_mem fun ha hb ne => ⟨between ha hb (Ne.symm ne), between hb ha ne⟩
  · exact (nested.chain c l r (child hc).inside inside).elim (head r hr).1 (head r hr).2
  · exact (head r hr).2 (inside.trans (child hc).inside)

theorem under_descend (spread : Spread loops (l :: rest)) (nested : Nested 0 loops) (hx : loops[l]? = some x) :
    under loops (x.children ++ rest) = under loops (l :: rest) \ {l} ∧ l ∈ under loops (l :: rest) := by
  obtain ⟨valid, apart⟩ := spread
  have head := (List.pairwise_cons.1 apart).1
  refine ⟨Set.ext fun i => ?_, l, List.mem_cons_self, inside_self (valid l List.mem_cons_self)⟩
  rw [Set.mem_sdiff, Set.mem_singleton_iff]
  constructor
  · rintro ⟨m, mem, inside⟩
    rcases List.mem_append.1 mem with hc | hr
    · have parent := (nested.mem_children hx).1 hc
      refine ⟨⟨l, List.mem_cons_self, inside.trans parent.inside⟩, ?_⟩
      rintro rfl
      exact parent.ne (nested.antisymm inside parent.inside)
    · refine ⟨⟨m, .tail _ hr, inside⟩, ?_⟩
      rintro rfl
      exact (head m hr).1 inside
  · rintro ⟨⟨m, mem, inside⟩, ne⟩
    rcases List.mem_cons.1 mem with rfl | hr
    · obtain ⟨c, parent, within⟩ := (nested.inside_cases inside).resolve_left ne
      exact ⟨c, List.mem_append_left _ ((nested.mem_children hx).2 parent), within⟩
    · exact ⟨m, List.mem_append_right _ hr, inside⟩

end Spread

/-- A walk lists what is inside the loops that it starts from, each loop once and after its parent. -/
theorem preorder_walks {s : Survey} (nested : Nested 0 s.loops.toList) {steps : Nat} {stack : List LoopId}
    (spread : Spread s.loops.toList stack) (enough : (under s.loops.toList stack).ncard ≤ steps) :
    (s.preorder steps stack).Nodup ∧
      (∀ i, i ∈ s.preorder steps stack ↔ i ∈ under s.loops.toList stack) ∧
      ∀ i j, Parent (blockSets s.loops.toList) i j → j ∈ under s.loops.toList stack →
        [j, i].Sublist (s.preorder steps stack) := by
  induction steps generalizing stack with
  | zero =>
    have none : under s.loops.toList stack = ∅ :=
      (Set.ncard_eq_zero (finite_under _ _)).1 (Nat.le_zero.1 enough)
    simp [Survey.preorder, none]
  | succ steps ih =>
    cases stack with
    | nil => simp [Survey.preorder, under]
    | cons l rest =>
      have inside := spread.1 l List.mem_cons_self
      obtain ⟨x, hx⟩ : ∃ x, s.loops.toList[l]? = some x := ⟨_, List.getElem?_eq_getElem inside⟩
      have walk : s.preorder (steps + 1) (l :: rest) = l :: s.preorder steps (x.children ++ rest) := by
        rw [Array.getElem?_toList] at hx
        rw [Survey.preorder, hx]
        rfl
      obtain ⟨less, here⟩ := spread.under_descend nested hx
      have fewer : (under s.loops.toList (x.children ++ rest)).ncard ≤ steps := by
        rw [less, Set.ncard_sdiff_singleton_of_mem here]
        omega
      obtain ⟨nodup, mem, order⟩ := ih (spread.descend nested hx) fewer
      rw [less] at mem order
      rw [walk]
      refine ⟨List.nodup_cons.2 ⟨fun again => ((mem l).1 again).2 rfl, nodup⟩, fun i => ?_,
        fun i j parent member => ?_⟩
      · rw [List.mem_cons, mem, Set.mem_sdiff, Set.mem_singleton_iff]
        constructor
        · rintro (rfl | ⟨member, -⟩)
          · exact here
          · exact member
        · exact fun member => (em (i = l)).imp_right fun ne => ⟨member, ne⟩
      · -- The parent of the first loop is not inside the loops that are left.
        have ne : i ≠ l := by
          rintro rfl
          obtain ⟨m, hm, within⟩ := member
          rcases List.mem_cons.1 hm with rfl | hm
          · exact parent.ne (nested.antisymm within parent.inside)
          · exact ((List.pairwise_cons.1 spread.2).1 m hm).1 (parent.inside.trans within)
        by_cases same : j = l
        · subst same
          have later : i ∈ s.preorder steps (x.children ++ rest) := by
            obtain ⟨m, hm, within⟩ := member
            exact (mem i).2 ⟨⟨m, hm, parent.inside.trans within⟩, ne⟩
          exact (List.singleton_sublist.2 later).cons_cons j
        · exact (order i j parent ⟨member, same⟩).cons l

/-! ### The innermost loop -/

def Holds (loops : List Loop) (b : BlockId) (i : LoopId) : Prop := ∃ x, loops[i]? = some x ∧ b ∈ x.blocks

def depthOf (loops : List Loop) (i : LoopId) : Nat := (loops[i]?.map (·.depth)).getD 0

theorem innermost?_eq_argmax (forest : LoopForest) (b : BlockId) :
    forest.innermost? b = ((List.range forest.loops.size).filter fun i =>
      forest.loops[i]?.any (·.contains b)).argmax (depthOf forest.loops.toList) := by
  rw [innermost?, List.argmax, List.foldl_filter]
  congr 1
  funext best i
  split
  · cases best with
    | none => rfl
    | some j => simp only [List.argAux, depthOf, Array.getElem?_toList]
  · rfl

theorem mem_holding {forest : LoopForest} {b : BlockId} :
    (i ∈ (List.range forest.loops.size).filter fun i => forest.loops[i]?.any (·.contains b)) ↔
      Holds forest.loops.toList b i := by
  simp only [List.mem_filter, List.mem_range, Option.any_eq_true, Loop.contains, List.contains_iff_mem, Holds,
    Array.getElem?_toList]
  refine ⟨And.right, fun holds => ⟨?_, holds⟩⟩
  obtain ⟨x, hx, -⟩ := holds
  exact (Array.getElem?_eq_some_iff.1 hx).1

theorem innermost?_eq_none {forest : LoopForest} {b : BlockId} :
    forest.innermost? b = none ↔ ∀ i, ¬Holds forest.loops.toList b i := by
  rw [innermost?_eq_argmax, List.argmax_eq_none, List.eq_nil_iff_forall_not_mem]
  simp only [mem_holding]

namespace Gathered
variable {p : Program} {fs : List FuncId} {f : FuncId} {e b : BlockId}

/-- A loop with a block that is reached in a function is a loop of that function. -/
theorem natural_of_mem (gathered : Gathered p fs loops) (confined : p.Confined) (he : p.IsEntry f e)
    (reaches : Reaches p.targets e b) (hx : loops[i]? = some x) (mem : b ∈ x.blocks) :
    x.func = f ∧ IsNatural p e x := by
  obtain ⟨e', natural⟩ := gathered.natural x (List.mem_of_getElem? hx)
  obtain ⟨u, hu, func⟩ := natural.func_of_mem confined mem
  obtain ⟨v, hv, rfl⟩ := confined.reached he reaches
  cases hu.symm.trans hv
  obtain rfl := natural.entry.unique (func ▸ he)
  exact ⟨func.symm, natural⟩

/-- Loops with a block in common are nested, if the block is reached from the entry of its function. -/
theorem comparable (gathered : Gathered p fs loops) (confined : p.Confined) (he : p.IsEntry f e)
    (reaches : Reaches p.targets e b) (hx : Holds loops b i) (hy : Holds loops b j) :
    Inside (blockSets loops) i j ∨ Inside (blockSets loops) j i := by
  obtain ⟨x, hx, bx⟩ := hx
  obtain ⟨y, hy, bY⟩ := hy
  have nx := (gathered.natural_of_mem confined he reaches hx bx).2
  have ny := (gathered.natural_of_mem confined he reaches hy bY).2
  rw [inside_iff hx hy, inside_iff hy hx]
  simp only [List.subset_def, nx.mem_blocks, ny.mem_blocks]
  exact InLoop.laminar reaches ((nx.mem_blocks b).1 bx) ((ny.mem_blocks b).1 bY)

theorem inside_of_header_mem (gathered : Gathered p fs loops) (confined : p.Confined) (hx : loops[i]? = some x)
    (hy : loops[j]? = some y) (mem : x.header ∈ y.blocks) : Inside (blockSets loops) i j := by
  obtain ⟨e, nx⟩ := gathered.natural x (List.mem_of_getElem? hx)
  have ny := (gathered.natural_of_mem confined nx.entry nx.reaches_header hy mem).2
  rw [inside_iff hx hy]
  simp only [List.subset_def, nx.mem_blocks, ny.mem_blocks]
  intro b member
  by_cases same : y.header = x.header
  · exact same ▸ member
  · exact ((ny.mem_blocks _).1 mem).nested same nx.reaches_header member

theorem innermost?_eq_some {forest : LoopForest} (gathered : Gathered p fs forest.loops.toList)
    (confined : p.Confined) (he : p.IsEntry f e) (reaches : Reaches p.targets e b) :
    forest.innermost? b = some i ↔ Holds forest.loops.toList b i ∧
      ∀ j, Holds forest.loops.toList b j → Inside (blockSets forest.loops.toList) i j := by
  have inner {i j : Nat} (hi : Holds forest.loops.toList b i) (hj : Holds forest.loops.toList b j)
      (le : depthOf forest.loops.toList j ≤ depthOf forest.loops.toList i) :
      Inside (blockSets forest.loops.toList) i j := by
    refine (gathered.comparable confined he reaches hi hj).elim id fun back => ?_
    by_cases same : j = i
    · exact same ▸ back
    · obtain ⟨x, hx, -⟩ := hi
      obtain ⟨y, hy, -⟩ := hj
      have deeper := gathered.nested.ncard_lt back same
      rw [depthOf, depthOf, hx, hy] at le
      rw [← gathered.nested.depth j y hy, ← gathered.nested.depth i x hx] at deeper
      exact absurd le deeper.not_ge
  rw [innermost?_eq_argmax]
  constructor
  · intro chosen
    have holds := mem_holding.1 (List.argmax_mem chosen)
    exact ⟨holds, fun j hj => inner holds hj (List.le_of_mem_argmax (mem_holding.2 hj) chosen)⟩
  · rintro ⟨holds, least⟩
    obtain ⟨m, chosen⟩ := Option.ne_none_iff_exists'.1
      (mt (List.argmax_eq_none (f := depthOf forest.loops.toList)).1 (List.ne_nil_of_mem (mem_holding.2 holds)))
    have other := mem_holding.1 (List.argmax_mem chosen)
    have back := inner other holds (List.le_of_mem_argmax (mem_holding.2 holds) chosen)
    rw [chosen, gathered.nested.antisymm (least m other) back]

/-- The blocks of a loop that are reached from the entry of its function. -/
def part (p : Program) (x : Loop) : Set BlockId :=
  {b | b ∈ x.blocks ∧ ∃ e, p.IsEntry x.func e ∧ Reaches p.targets e b}

theorem header_mem_part (gathered : Gathered p fs loops) (hx : loops[i]? = some x) : x.header ∈ part p x := by
  obtain ⟨e, natural⟩ := gathered.natural x (List.mem_of_getElem? hx)
  exact ⟨natural.header_mem, e, natural.entry, natural.reaches_header⟩

theorem part_subset_iff (gathered : Gathered p fs loops) (confined : p.Confined) (hx : loops[i]? = some x)
    (hy : loops[j]? = some y) : part p x ⊆ part p y ↔ Inside (blockSets loops) i j := by
  constructor
  · exact fun sub => gathered.inside_of_header_mem confined hx hy (sub (gathered.header_mem_part hx)).1
  · rintro inside b ⟨mem, e, he, reaches⟩
    have member := (inside_iff hx hy).1 inside mem
    have func := (gathered.natural_of_mem confined he reaches hy member).1
    exact ⟨member, e, func ▸ he, reaches⟩

theorem part_ssubset_iff (gathered : Gathered p fs loops) (confined : p.Confined) (hx : loops[i]? = some x)
    (hy : loops[j]? = some y) : part p x ⊂ part p y ↔ j ≠ i ∧ Inside (blockSets loops) i j := by
  rw [ssubset_iff_subset_not_subset, gathered.part_subset_iff confined hx hy,
    gathered.part_subset_iff confined hy hx]
  constructor
  · rintro ⟨inside, back⟩
    refine ⟨?_, inside⟩
    rintro rfl
    exact back inside
  · exact fun ⟨ne, inside⟩ => ⟨inside, fun back => ne (gathered.nested.antisymm back inside)⟩

theorem nested_or_disjoint (gathered : Gathered p fs loops) (confined : p.Confined) (hx : loops[i]? = some x)
    (hy : loops[j]? = some y) (ne : i ≠ j) :
    part p x ⊂ part p y ∨ part p y ⊂ part p x ∨ Disjoint (part p x) (part p y) := by
  rw [gathered.part_ssubset_iff confined hx hy, gathered.part_ssubset_iff confined hy hx, ← or_assoc]
  refine or_iff_not_imp_right.2 fun meet => ?_
  obtain ⟨b, ⟨bx, e, he, reaches⟩, bY, -⟩ := Set.not_disjoint_iff.1 meet
  exact (gathered.comparable confined he reaches ⟨x, hx, bx⟩ ⟨y, hy, bY⟩).imp
    (fun inside => ⟨Ne.symm ne, inside⟩) fun inside => ⟨ne, inside⟩

theorem parent_smallest (gathered : Gathered p fs loops) (confined : p.Confined) (hx : loops[i]? = some x) :
    x.parent = some j ↔ ∃ y, loops[j]? = some y ∧ part p x ⊂ part p y ∧
      ∀ (k : Nat) (z : Loop), loops[k]? = some z → part p x ⊂ part p z → part p y ⊆ part p z := by
  rw [gathered.nested.parent_iff hx]
  constructor
  · rintro ⟨ne, inside, least⟩
    obtain ⟨y, hy⟩ := inside.exists_loops.2
    refine ⟨y, hy, (gathered.part_ssubset_iff confined hx hy).2 ⟨ne, inside⟩, fun k z hz sub => ?_⟩
    obtain ⟨other, around⟩ := (gathered.part_ssubset_iff confined hx hz).1 sub
    exact (gathered.part_subset_iff confined hy hz).2 (least k other around)
  · rintro ⟨y, hy, sub, least⟩
    obtain ⟨ne, inside⟩ := (gathered.part_ssubset_iff confined hx hy).1 sub
    refine ⟨ne, inside, fun k other around => ?_⟩
    obtain ⟨z, hz⟩ := around.exists_loops.2
    exact (gathered.part_subset_iff confined hy hz).1
      (least k z hz ((gathered.part_ssubset_iff confined hx hz).2 ⟨other, around⟩))

theorem parent_eq_none (gathered : Gathered p fs loops) (confined : p.Confined) (hx : loops[i]? = some x) :
    x.parent = none ↔ ∀ (k : Nat) (z : Loop), loops[k]? = some z → ¬part p x ⊂ part p z := by
  constructor
  · intro none k z hz sub
    obtain ⟨ne, inside⟩ := (gathered.part_ssubset_iff confined hx hz).1 sub
    exact ne (gathered.nested.orphan i x hx none k inside)
  · intro none
    by_contra some
    obtain ⟨j, parent⟩ := Option.ne_none_iff_exists'.1 some
    obtain ⟨y, hy, sub, -⟩ := (gathered.parent_smallest confined hx).1 parent
    exact none j y hy sub

theorem mem_children_iff (gathered : Gathered p fs loops) (hx : loops[i]? = some x) :
    j ∈ x.children ↔ ∃ y, loops[j]? = some y ∧ y.parent = some i := by
  rw [gathered.nested.mem_children hx]
  constructor
  · intro parent
    obtain ⟨y, hy⟩ := parent.inside.exists_loops.1
    exact ⟨y, hy, (gathered.nested.parent_iff hy).2 parent⟩
  · rintro ⟨y, hy, parent⟩
    exact (gathered.nested.parent_iff hy).1 parent

/-! ### The loops of a function, from outer to inner -/

variable {forest : LoopForest}

theorem mem_top : i ∈ forest.top f ↔ ∃ x, forest.loops.toList[i]? = some x ∧ x.func = f ∧ x.parent = none := by
  simp only [top, List.mem_filter, List.mem_range, Option.any_eq_true, Bool.and_eq_true, decide_eq_true_eq,
    Option.isNone_iff_eq_none, Array.getElem?_toList]
  exact ⟨fun ⟨_, found⟩ => found, fun ⟨x, hx, rest⟩ => ⟨(Array.getElem?_eq_some_iff.1 hx).1, x, hx, rest⟩⟩

theorem spread_top (gathered : Gathered p fs forest.loops.toList) : Spread forest.loops.toList (forest.top f) := by
  refine ⟨fun l hl => ?_, ?_⟩
  · obtain ⟨x, hx, -⟩ := mem_top.1 hl
    exact (List.getElem?_eq_some_iff.1 hx).1
  · have outermost {a b : LoopId} (ha : a ∈ forest.top f) (ne : b ≠ a) :
        ¬Inside (blockSets forest.loops.toList) a b := fun inside => by
      obtain ⟨x, hx, -, none⟩ := mem_top.1 ha
      exact ne (gathered.nested.orphan a x hx none b inside)
    have distinct : (forest.top f).Nodup := List.nodup_range.filter _
    exact distinct.imp_of_mem fun ha hb ne => ⟨outermost ha (Ne.symm ne), outermost hb ne⟩

theorem func_eq_of_inside (gathered : Gathered p fs loops) (confined : p.Confined) (hx : loops[i]? = some x)
    (hy : loops[j]? = some y) (inside : Inside (blockSets loops) i j) : y.func = x.func := by
  obtain ⟨header, e, he, reaches⟩ := gathered.header_mem_part hx
  exact (gathered.natural_of_mem confined he reaches hy ((inside_iff hx hy).1 inside header)).1

theorem under_top (gathered : Gathered p fs forest.loops.toList) (confined : p.Confined) :
    i ∈ under forest.loops.toList (forest.top f) ↔ ∃ x, forest.loops.toList[i]? = some x ∧ x.func = f := by
  constructor
  · rintro ⟨l, hl, inside⟩
    obtain ⟨x, hx⟩ := inside.exists_loops.1
    obtain ⟨y, hy, rfl, -⟩ := mem_top.1 hl
    exact ⟨x, hx, (gathered.func_eq_of_inside confined hx hy inside).symm⟩
  · rintro ⟨x, hx, rfl⟩
    obtain ⟨j, y, hy, none, inside⟩ := gathered.nested.exists_outermost hx
    exact ⟨j, mem_top.2 ⟨y, hy, gathered.func_eq_of_inside confined hx hy inside, none⟩, inside⟩

theorem ncard_under_le (loops : List Loop) (stack : List LoopId) : (under loops stack).ncard ≤ loops.length := by
  have sub : under loops stack ⊆ Finset.range loops.length := by
    rintro i ⟨l, -, inside⟩
    simpa [blockSets] using inside.lt_length.1
  have le := Set.ncard_le_ncard sub
  rwa [Set.ncard_coe_finset, Finset.card_range] at le

/-! ### Loops around a block -/

section
variable (gathered : Gathered p p.functionIds forest.loops.toList) (confined : p.Confined)
include gathered

theorem existsUnique_header {h l : BlockId} (he : p.IsEntry f e) (latch : Latch p.targets e h l) :
    ∃! i : LoopId, ∃ x, forest.loops.toList[i]? = some x ∧ x.func = f ∧ x.header = h := by
  have inside : f < p.functions.size := by
    obtain ⟨fn, hf, -⟩ := he
    exact (Array.getElem?_eq_some_iff.1 hf).1
  obtain ⟨x, hx, rfl, rfl⟩ := gathered.complete f (List.mem_range.2 inside) e h l he latch
  obtain ⟨i, hi⟩ := List.mem_iff_getElem?.1 hx
  refine ⟨i, ⟨x, hi, rfl, rfl⟩, ?_⟩
  rintro j ⟨y, hj, func, header⟩
  exact gathered.unique j i y x hj hi func header

include confined

/-- The loops around a block that is reached are those around its innermost loop. -/
theorem holds_iff {i j : LoopId} (he : p.IsEntry f e) (reaches : Reaches p.targets e b)
    (chosen : forest.innermost? b = some i) :
    Holds forest.loops.toList b j ↔ Inside (blockSets forest.loops.toList) i j := by
  obtain ⟨holds, least⟩ := (gathered.innermost?_eq_some confined he reaches).1 chosen
  refine ⟨least j, fun inside => ?_⟩
  obtain ⟨x, hx, mem⟩ := holds
  obtain ⟨y, hy⟩ := inside.exists_loops.2
  exact ⟨y, hy, (inside_iff hx hy).1 inside mem⟩

theorem mem_part_iff {i : LoopId} {x : Loop} (he : p.IsEntry f e) (reaches : Reaches p.targets e b)
    (hx : forest.loops.toList[i]? = some x) : b ∈ part p x ↔ b ∈ x.blocks := by
  refine ⟨And.left, fun mem => ⟨mem, e, ?_, reaches⟩⟩
  rwa [(gathered.natural_of_mem confined he reaches hx mem).1]

theorem innermost?_iff {i : LoopId} (he : p.IsEntry f e) (reaches : Reaches p.targets e b) :
    forest.innermost? b = some i ↔ ∃ x, forest.loops.toList[i]? = some x ∧ b ∈ part p x ∧
      ∀ (j : LoopId) y, forest.loops.toList[j]? = some y → b ∈ part p y → part p x ⊆ part p y := by
  rw [gathered.innermost?_eq_some confined he reaches]
  constructor
  · rintro ⟨⟨x, hx, mem⟩, least⟩
    refine ⟨x, hx, (gathered.mem_part_iff confined he reaches hx).2 mem, fun j y hy member => ?_⟩
    exact (gathered.part_subset_iff confined hx hy).2 (least j ⟨y, hy, member.1⟩)
  · rintro ⟨x, hx, mem, least⟩
    refine ⟨⟨x, hx, mem.1⟩, ?_⟩
    rintro j ⟨y, hy, member⟩
    exact (gathered.part_subset_iff confined hx hy).1
      (least j y hy ((gathered.mem_part_iff confined he reaches hy).2 member))

theorem innermost?_eq_none_iff (he : p.IsEntry f e) (reaches : Reaches p.targets e b) :
    forest.innermost? b = none ↔ ∀ (j : LoopId) y, forest.loops.toList[j]? = some y → b ∉ part p y := by
  rw [innermost?_eq_none]
  constructor
  · exact fun none j y hy member => none j ⟨y, hy, member.1⟩
  · rintro none j ⟨y, hy, member⟩
    exact none j y hy ((gathered.mem_part_iff confined he reaches hy).2 member)

theorem depth_innermost? (he : p.IsEntry f e) (reaches : Reaches p.targets e b) :
    (((forest.innermost? b).bind (forest.loops.toList[·]?)).map (·.depth)).getD 0 =
      {i | Holds forest.loops.toList b i}.ncard := by
  cases chosen : forest.innermost? b with
  | none => simp [innermost?_eq_none.1 chosen]
  | some i =>
    obtain ⟨⟨x, hx, -⟩, -⟩ := (gathered.innermost?_eq_some confined he reaches).1 chosen
    simp only [gathered.holds_iff confined he reaches chosen, Option.bind_some, hx, Option.map_some, Option.getD_some]
    exact gathered.nested.depth i x hx

end

end Gathered
end LoopForest

namespace Survey
open LoopForest LoopForest.Gathered
variable {p : Program} {marked : List BlockId} {s : Survey}

/-- The loops of a survey are the natural loops of a program, nested as their reached parts are. -/
structure ShowsLoops (s : Survey) (p : Program) : Prop where
  /-- There is one loop for each header of a latch. -/
  one_per_header : ∀ f e h l, p.IsEntry f e → Latch p.targets e h l →
    ∃! i : LoopId, ∃ x, s.loops[i]? = some x ∧ x.func = f ∧ x.header = h
  /-- There is no other loop, and its blocks that are reached are those of the natural loop. -/
  natural : ∀ (i : LoopId) x, s.loops[i]? = some x → ∃ e, p.IsEntry x.func e ∧
    (∃ l, Latch p.targets e x.header l) ∧
    ∀ b, Reaches p.targets e b → (x.contains b = true ↔ InLoop p.targets e x.header b)
  /-- It makes no difference whether blocks that are not reached are looked at. -/
  part_subset : ∀ (i j : LoopId) x y, s.loops[i]? = some x → s.loops[j]? = some y →
    (part p x ⊆ part p y ↔ x.blocks ⊆ y.blocks)
  nested_or_disjoint : ∀ (i j : LoopId) x y, s.loops[i]? = some x → s.loops[j]? = some y → i ≠ j →
    part p x ⊂ part p y ∨ part p y ⊂ part p x ∨ Disjoint (part p x) (part p y)
  /-- The parent is the smallest loop that strictly contains a loop. -/
  parent : ∀ (i : LoopId) x, s.loops[i]? = some x → ∀ j : LoopId,
    x.parent = some j ↔ ∃ y, s.loops[j]? = some y ∧ part p x ⊂ part p y ∧
      ∀ (k : LoopId) z, s.loops[k]? = some z → part p x ⊂ part p z → part p y ⊆ part p z
  orphan : ∀ (i : LoopId) x, s.loops[i]? = some x →
    (x.parent = none ↔ ∀ (k : LoopId) z, s.loops[k]? = some z → ¬part p x ⊂ part p z)
  children : ∀ (i : LoopId) x, s.loops[i]? = some x → x.children.Nodup ∧
    ∀ j : LoopId, j ∈ x.children ↔ ∃ y, s.loops[j]? = some y ∧ y.parent = some i
  /-- The innermost loop around a block is the smallest one that contains it. -/
  innermost : ∀ f e b, p.IsEntry f e → Reaches p.targets e b → ∀ i : LoopId,
    s.innermost? b = some i ↔ ∃ x, s.loops[i]? = some x ∧ b ∈ part p x ∧
      ∀ (j : LoopId) y, s.loops[j]? = some y → b ∈ part p y → part p x ⊆ part p y
  outside : ∀ f e b, p.IsEntry f e → Reaches p.targets e b →
    (s.innermost? b = none ↔ ∀ (j : LoopId) y, s.loops[j]? = some y → b ∉ part p y)
  loopDepth : ∀ f e b, p.IsEntry f e → Reaches p.targets e b →
    s.loopDepth b = {i : LoopId | ∃ x, s.loops[i]? = some x ∧ x.contains b = true}.ncard
  /-- Each loop of a function is listed once and after its parent. -/
  loopsTopDown : ∀ f < p.functions.size, (s.loopsTopDown f).Nodup ∧
    (∀ i : LoopId, i ∈ s.loopsTopDown f ↔ ∃ x, s.loops[i]? = some x ∧ x.func = f) ∧
    ∀ (i j : LoopId) x, s.loops[i]? = some x → x.func = f → x.parent = some j →
      [j, i].Sublist (s.loopsTopDown f)

theorem not_inLoop (regular : p.Regular) (confined : p.Confined) (made : Survey.ofProgram p marked = .ok s)
    {f : FuncId} {e b h l : BlockId} (he : p.IsEntry f e) (reaches : Reaches p.targets e b)
    (none : s.innermost? b = none) (latch : Latch p.targets e h l) : ¬InLoop p.targets e h b := by
  obtain ⟨forest, calls, execution, parts⟩ := exists_parts made
  have gathered := gathered_ofProgram regular confined (shows_graph confined made) parts.forest_eq
  obtain ⟨y, hy, -⟩ := confined.reached he reaches
  rw [parts.innermost_eq b (Array.getElem?_eq_some_iff.1 hy).1, innermost?_eq_none] at none
  obtain ⟨i, x, hx, rfl, rfl⟩ := (gathered.existsUnique_header he latch).exists
  obtain ⟨e', natural⟩ := gathered.natural x (List.mem_of_getElem? hx)
  obtain rfl := he.unique natural.entry
  exact fun member => none i ⟨x, hx, (natural.mem_blocks b).2 member⟩

/-- In a program whose functions do not branch into each other, a survey shows the natural loops. There is a
survey where all that is named exists and the offsets of pointers stay within range. -/
theorem loops_natural (regular : p.Regular) (confined : p.Confined) (marked : List BlockId) :
    (p.Linked → p.Located → ∃ s, Survey.ofProgram p marked = .ok s) ∧
    ∀ s, Survey.ofProgram p marked = .ok s → s.ShowsLoops p := by
  refine ⟨fun linked located => Survey.returns_ofProgram regular confined linked located marked, fun s made => ?_⟩
  obtain ⟨forest, calls, execution, parts⟩ := exists_parts made
  have gathered := gathered_ofProgram regular confined (shows_graph confined made) parts.forest_eq
  have same : s.loops.toList = forest.loops.toList := by rw [parts.loops_eq]
  have get (i : LoopId) : s.loops[i]? = forest.loops.toList[i]? := by rw [← same, Array.getElem?_toList]
  have innermost {f : FuncId} {e b : BlockId} (he : p.IsEntry f e) (reaches : Reaches p.targets e b) :
      s.innermost? b = forest.innermost? b := by
    obtain ⟨x, hx, -⟩ := confined.reached he reaches
    exact parts.innermost_eq b (Array.getElem?_eq_some_iff.1 hx).1
  constructor <;> simp only [get]
  case one_per_header => exact fun f e h l he latch => gathered.existsUnique_header he latch
  case natural =>
    intro i x hx
    obtain ⟨e, natural⟩ := gathered.natural x (List.mem_of_getElem? hx)
    refine ⟨e, natural.entry, natural.latch, fun b _ => ?_⟩
    rw [Loop.contains, List.contains_iff_mem, natural.mem_blocks]
  case part_subset =>
    intro i j x y hx hy
    rw [gathered.part_subset_iff confined hx hy, inside_iff hx hy]
  case nested_or_disjoint => exact fun i j x y hx hy ne => gathered.nested_or_disjoint confined hx hy ne
  case parent => exact fun i x hx j => gathered.parent_smallest confined hx
  case orphan => exact fun i x hx => gathered.parent_eq_none confined hx
  case children =>
    exact fun i x hx => ⟨gathered.nested.nodup x (List.mem_of_getElem? hx), fun j => gathered.mem_children_iff hx⟩
  case innermost =>
    intro f e b he reaches i
    rw [innermost he reaches, gathered.innermost?_iff confined he reaches]
  case outside =>
    intro f e b he reaches
    rw [innermost he reaches, gathered.innermost?_eq_none_iff confined he reaches]
  case loopDepth =>
    intro f e b he reaches
    have depth := gathered.depth_innermost? confined he reaches
    simp only [Holds, ← List.contains_iff_mem] at depth
    simp only [Survey.loopDepth, innermost he reaches, get, Loop.contains, ← depth]
    cases (forest.innermost? b).bind (forest.loops.toList[·]?) <;> rfl
  case loopsTopDown =>
    intro f inside
    have enough : (under s.loops.toList (forest.top f)).ncard ≤ s.loops.size := ncard_under_le ..
    obtain ⟨nodup, mem, order⟩ := preorder_walks (same ▸ gathered.nested) (same ▸ gathered.spread_top) enough
    simp only [same, gathered.under_top confined] at mem order
    rw [Survey.loopsTopDown, parts.topLoops_eq f inside]
    refine ⟨nodup, mem, fun i j x hx func parent => ?_⟩
    have isParent := (gathered.nested.parent_iff hx).1 parent
    obtain ⟨y, hy⟩ := isParent.inside.exists_loops.2
    exact order i j isParent ⟨y, hy, (gathered.func_eq_of_inside confined hx hy isParent.inside).trans func⟩

/-- A loop inside another one, which a block leads into that is not reached. -/
def enclosed : Program where
  values := #[{ ty := .int 1, kind := .param 0 0 }]
  blocks := #[
    { func := 0, name := "entry", term := .br 1 },
    { func := 0, name := "outer", term := .condBr 0 2 5 },
    { func := 0, name := "inner", term := .condBr 0 2 3 },
    { func := 0, name := "latch", term := .br 1 },
    { func := 0, name := "orphan", term := .br 2 },
    { func := 0, name := "exit", term := .ret none }]
  functions := #[{ name := "main", params := [0], ret := .void, blocks := [0, 1, 2, 3, 4, 5] }]

theorem loops_natural_enclosed :
    enclosed.Regular ∧ enclosed.Confined ∧ enclosed.Linked ∧ enclosed.Located ∧
      ∃ s, Survey.ofProgram enclosed [] = .ok s ∧ s.loops.toList.map (·.blocks) = [[1, 2, 3, 4], [2]] ∧
        s.ShowsLoops enclosed := by
  have regular : enclosed.Regular := by decide
  have confined : enclosed.Confined := by decide
  have linked : enclosed.Linked := by decide
  have located : enclosed.Located := by
    rintro v hv
    obtain rfl : v = 0 := Nat.lt_one_iff.1 (List.mem_range.1 hv)
    exact ⟨_, rfl⟩
  obtain ⟨returns, shows_loops⟩ := loops_natural regular confined []
  obtain ⟨s, made⟩ := returns linked located
  have found : (Survey.ofProgram enclosed []).toOption.map (·.loops.toList.map (·.blocks)) =
      some [[1, 2, 3, 4], [2]] := by cbv
  rw [made] at found
  exact ⟨regular, confined, linked, located, s, made, Option.some.inj found, shows_loops s made⟩

end Survey
end SsaFacts
