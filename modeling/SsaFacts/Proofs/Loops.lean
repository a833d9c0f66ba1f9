import SsaFacts.Proofs.Building
import SsaFacts.Proofs.NaturalLoops
import SsaFacts.Proofs.Nesting
import SsaFacts.Proofs.Returns

/-! The loops of a program. Those that are found for a function are its natural loops, one for each header,
and their block sets are laminar, so that the nesting read off the sets is that of the loops. -/
namespace SsaFacts

theorem nodup_eraseDups {α : Type} [BEq α] [LawfulBEq α] (xs : List α) : xs.eraseDups.Nodup := by
  cases xs with
  | nil => simp
  | cons x rest =>
    rw [List.eraseDups_cons, List.nodup_cons]
    exact ⟨by simp [List.mem_eraseDups], nodup_eraseDups _⟩
termination_by xs.length
decreasing_by exact Nat.lt_succ_of_le (List.length_filter_le _ rest)

namespace Program
variable {p : Program} {f f' : FuncId} {e e' b : BlockId} {x : Block}

theorem IsEntry.unique (he : p.IsEntry f e) (he' : p.IsEntry f e') : e' = e := by
  obtain ⟨fn, hf, head⟩ := he
  obtain ⟨fn', hf', head'⟩ := he'
  cases hf.symm.trans hf'
  exact Option.some.inj (head'.symm.trans head)

theorem Regular.mem_blocksOf (regular : p.Regular) :
    b ∈ p.blocksOf f ↔ ∃ x : Block, p.blocks[b]? = some x ∧ x.func = f := by
  rw [Program.mem_blocksOf]
  constructor
  · rintro ⟨fn, hf, mem⟩
    exact regular.listed f fn hf b mem
  · rintro ⟨x, hx, rfl⟩
    exact regular.housed b x hx

theorem exists_entry (mem : b ∈ p.blocksOf f) : ∃ e, p.IsEntry f e := by
  obtain ⟨fn, hf, mem⟩ := Program.mem_blocksOf.1 mem
  obtain ⟨e, rest, same⟩ := List.exists_cons_of_ne_nil (List.ne_nil_of_mem mem)
  exact ⟨e, fn, hf, by rw [Function.entryBlock?, same, List.head?_cons]⟩

theorem Confined.func_of_path (confined : p.Confined) {a : BlockId} {vs : List BlockId}
    (path : Path p.targets a vs b) (hx : p.blocks[b]? = some x) :
    ∃ y : Block, p.blocks[a]? = some y ∧ y.func = x.func := by
  induction path generalizing x with
  | refl => exact ⟨x, hx, rfl⟩
  | step _ edge ih =>
    obtain ⟨y, hy, mem⟩ := Program.mem_targets.1 edge
    obtain ⟨x', hx', func⟩ := confined.targets _ y hy _ mem
    cases hx.symm.trans hx'
    exact func ▸ ih hy

theorem confined_iff : p.Confined ↔
    (∀ f < p.functions.size, ∀ b ∈ p.blocksOf f, p.blocks[b]?.map (·.func) = some f) ∧
    ∀ b < p.blocks.size, ∀ x ∈ p.blocks[b]?, ∀ c ∈ x.term.successors,
      p.blocks[c]?.map (·.func) = some x.func := by
  simp only [Option.map_eq_some_iff, mem_blocksOf]
  constructor
  · rintro ⟨listed, targets⟩
    exact ⟨fun f _ b ⟨fn, hf, mem⟩ => listed f fn hf b mem, fun b _ x hx => targets b x hx⟩
  · rintro ⟨listed, targets⟩
    exact ⟨fun f fn hf b mem => listed f (Array.getElem?_eq_some_iff.1 hf).1 b ⟨fn, hf, mem⟩,
      fun b x hx => targets b (Array.getElem?_eq_some_iff.1 hx).1 x hx⟩

instance : Decidable p.Confined := decidable_of_iff _ confined_iff.symm

end Program

namespace LoopForest

structure Found (next : Nat → List Nat) (start : Nat) (loops : List Loop) : Prop where
  latch : ∀ x ∈ loops, ∃ l, Latch next start x.header l
  mem_blocks : ∀ x ∈ loops, ∀ b, b ∈ x.blocks ↔ InLoop next start x.header b
  nodup_blocks : ∀ x ∈ loops, x.blocks.Nodup
  distinct : (loops.map (·.header)).Nodup
  complete : ∀ h l, Latch next start h l → ∃ x ∈ loops, x.header = h
  sorted : (blockSets loops).Pairwise fun s t => t.length ≤ s.length

namespace Found
variable {next : Nat → List Nat} {start : Nat} {loops : List Loop} {x y : Loop} {i j : Nat}

theorem header_mem (found : Found next start loops) (hx : x ∈ loops) : x.header ∈ x.blocks :=
  (found.mem_blocks x hx _).2 .header

theorem reaches_header (found : Found next start loops) (hx : x ∈ loops) : Reaches next start x.header := by
  obtain ⟨l, latch⟩ := found.latch x hx
  exact latch.dominates.reaches latch.reaches

theorem eq_of_header (found : Found next start loops) (hx : loops[i]? = some x) (hy : loops[j]? = some y)
    (same : x.header = y.header) : i = j := by
  have inside : i < (loops.map (·.header)).length := by
    simpa using (List.getElem?_eq_some_iff.1 hx).1
  refine (List.getElem?_inj inside found.distinct).1 ?_
  simp [hx, hy, same]

theorem header_notMem (found : Found next start loops) (hx : x ∈ loops) (hy : y ∈ loops)
    (ne : x.header ≠ y.header) (sub : x.blocks ⊆ y.blocks) : y.header ∉ x.blocks := by
  have inside := (found.mem_blocks y hy _).1 (sub (found.header_mem hx))
  rw [found.mem_blocks x hx]
  exact InLoop.not_header inside.dominates (Ne.symm ne) (found.reaches_header hx)

theorem laminar (found : Found next start loops) : Laminar (blockSets loops) where
  sorted := found.sorted
  shrinks i j s t ne hs ht sub := by
    rw [getElem?_blockSets] at hs ht
    obtain ⟨x, hx, rfl⟩ := Option.map_eq_some_iff.1 hs
    obtain ⟨y, hy, rfl⟩ := Option.map_eq_some_iff.1 ht
    have mx := List.mem_of_getElem? hx
    have my := List.mem_of_getElem? hy
    have new := found.header_notMem mx my (mt (found.eq_of_header hx hy) ne) sub
    have more : y.header :: x.blocks ⊆ y.blocks := List.cons_subset.2 ⟨found.header_mem my, sub⟩
    exact ((found.nodup_blocks x mx).cons new |>.subperm more).length_le
  chain i j k first second := by
    obtain ⟨⟨x, hx⟩, y, hy⟩ := first.exists_loops
    obtain ⟨-, z, hz⟩ := second.exists_loops
    have mx := List.mem_of_getElem? hx
    have my := found.mem_blocks y (List.mem_of_getElem? hy)
    have mz := found.mem_blocks z (List.mem_of_getElem? hz)
    -- The header of the inner loop is reached and lies in both of the others.
    have header := found.header_mem mx
    have outer := (my _).1 ((inside_iff hx hy).1 first header)
    have other := (mz _).1 ((inside_iff hx hz).1 second header)
    rw [inside_iff hy hz, inside_iff hz hy]
    simp only [List.subset_def, my, mz]
    exact InLoop.laminar (found.reaches_header mx) outer other

end Found

/-! ### Finding the loops -/

section
variable {p : Program} {g : FlowGraph} {f : FuncId} {e b h l : BlockId}
variable (regular : p.Regular) (confined : p.Confined) (shows_p : g.Shows p)

theorem mem_backEdges {d : Dominators} {reached : List BlockId} :
    (h, l) ∈ backEdges p g d reached f ↔
      l ∈ p.blocksOf f ∧ l ∈ reached ∧ h ∈ g.next l ∧ d.dominates h l = true := by
  rw [backEdges, List.mem_flatMap]
  constructor
  · rintro ⟨b, hb, mem⟩
    split at mem
    case isTrue hit =>
      obtain ⟨s, hs, same⟩ := List.mem_map.1 mem
      obtain ⟨rfl, rfl⟩ := Prod.mk.inj same
      obtain ⟨edge, dominates⟩ := List.mem_filter.1 hs
      exact ⟨hb, List.contains_iff_mem.1 hit, edge, dominates⟩
    case isFalse => cases mem
  · rintro ⟨hl, hit, edge, dominates⟩
    refine ⟨l, hl, ?_⟩
    rw [if_pos (List.contains_iff_mem.2 hit)]
    exact List.mem_map_of_mem (List.mem_filter.2 ⟨edge, dominates⟩)

include regular confined shows_p

theorem mem_backEdges_iff (he : p.IsEntry f e) :
    (h, l) ∈ backEdges p g (.ofProgram p g) (g.reached p) f ↔ Latch p.targets e h l := by
  rw [mem_backEdges, regular.mem_blocksOf, shows_p.mem_reached confined, shows_p.mem_next]
  constructor
  · rintro ⟨⟨x, hx, rfl⟩, ⟨f', e', he', reaches⟩, edge, dominates⟩
    obtain ⟨x', hx', rfl⟩ := confined.reached he' reaches
    cases hx.symm.trans hx'
    cases he'.unique he
    exact ⟨reaches, edge, (Dominators.dominates_eq_true confined shows_p he reaches).1 dominates⟩
  · rintro ⟨reaches, edge, dominates⟩
    exact ⟨confined.reached he reaches, ⟨f, e, he, reaches⟩, edge,
      (Dominators.dominates_eq_true confined shows_p he reaches).2 dominates⟩

theorem mem_body (he : p.IsEntry f e) (latch : Latch p.targets e h l) :
    b ∈ body g (backEdges p g (.ofProgram p g) (g.reached p) f) h ↔ InLoop p.targets e h b := by
  have lt {b : BlockId} (reaches : Reaches p.targets e b) : b < g.size :=
    shows_p.lt_of_reaches confined he reaches
  have back {l : BlockId} (latch : Latch p.targets e h l) :
      b ∈ g.reachBack l [h] ↔ Avoids p.targets h b l :=
    shows_p.mem_reachBack_singleton (lt latch.reaches)
  have edges (l : BlockId) := mem_backEdges_iff regular confined shows_p (h := h) (l := l) he
  rw [body, List.mem_filter, List.mem_range]
  simp only [Bool.or_eq_true, decide_eq_true_eq, List.contains_iff_mem, List.mem_flatMap, List.mem_filter]
  constructor
  · rintro ⟨-, rfl | ⟨⟨k, l⟩, ⟨edge, rfl⟩, mem⟩⟩
    · exact .header
    · have isLatch := (edges l).1 edge
      exact .inr ⟨l, isLatch, (back isLatch).1 mem⟩
  · rintro (rfl | ⟨l, isLatch, avoids⟩)
    · exact ⟨lt (latch.dominates.reaches latch.reaches), .inl rfl⟩
    · obtain ⟨vs, path, out⟩ := avoids
      have inside := shows_p.path_lt path (lt isLatch.reaches) b path.mem_first
      exact ⟨inside, .inr ⟨(h, l), ⟨(edges l).2 isLatch, rfl⟩, (back isLatch).2 ⟨vs, path, out⟩⟩⟩

theorem found_discover (he : p.IsEntry f e) :
    Found p.targets e (discover g f (backEdges p g (.ofProgram p g) (g.reached p) f)) := by
  generalize same : backEdges p g (.ofProgram p g) (g.reached p) f = edges
  have latches (h l : BlockId) : (h, l) ∈ edges ↔ Latch p.targets e h l :=
    same ▸ mem_backEdges_iff regular confined shows_p he
  have perm := List.mergeSort_perm
    ((edges.map (·.1)).eraseDups.map fun header => { func := f, header, blocks := body g edges header : Loop })
    fun a b => b.blocks.length ≤ a.blocks.length
  have member {x : Loop} : x ∈ discover g f edges ↔
      ∃ h l, Latch p.targets e h l ∧ x = { func := f, header := h, blocks := body g edges h } := by
    rw [discover, perm.mem_iff, List.mem_map]
    simp only [List.mem_eraseDups, List.mem_map, Prod.exists, exists_and_right, exists_eq_right, latches]
    exact exists_congr fun h => and_congr_right fun _ => eq_comm
  constructor
  · intro x hx
    obtain ⟨h, l, latch, rfl⟩ := member.1 hx
    exact ⟨l, latch⟩
  · intro x hx b
    obtain ⟨h, l, latch, rfl⟩ := member.1 hx
    subst same
    exact mem_body regular confined shows_p he latch
  · intro x hx
    obtain ⟨h, l, latch, rfl⟩ := member.1 hx
    exact List.nodup_range.filter _
  · rw [discover, (perm.map _).nodup_iff, List.map_map]
    simpa [Function.comp_def] using nodup_eraseDups (edges.map (·.1))
  · intro h l latch
    exact ⟨_, member.2 ⟨h, l, latch, rfl⟩, rfl⟩
  · rw [blockSets, List.pairwise_map]
    refine (List.pairwise_mergeSort ?_ ?_ _).imp fun le => of_decide_eq_true le
    · simp only [decide_eq_true_eq]
      exact fun a b c first second => second.trans first
    · simp only [Bool.or_eq_true, decide_eq_true_eq]
      exact fun a b => Nat.le_total ..

end

/-! ### The loops of a function -/

section
variable {p : Program} {g : FlowGraph} {d : Dominators} {reached : List BlockId} {f : FuncId} {e base : Nat}
variable {xs ys loops : List Loop} {x y : Loop}

def core (l : Loop) : Loop := { l with induction := none, tripCount := none }

theorem core_eq_core : core x = core y ↔ (x.func = y.func ∧ x.header = y.header ∧ x.blocks = y.blocks) ∧
    x.depth = y.depth ∧ x.parent = y.parent ∧ x.children = y.children := by
  simp [core, and_assoc]

theorem Nested.of_core (same : xs.map core = ys.map core) (nested : Nested base xs) : Nested base ys := by
  have sets : blockSets ys = blockSets xs := by
    have blocks := congrArg (List.map (·.blocks)) same
    rwa [List.map_map, List.map_map, eq_comm] at blocks
  have origin {i : Nat} {y : Loop} (hy : ys[i]? = some y) : ∃ x, xs[i]? = some x ∧
      x.depth = y.depth ∧ x.parent = y.parent ∧ x.children = y.children := by
    have here := congrArg (·[i]?) same
    simp only [List.getElem?_map, hy, Option.map_some, Option.map_eq_some_iff] at here
    obtain ⟨x, hx, eq⟩ := here
    exact ⟨x, hx, (core_eq_core.1 eq).2⟩
  refine ⟨sets ▸ nested.toChained, ?_, ?_, ?_, ?_, ?_⟩
  · intro i y hy
    obtain ⟨x, hx, -, parent, -⟩ := origin hy
    exact sets ▸ parent ▸ nested.parent i x hx
  · intro i y hy
    obtain ⟨x, hx, -, parent, -⟩ := origin hy
    exact sets ▸ parent ▸ nested.orphan i x hx
  · intro i y hy
    obtain ⟨x, hx, -, -, children⟩ := origin hy
    exact sets ▸ children ▸ nested.children i x hx
  · intro y hy
    obtain ⟨i, hi⟩ := List.mem_iff_getElem?.1 hy
    obtain ⟨x, hx, -, -, children⟩ := origin hi
    exact children ▸ nested.nodup x (List.mem_of_getElem? hx)
  · intro i y hy
    obtain ⟨x, hx, depth, -⟩ := origin hy
    exact sets ▸ depth ▸ nested.depth i x hx

def extentOf (l : Loop) : FuncId × BlockId × List BlockId := (l.func, l.header, l.blocks)

theorem map_extentOf_nest : (nest base xs).map extentOf = xs.map extentOf := by
  refine List.ext_getElem? fun i => ?_
  rw [List.getElem?_map, getElem?_nest, Option.map_map, List.getElem?_map]
  rfl

theorem Found.of_extentOf {next : Nat → List Nat} {start : Nat} (same : xs.map extentOf = ys.map extentOf)
    (found : Found next start xs) : Found next start ys := by
  have sets : blockSets ys = blockSets xs := by
    have blocks := congrArg (List.map (·.2.2)) same
    rwa [List.map_map, List.map_map, eq_comm] at blocks
  have headers : ys.map (·.header) = xs.map (·.header) := by
    have headers := congrArg (List.map (·.2.1)) same
    rwa [List.map_map, List.map_map, eq_comm] at headers
  have origin {y : Loop} (hy : y ∈ ys) : ∃ x ∈ xs, x.header = y.header ∧ x.blocks = y.blocks := by
    obtain ⟨x, hx, eq⟩ := List.mem_map.1 (same ▸ List.mem_map_of_mem hy)
    exact ⟨x, hx, congrArg (·.2.1) eq, congrArg (·.2.2) eq⟩
  refine ⟨?_, ?_, ?_, headers ▸ found.distinct, ?_, sets ▸ found.sorted⟩
  · intro y hy
    obtain ⟨x, hx, header, -⟩ := origin hy
    exact header ▸ found.latch x hx
  · intro y hy
    obtain ⟨x, hx, header, blocks⟩ := origin hy
    exact header ▸ blocks ▸ found.mem_blocks x hx
  · intro y hy
    obtain ⟨x, hx, -, blocks⟩ := origin hy
    exact blocks ▸ found.nodup_blocks x hx
  · intro h l latch
    obtain ⟨x, hx, rfl⟩ := found.complete h l latch
    have mem : x.header ∈ ys.map (·.header) := headers ▸ List.mem_map_of_mem hx
    exact List.mem_map.1 mem

theorem map_core_ofFunction (made : ofFunction p g d reached base f = .ok loops) :
    (nest base (discover g f (backEdges p g d reached f))).map core = loops.map core := by
  have each := forall₂_of_mapM_eq_ok made
  refine List.forall₂_eq_eq_eq ▸ List.forall₂_map_left_iff.2 (List.forall₂_map_right_iff.2 ?_)
  refine each.imp fun l x step => ?_
  cases found : induction? p l with
  | error e =>
    rw [found] at step
    cases step
  | ok v =>
    rw [found] at step
    cases v with
    | none =>
      cases step
      rfl
    | some v =>
      cases counted : tripCount? p g d l v with
      | error e => simp [counted, bind, Except.bind] at step
      | ok n =>
        simp only [counted, Checked.ok_bind, Checked.pure_eq, Except.ok.injEq] at step
        rw [← step]
        rfl

theorem map_extentOf_ofFunction (made : ofFunction p g d reached base f = .ok loops) :
    (discover g f (backEdges p g d reached f)).map extentOf = loops.map extentOf := by
  have same := congrArg (List.map extentOf) (map_core_ofFunction made)
  rw [List.map_map, List.map_map] at same
  exact map_extentOf_nest.symm.trans same

theorem func_ofFunction (made : ofFunction p g d reached base f = .ok loops) (hx : x ∈ loops) : x.func = f := by
  obtain ⟨y, hy, eq⟩ := List.mem_map.1 (map_extentOf_ofFunction made ▸ List.mem_map_of_mem hx)
  obtain ⟨h, -, rfl⟩ := List.mem_map.1 (List.mem_mergeSort.1 hy)
  exact (congrArg (·.1) eq).symm

section
variable (regular : p.Regular) (confined : p.Confined) (shows_p : g.Shows p)
variable (made : ofFunction p g (.ofProgram p g) (g.reached p) base f = .ok loops)
include regular confined shows_p made

theorem found_ofFunction (he : p.IsEntry f e) : Found p.targets e loops :=
  (found_discover regular confined shows_p he).of_extentOf (map_extentOf_ofFunction made)

theorem nested_ofFunction (he : p.IsEntry f e) : Nested base loops := by
  have laminar := (found_discover regular confined shows_p he).laminar
  exact (nested_nest laminar).of_core (map_core_ofFunction made)

end

end

/-! ### The loops of a program -/

structure IsNatural (p : Program) (e : BlockId) (x : Loop) : Prop where
  entry : p.IsEntry x.func e
  latch : ∃ l, Latch p.targets e x.header l
  mem_blocks : ∀ b, b ∈ x.blocks ↔ InLoop p.targets e x.header b

section
variable {p : Program} {g : FlowGraph} {e b : BlockId} {f : FuncId} {fs : List FuncId} {x : Loop}
variable {prior loops : List Loop} {base : Nat}

namespace IsNatural

theorem header_mem (natural : IsNatural p e x) : x.header ∈ x.blocks := (natural.mem_blocks _).2 .header

theorem reaches_header (natural : IsNatural p e x) : Reaches p.targets e x.header := by
  obtain ⟨l, latch⟩ := natural.latch
  exact latch.dominates.reaches latch.reaches

theorem func_of_mem (natural : IsNatural p e x) (confined : p.Confined) (mem : b ∈ x.blocks) :
    ∃ y : Block, p.blocks[b]? = some y ∧ y.func = x.func := by
  rcases (natural.mem_blocks b).1 mem with rfl | ⟨l, latch, vs, path, -⟩
  · exact confined.reached natural.entry natural.reaches_header
  · obtain ⟨y, hy, func⟩ := confined.reached natural.entry latch.reaches
    exact func ▸ confined.func_of_path path hy

end IsNatural

structure Gathered (p : Program) (fs : List FuncId) (loops : List Loop) : Prop where
  listed : ∀ x ∈ loops, x.func ∈ fs
  natural : ∀ x ∈ loops, ∃ e, IsNatural p e x
  unique : ∀ (i j : Nat) (x y : Loop), loops[i]? = some x → loops[j]? = some y → x.func = y.func →
    x.header = y.header → i = j
  complete : ∀ f ∈ fs, ∀ e h l, p.IsEntry f e → Latch p.targets e h l →
    ∃ x ∈ loops, x.func = f ∧ x.header = h
  nested : Nested 0 loops

theorem gathered_nil (p : Program) : Gathered p [] [] where
  listed := nofun
  natural := nofun
  unique := by simp
  complete := nofun
  nested := ⟨⟨by simp [blockSets], by simp [Inside, blockSets]⟩, by simp, by simp, by simp, by simp, by simp⟩

theorem Gathered.apart (gathered : Gathered p fs prior) (confined : p.Confined) (new : f ∉ fs)
    (natural : ∀ y ∈ loops, IsNatural p e y) (func : ∀ y ∈ loops, y.func = f) :
    Apart (blockSets prior) (blockSets loops) := by
  intro s hs t ht
  obtain ⟨x, hx, rfl⟩ := List.mem_map.1 hs
  obtain ⟨y, hy, rfl⟩ := List.mem_map.1 ht
  obtain ⟨e', natural_x⟩ := gathered.natural x hx
  have natural_y := natural y hy
  have differ : x.func ≠ y.func := fun same => new (func y hy ▸ same ▸ gathered.listed x hx)
  have common {b : BlockId} (first : b ∈ x.blocks) (second : b ∈ y.blocks) : False := by
    obtain ⟨u, hu, left⟩ := natural_x.func_of_mem confined first
    obtain ⟨v, hv, right⟩ := natural_y.func_of_mem confined second
    cases hu.symm.trans hv
    exact differ (left.symm.trans right)
  exact ⟨fun sub => common natural_x.header_mem (sub natural_x.header_mem),
    fun sub => common (sub natural_y.header_mem) natural_y.header_mem⟩

section
variable (regular : p.Regular) (confined : p.Confined) (shows_p : g.Shows p)
include regular confined shows_p

theorem Gathered.step (gathered : Gathered p fs prior) (new : f ∉ fs)
    (made : ofFunction p g (.ofProgram p g) (g.reached p) prior.length f = .ok loops) :
    Gathered p (fs ++ [f]) (prior ++ loops) := by
  have func : ∀ x ∈ loops, x.func = f := fun x => func_ofFunction made
  by_cases entry : ∃ e, p.IsEntry f e
  case neg =>
    -- A function without blocks has no loops.
    have empty : loops = [] := by
      have edges : backEdges p g (.ofProgram p g) (g.reached p) f = [] :=
        List.eq_nil_iff_forall_not_mem.2 fun edge mem => entry (Program.exists_entry (mem_backEdges.1 mem).1)
      have same := map_extentOf_ofFunction made
      have none : discover g f [] = [] := by simp [discover]
      rw [edges, none] at same
      exact List.map_eq_nil_iff.1 same.symm
    subst empty
    rw [List.append_nil]
    refine ⟨fun x hx => List.mem_append_left _ (gathered.listed x hx), gathered.natural, gathered.unique, ?_,
      gathered.nested⟩
    intro f' hf' e h l he
    rcases List.mem_append.1 hf' with hf' | hf'
    · exact gathered.complete f' hf' e h l he
    · exact absurd ⟨e, List.mem_singleton.1 hf' ▸ he⟩ entry
  obtain ⟨e, he⟩ := entry
  have found := found_ofFunction regular confined shows_p made he
  have natural : ∀ x ∈ loops, IsNatural p e x := fun x hx =>
    ⟨(func x hx).symm ▸ he, found.latch x hx, found.mem_blocks x hx⟩
  constructor
  · intro x hx
    rw [List.mem_append, List.mem_singleton]
    exact (List.mem_append.1 hx).imp (gathered.listed x) (func x)
  · intro x hx
    exact (List.mem_append.1 hx).elim (gathered.natural x) fun hx => ⟨e, natural x hx⟩
  · intro i j x y hx hy same header
    have apart {x y : Loop} (hx : x ∈ prior) (hy : y ∈ loops) : x.func ≠ y.func := fun same =>
      new (func y hy ▸ same ▸ gathered.listed x hx)
    rw [List.getElem?_append] at hx hy
    split at hx <;> split at hy
    · exact gathered.unique i j x y hx hy same header
    · exact absurd same (apart (List.mem_of_getElem? hx) (List.mem_of_getElem? hy))
    · exact absurd same.symm (apart (List.mem_of_getElem? hy) (List.mem_of_getElem? hx))
    · have := found.eq_of_header hx hy header
      omega
  · intro f' hf' e' h l he' latch
    simp only [List.mem_append]
    rcases List.mem_append.1 hf' with hf' | hf'
    · obtain ⟨x, hx, rest⟩ := gathered.complete f' hf' e' h l he' latch
      exact ⟨x, .inl hx, rest⟩
    · obtain rfl := List.mem_singleton.1 hf'
      cases he.unique he'
      obtain ⟨x, hx, header⟩ := found.complete h l latch
      exact ⟨x, .inr hx, func x hx, header⟩
  · have nested := nested_ofFunction regular confined shows_p made he
    exact gathered.nested.append (by rwa [Nat.zero_add]) (gathered.apart confined new natural func)

theorem Gathered.run {rest : List FuncId} {prior loops : Array Loop} (gathered : Gathered p fs prior.toList)
    (distinct : (fs ++ rest).Nodup)
    (made : rest.foldlM (fun loops f => do
      return loops ++ (← ofFunction p g (.ofProgram p g) (g.reached p) loops.size f).toArray) prior = .ok loops) :
    Gathered p (fs ++ rest) loops.toList := by
  induction rest generalizing fs prior with
  | nil =>
    cases made
    rwa [List.append_nil]
  | cons f rest ih =>
    rw [List.foldlM_cons] at made
    obtain ⟨_, grow, made⟩ := Checked.bind_eq_ok.1 made
    obtain ⟨own, first, ⟨⟩⟩ := Checked.bind_eq_ok.1 grow
    have new : f ∉ fs := fun mem => List.disjoint_of_nodup_append distinct mem List.mem_cons_self
    rw [List.append_cons] at distinct ⊢
    refine ih ?_ distinct made
    rw [Array.toList_append]
    exact gathered.step regular confined shows_p new first

theorem gathered_ofProgram {forest : LoopForest}
    (made : ofProgram p g (.ofProgram p g) (g.reached p) = .ok forest) :
    Gathered p p.functionIds forest.loops.toList := by
  obtain ⟨loops, run, ⟨⟩⟩ := Checked.bind_eq_ok.1 made
  exact (gathered_nil p).run regular confined shows_p List.nodup_range run

end
end

end LoopForest
end SsaFacts
