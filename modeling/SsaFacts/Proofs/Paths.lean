import SsaFacts.Execution
import SsaFacts.Proofs.ImmediateDominators

/-! Ways along edges: which of them a search follows, and what dominance says of their parts. -/
namespace SsaFacts

variable {next prev : Nat → List Nat} {start a b c d h x : Nat} {vs ws front back : List Nat}

theorem Path.lt_of_ascending {next : Nat → List Nat} {h a b : Nat} {vs : List Nat}
    (ascending : ∀ x y, y ∈ next x → y = h ∨ x < y) (path : Path next a vs b) (out : h ∉ vs) : vs = [a] ∨ a < b := by
  induction path with
  | refl => exact .inl rfl
  | @step vs b c path edge ih =>
    have up : b < c := (ascending b c edge).resolve_left fun same => out (by simp [same])
    rcases ih fun mem => out (.tail _ mem) with rfl | below
    · obtain rfl := List.mem_singleton.1 path.mem_last
      exact .inr up
    · exact .inr (below.trans up)

/-- A way leads from `a` to `b` that does not pass `h`. -/
def Avoids (next : Nat → List Nat) (h a b : Nat) : Prop := ∃ vs, Path next a vs b ∧ h ∉ vs

namespace Avoids

theorem trans (first : Avoids next h a b) (second : Avoids next h b c) : Avoids next h a c := by
  obtain ⟨vs, path, out⟩ := first
  obtain ⟨ws, path', out'⟩ := second
  refine ⟨_, path.append path', fun mem => ?_⟩
  exact ((path.mem_append path').1 mem).elim out out'

theorem edge (ha : h ≠ a) (hb : h ≠ b) (edge : b ∈ next a) : Avoids next h a b :=
  ⟨[b, a], Path.refl.step edge, by simp [ha, hb]⟩

theorem ne_last (avoids : Avoids next h a b) : h ≠ b := by
  obtain ⟨vs, path, out⟩ := avoids
  rintro rfl
  exact out path.mem_last

theorem of_mem (path : Path next a vs c) (out : h ∉ vs) (mem : x ∈ vs) : Avoids next h x c := by
  obtain ⟨front, back, rfl, -, -, rest⟩ := path.cut_last mem
  refine ⟨_, rest, fun hit => out ?_⟩
  rw [List.mem_append, List.mem_singleton] at hit
  rw [List.mem_append, List.mem_cons]
  tauto

end Avoids

theorem not_dominates_iff : ¬Dominates next start h b ↔ Avoids next h start b := by
  simp [Dominates, Avoids]

namespace Dominates

theorem refl (b : Nat) : Dominates next start b b := fun _ path => path.mem_last

theorem trans (first : Dominates next start a b) (second : Dominates next start b c) :
    Dominates next start a c := by
  intro vs path
  obtain ⟨front, back, rfl, -, before, -⟩ := path.cut_last (second vs path)
  exact List.mem_append_right front (first _ before)

theorem reaches (dominates : Dominates next start a b) (reaches : Reaches next start b) :
    Reaches next start a := by
  obtain ⟨vs, path⟩ := reaches
  exact path.reaches_of_mem (dominates vs path)

/-- Where a dominator can be reached without passing `x`, so can what follows on it without passing `x`. -/
theorem not_avoids (dominates : Dominates next start x c) (first : Avoids next x start a) :
    ¬Avoids next x a c :=
  fun second => not_dominates_iff.2 (first.trans second) dominates

/-- A way from `a` to what `b` dominates, cut at its last visit to `a`, still passes `b`, if `a` can be
reached without passing `b`. -/
theorem mem_of_avoids (dominates : Dominates next start b c) (first : Avoids next b start a)
    (path : Path next a (front ++ [a]) c) : b ∈ front := by
  by_contra out
  refine dominates.not_avoids first ⟨_, path, ?_⟩
  rw [List.mem_append, List.mem_singleton]
  rintro (hit | rfl)
  · exact out hit
  · exact first.ne_last rfl

/-- Of two dominators of a block one dominates the other. -/
theorem total (ha : Dominates next start a c) (hb : Dominates next start b c)
    (reaches : Reaches next start c) : Dominates next start a b ∨ Dominates next start b a := by
  by_contra! apart
  obtain ⟨toB, toA⟩ := apart.imp not_dominates_iff.1 not_dominates_iff.1
  obtain ⟨vs, path⟩ := reaches
  -- After its last visit to `a` the way passes `b`, and after that `a` once more.
  obtain ⟨front, back, rfl, last, -, after⟩ := path.cut_last (ha vs path)
  obtain ⟨later, between, rfl⟩ := List.append_of_mem (hb.mem_of_avoids toA after)
  rw [List.append_assoc, List.cons_append] at after
  exact last (List.mem_append_left _ (ha.mem_of_avoids toB after.cut.2))

end Dominates

/-- What a search finds: it starts at blocks of `starts` and goes on to blocks that are inside. -/
inductive Within (next : Nat → List Nat) (inside : Nat → Prop) (starts : List Nat) : Nat → Prop
  | start {x : Nat} (mem : x ∈ starts) (here : inside x) : Within next inside starts x
  | edge {a x : Nat} (within : Within next inside starts a) (edge : x ∈ next a) (here : inside x) :
      Within next inside starts x

theorem within_iff {inside : Nat → Prop} {starts : List Nat} :
    Within next inside starts b ↔ ∃ a ∈ starts, ∃ vs, Path next a vs b ∧ ∀ x ∈ vs, inside x := by
  constructor
  · intro within
    induction within with
    | start mem here => exact ⟨_, mem, _, .refl, by simpa using here⟩
    | edge _ edge here ih =>
      obtain ⟨a, mem, vs, path, all⟩ := ih
      exact ⟨a, mem, _, path.step edge, List.forall_mem_cons.2 ⟨here, all⟩⟩
  · rintro ⟨a, mem, vs, path, all⟩
    induction path with
    | refl => exact .start mem (all _ List.mem_cons_self)
    | step _ edge ih =>
      obtain ⟨here, all⟩ := List.forall_mem_cons.1 all
      exact .edge (ih all) edge here

theorem Within.mono {inside inside' : Nat → Prop} {starts starts' : List Nat}
    (within : Within next inside starts b) (sub : ∀ x, inside x → inside' x)
    (found : ∀ x ∈ starts, inside x → Within next inside' starts' x) : Within next inside' starts' b := by
  induction within with
  | start mem here => exact found _ mem here
  | edge _ edge here ih => exact .edge ih edge (sub _ here)

theorem mem_closure {remaining pending : List Nat} :
    b ∈ closure next remaining pending ↔ Within next (· ∈ remaining) pending b := by
  fun_induction closure next remaining pending with
  | case1 remaining =>
    simp [within_iff]
  | case2 remaining x rest taken ih =>
    have first : Within next (· ∈ remaining) (x :: rest) x := .start List.mem_cons_self taken
    rw [List.mem_cons, ih]
    constructor
    · rintro (rfl | within)
      · exact first
      · refine within.mono (fun _ => List.mem_of_mem_erase) fun y mem here => ?_
        have inside := List.mem_of_mem_erase here
        rcases List.mem_append.1 mem with edge | mem
        · exact .edge first edge inside
        · exact .start (.tail _ mem) inside
    · refine fun within => or_iff_not_imp_left.2 fun ne => ?_
      clear ih
      induction within with
      | start mem here =>
        exact .start (List.mem_append_right _ (List.mem_of_ne_of_mem ne mem))
          ((List.mem_erase_of_ne ne).2 here)
      | @edge a b _ edge here ih =>
        have inside := (List.mem_erase_of_ne ne).2 here
        by_cases same : a = x
        · exact .start (List.mem_append_left _ (same ▸ edge)) inside
        · exact .edge (ih same) edge inside
  | case3 remaining x rest out ih =>
    rw [ih]
    constructor
    · exact fun within => within.mono (fun _ => id) fun y mem here => .start (.tail _ mem) here
    · refine fun within => within.mono (fun _ => id) fun y mem here => ?_
      have ne : y ≠ x := fun same => out (same ▸ here)
      exact .start (List.mem_of_ne_of_mem ne mem) here

theorem nodup_closure {remaining pending : List Nat} (fresh : remaining.Nodup) :
    (closure next remaining pending).Nodup := by
  fun_induction closure next remaining pending with
  | case1 => exact .nil
  | case2 remaining x rest taken ih =>
    refine List.nodup_cons.2 ⟨fun again => ?_, ih (fresh.erase x)⟩
    -- what is found later is found among the nodes that are left
    cases mem_closure.1 again with
    | start _ here => exact fresh.not_mem_erase here
    | edge _ _ here => exact fresh.not_mem_erase here
  | case3 remaining x rest out ih => exact ih fresh

/-! ### Walks with a queue -/

section Flood
variable {nodes marked queue rest : List Nat}

theorem nodup_fresh {isOpen : Nat → Bool} {ys : List Nat} : (fresh isOpen marked ys).Nodup := by
  fun_induction fresh isOpen marked ys with
  | case1 => exact .nil
  | case2 marked y rest new ih =>
    exact List.nodup_cons.2 ⟨fun again => (mem_fresh.1 again).2.2 List.mem_cons_self, ih⟩
  | case3 marked y rest old ih => exact ih

/-- What a walk keeps to: marked nodes are distinct, those that are queued are marked, and where a marked node is not
queued any more all that it leads to is marked. -/
structure Walking (next : Nat → List Nat) (nodes marked queue : List Nat) : Prop where
  distinct : marked.Nodup
  queued : queue ⊆ marked
  settled : ∀ a ∈ marked, a ∉ queue → ∀ y ∈ next a, y ∈ nodes → y ∈ marked

theorem Walking.singleton (next : Nat → List Nat) (nodes : List Nat) (a : Nat) : Walking next nodes [a] [a] where
  distinct := List.nodup_singleton a
  queued := List.Subset.refl _
  settled := fun _ mem out => absurd mem out

theorem Walking.step (walking : Walking next nodes marked (x :: rest)) :
    let found := (fresh nodes.contains marked (next x)).reverse
    Walking next nodes (found ++ marked) (found ++ rest) := by
  intro found
  have mem_found (y : Nat) : y ∈ found ↔ y ∈ next x ∧ y ∈ nodes ∧ y ∉ marked := by simp [found, mem_fresh]
  refine ⟨?distinct, ?queued, ?settled⟩
  case distinct =>
    refine List.nodup_append'.2 ⟨List.nodup_reverse.2 nodup_fresh, walking.distinct, fun y new old => ?_⟩
    exact ((mem_found y).1 new).2.2 old
  case queued =>
    refine List.append_subset.2 ⟨List.subset_append_left _ _, fun y hy => ?_⟩
    exact List.mem_append_right _ (walking.queued (.tail _ hy))
  case settled =>
    intro a mem out y edge inside
    have unqueued : a ∉ rest := fun hit => out (List.mem_append_right _ hit)
    have old : a ∈ marked := (List.mem_append.1 mem).resolve_left fun new => out (List.mem_append_left _ new)
    refine List.mem_append.2 (or_iff_not_imp_right.2 fun unmarked => ?_)
    by_cases same : a = x
    · exact (mem_found y).2 ⟨same ▸ edge, inside, unmarked⟩
    · exact absurd (walking.settled a old (by simp [same, unqueued]) y edge inside) unmarked

/-- When the queue is empty, nothing that was marked is lost and all that is marked is settled. -/
theorem Walking.flood (walking : Walking next nodes marked queue) :
    marked ⊆ flood next nodes marked queue ∧ Walking next nodes (flood next nodes marked queue) [] := by
  fun_induction SsaFacts.flood next nodes marked queue with
  | case1 marked => exact ⟨List.Subset.refl _, walking⟩
  | case2 marked x rest found ih =>
    obtain ⟨kept, settled⟩ := ih walking.step
    exact ⟨List.Subset.trans (List.subset_append_right _ _) kept, settled⟩

theorem within_of_mem_flood {starts : List Nat} (walking : Walking next nodes marked queue)
    (sound : ∀ a ∈ marked, Within next (· ∈ nodes) starts a) :
    ∀ a ∈ flood next nodes marked queue, Within next (· ∈ nodes) starts a := by
  fun_induction flood next nodes marked queue with
  | case1 marked => exact sound
  | case2 marked x rest found ih =>
    refine ih walking.step (List.forall_mem_append.2 ⟨fun y new => ?_, sound⟩)
    obtain ⟨edge, inside, -⟩ := mem_fresh.1 (List.mem_reverse.1 new)
    exact .edge (sound x (walking.queued List.mem_cons_self)) edge (by simpa using inside)

/-- A walk that marks nodes when they are queued finds what a search finds that takes them when they come up. -/
theorem flood_perm_closure (inside : start ∈ nodes) (distinct : nodes.Nodup) :
    (flood next nodes [start] [start]).Perm (closure next nodes [start]) := by
  have walking := Walking.singleton next nodes start
  obtain ⟨kept, settled⟩ := walking.flood
  refine (List.perm_ext_iff_of_nodup settled.distinct (nodup_closure distinct)).2 fun b => ?_
  rw [mem_closure]
  constructor
  · refine within_of_mem_flood walking (fun a mem => ?_) b
    exact .start mem (List.mem_singleton.1 mem ▸ inside)
  · intro within
    induction within with
    | start mem _ => exact kept mem
    | edge _ edge here ih => exact settled.settled _ ih List.not_mem_nil _ edge here

end Flood

namespace FlowGraph
variable {g : FlowGraph} {sink : List BlockId}

theorem mem_outside : b ∈ g.outside sink ↔ b < g.size ∧ b ∉ sink := by
  simp [outside]

theorem nodup_outside : (g.outside sink).Nodup := List.nodup_range.filter _

theorem reach_perm_closure : (g.reach start sink).Perm (closure g.next (g.outside sink) [start]) := by
  rw [reach]
  split
  case isTrue inside => exact flood_perm_closure (by simpa using inside) nodup_outside
  case isFalse out => rw [closure, dif_neg (by simpa using out), closure]

theorem reachBack_perm_closure : (g.reachBack d sink).Perm (closure g.prev (g.outside sink) [d]) := by
  rw [reachBack]
  split
  case isTrue inside => exact flood_perm_closure (by simpa using inside) nodup_outside
  case isFalse out => rw [closure, dif_neg (by simpa using out), closure]

/-- A search that never enters a sink finds what is reached through blocks outside it. -/
theorem mem_reach_iff :
    b ∈ g.reach start sink ↔ ∃ vs, Path g.next start vs b ∧ ∀ x ∈ vs, x < g.size ∧ x ∉ sink := by
  rw [reach_perm_closure.mem_iff, mem_closure, within_iff]
  simp [mem_outside]

end FlowGraph

namespace FlowGraph.Shows
variable {g : FlowGraph} {p : Program} {f : FuncId} {e : BlockId} {sink : List BlockId}

theorem edge_lt (shows_p : g.Shows p) (confined : p.Confined) (edge : b ∈ p.targets a) :
    a < g.size ∧ b < g.size := by
  obtain ⟨x, hx, mem⟩ := Program.mem_targets.1 edge
  obtain ⟨y, hy, -⟩ := confined.targets a x hx b mem
  rw [shows_p.size_eq]
  exact ⟨(Array.getElem?_eq_some_iff.1 hx).1, (Array.getElem?_eq_some_iff.1 hy).1⟩

theorem path_lt (shows_p : g.Shows p) (path : Path p.targets a vs b) (inside : b < g.size) :
    ∀ x ∈ vs, x < g.size := by
  induction path with
  | refl => simpa using inside
  | step _ edge ih =>
    obtain ⟨x, hx, -⟩ := Program.mem_targets.1 edge
    exact List.forall_mem_cons.2 ⟨inside, ih (shows_p.size_eq ▸ (Array.getElem?_eq_some_iff.1 hx).1)⟩

theorem mem_reachBack (shows_p : g.Shows p) (inside : d < g.size) :
    b ∈ g.reachBack d sink ↔ ∃ vs, Path p.targets b vs d ∧ ∀ x ∈ vs, x ∉ sink := by
  have mirror : ∀ a b, a ∈ g.prev b ↔ b ∈ p.targets a := fun a b =>
    (shows_p.mirror a b).trans (shows_p.mem_next a b)
  rw [reachBack_perm_closure.mem_iff, mem_closure, within_iff]
  simp only [List.mem_singleton, exists_eq_left, mem_outside]
  constructor
  · rintro ⟨vs, path, all⟩
    exact ⟨_, path.reverse mirror, fun x hx => (all x (List.mem_reverse.1 hx)).2⟩
  · rintro ⟨vs, path, all⟩
    refine ⟨_, path.reverse fun a b => (mirror b a).symm, fun x hx => ?_⟩
    rw [List.mem_reverse] at hx
    exact ⟨shows_p.path_lt path inside x hx, all x hx⟩

theorem mem_reachBack_singleton (shows_p : g.Shows p) (inside : d < g.size) :
    b ∈ g.reachBack d [h] ↔ Avoids p.targets h b d := by
  rw [shows_p.mem_reachBack inside]
  simp only [List.mem_singleton, Avoids, ← List.forall_mem_ne']

theorem lt_of_reaches (shows_p : g.Shows p) (confined : p.Confined) (he : p.IsEntry f e)
    (reaches : Reaches p.targets e b) : b < g.size := by
  obtain ⟨x, hx, -⟩ := confined.reached he reaches
  exact shows_p.size_eq ▸ (Array.getElem?_eq_some_iff.1 hx).1

theorem mem_reached (shows_p : g.Shows p) (confined : p.Confined) :
    b ∈ g.reached p ↔ ∃ f e, p.IsEntry f e ∧ Reaches p.targets e b := by
  rw [reached, mem_closure, within_iff]
  simp only [Dominators.mem_entries, List.mem_range, shows_p.path_iff]
  constructor
  · rintro ⟨e, ⟨f, he⟩, vs, path, -⟩
    exact ⟨f, e, he, vs, path⟩
  · rintro ⟨f, e, he, vs, path⟩
    exact ⟨e, ⟨f, he⟩, vs, path, shows_p.path_lt path (shows_p.lt_of_reaches confined he ⟨vs, path⟩)⟩

end FlowGraph.Shows

theorem Dominators.idom?_lt {g : FlowGraph} {p : Program} {b d : BlockId} (confined : p.Confined)
    (shows_p : g.Shows p) (parent : (ofProgram p g).idom? b = some d) : d < p.blocks.size := by
  by_cases reached : ∃ f e, p.IsEntry f e ∧ Reaches p.targets e b ∧ b ≠ e
  · obtain ⟨f, e, he, reaches, ne⟩ := reached
    obtain ⟨d', found, closest⟩ := exists_closest confined shows_p he reaches ne
    cases parent.symm.trans found
    exact shows_p.size_eq ▸ shows_p.lt_of_reaches confined he (closest.dominates.reaches reaches)
  · push Not at reached
    rw [idom?_eq_none confined shows_p reached] at parent
    cases parent

end SsaFacts
