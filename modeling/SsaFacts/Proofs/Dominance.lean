import SsaFacts.Flow.Dominators
import SsaFacts.Proofs.Postorder

/-! Dominance and the trees that approximate it. A tree is kept such that the dominators of a block are
among the blocks above it; a round only ever takes blocks away from above a block. When a round takes none
away, the blocks above a block are its dominators. -/
namespace SsaFacts

variable {next : Nat → List Nat} {start : Nat} {order : List Nat} {a b c d m x y : Nat}

/-- Every way from the start to `b` passes `a`. -/
def Dominates (next : Nat → List Nat) (start a b : Nat) : Prop := ∀ vs, Path next start vs b → a ∈ vs

theorem Dominates.pred (h : Dominates next start a b) (ne : a ≠ b) (edge : b ∈ next c) :
    Dominates next start a c :=
  fun vs path => List.mem_of_ne_of_mem ne (h (b :: vs) (path.step edge))

theorem Dominates.eq_start (h : Dominates next start a start) : a = start :=
  List.mem_singleton.1 (h [start] .refl)

theorem Dominates.antisymm (first : Dominates next start a b) (second : Dominates next start b a)
    (reaches : Reaches next start b) : a = b := by
  by_contra ne
  obtain ⟨vs, path⟩ := reaches
  -- On its first way to `b` the walk passes `a`, and before that `b`.
  obtain ⟨front, back, -, fresh, before, -⟩ := path.cut_first path.mem_last
  obtain ⟨later, earlier, rfl⟩ := List.append_of_mem (List.mem_of_ne_of_mem ne (first _ before))
  rw [← List.cons_append] at before
  exact fresh (List.mem_append_right later (second _ before.cut.1))

/-- `d` is the strict dominator of `b` that every other one dominates. -/
@[mk_iff] structure Closest (next : Nat → List Nat) (start d b : Nat) : Prop where
  ne : d ≠ b
  dominates : Dominates next start d b
  below : ∀ a, a ≠ b → Dominates next start a b → Dominates next start a d

namespace Numbers

theorem start_mem (n : Numbers next start order) : start ∈ order := (n.mem_iff start).2 .refl

theorem exists_eq_cons (n : Numbers next start order) : ∃ rest, order = start :: rest := by
  obtain ⟨first, rest, rfl⟩ := List.exists_cons_of_ne_nil (List.ne_nil_of_mem n.start_mem)
  by_cases same : first = start
  · exact ⟨rest, same ▸ rfl⟩
  · obtain ⟨a, -, -, before⟩ := n.parent first List.mem_cons_self same
    rw [List.idxOf_cons_self] at before
    exact absurd before (Nat.not_lt_zero _)

theorem idxOf_start (n : Numbers next start order) : order.idxOf start = 0 := by
  obtain ⟨rest, rfl⟩ := n.exists_eq_cons
  exact List.idxOf_cons_self

theorem mem_tail (n : Numbers next start order) : b ∈ order.tail ↔ b ∈ order ∧ b ≠ start := by
  obtain ⟨rest, rfl⟩ := n.exists_eq_cons
  have new : start ∉ rest := (List.nodup_cons.1 n.nodup).1
  constructor
  · intro hb
    exact ⟨.tail _ hb, fun same => new (same ▸ hb)⟩
  · rintro ⟨hb, ne⟩
    exact List.mem_of_ne_of_mem ne hb

theorem ne_start (n : Numbers next start order) (h : order.idxOf a < order.idxOf b) : b ≠ start := by
  rintro rfl
  rw [n.idxOf_start] at h
  exact Nat.not_lt_zero _ h

theorem exists_path (n : Numbers next start order) (hb : b ∈ order) :
    ∃ vs, Path next start vs b ∧ ∀ x ∈ vs, order.idxOf x ≤ order.idxOf b := by
  induction h : order.idxOf b using Nat.strong_induction_on generalizing b with
  | _ i ih =>
    by_cases same : b = start
    · subst same
      exact ⟨[b], .refl, by simp [h]⟩
    · obtain ⟨a, ha, edge, before⟩ := n.parent b hb same
      obtain ⟨vs, path, earlier⟩ := ih _ (h ▸ before) ha rfl
      refine ⟨b :: vs, path.step edge, List.forall_mem_cons.2 ⟨h.le, fun x hx => ?_⟩⟩
      exact (earlier x hx).trans (h ▸ before.le)

theorem idxOf_le (n : Numbers next start order) (hb : b ∈ order) (h : Dominates next start a b) :
    order.idxOf a ≤ order.idxOf b := by
  obtain ⟨vs, path, earlier⟩ := n.exists_path hb
  exact earlier a (h vs path)

end Numbers

inductive Above (up : Nat → Option Nat) (start : Nat) : Nat → Nat → Prop
  | refl (b : Nat) : Above up start b b
  | up {a b d : Nat} (ne : b ≠ start) (parent : up b = some d) (above : Above up start a d) :
      Above up start a b

/-- A tree of numbered blocks: the start is its own parent, the parent of any other block comes before
it. -/
structure Tree (order : List Nat) (start : Nat) (up : Nat → Option Nat) : Prop where
  root : up start = some start
  within : ∀ b, (up b).isSome → b ∈ order
  rises : ∀ b d, b ≠ start → up b = some d → order.idxOf d < order.idxOf b ∧ (up d).isSome

namespace Above
variable {up : Nat → Option Nat}

theorem strict (h : Above up start a b) (ne : a ≠ b) :
    b ≠ start ∧ ∃ d, up b = some d ∧ Above up start a d := by
  cases h with
  | refl => exact absurd rfl ne
  | up other parent above => exact ⟨other, _, parent, above⟩

theorem idxOf_le (h : Above up start a b) (tree : Tree order start up) : order.idxOf a ≤ order.idxOf b := by
  induction h with
  | refl => exact le_rfl
  | up ne parent _ ih => exact ih.trans (tree.rises _ _ ne parent).1.le

theorem isSome (h : Above up start a b) (tree : Tree order start up) (hb : (up b).isSome) :
    (up a).isSome := by
  induction h with
  | refl => exact hb
  | up ne parent _ ih => exact ih (tree.rises _ _ ne parent).2

end Above

namespace Dominators
variable {g : FlowGraph} {up : Nat → Option Nat}

/-- Going up from the later of `a` and `b`, for as long as they differ, comes to `m`. -/
inductive Meets (order : List Nat) (up : Nat → Option Nat) : Nat → Nat → Nat → Prop
  | same (a : Nat) : Meets order up a a a
  | left {a b d m : Nat} (later : order.idxOf b < order.idxOf a) (parent : up a = some d)
      (rest : Meets order up d b m) : Meets order up a b m
  | right {a b d m : Nat} (later : order.idxOf a < order.idxOf b) (parent : up b = some d)
      (rest : Meets order up a d m) : Meets order up a b m

theorem meets_meet (n : Numbers next start order) (tree : Tree order start up) {steps : Nat}
    (ha : (up a).isSome) (hb : (up b).isSome) (enough : order.idxOf a + order.idxOf b < steps) :
    Meets order up a b (meet order up steps a b) := by
  induction steps generalizing a b with
  | zero => exact absurd enough (Nat.not_lt_zero _)
  | succ steps ih =>
    rw [meet]
    by_cases same : a = b
    · subst same
      rw [if_pos rfl]
      exact .same a
    rw [if_neg same]
    split
    case isTrue later =>
      obtain ⟨d, parent⟩ := Option.isSome_iff_exists.1 ha
      obtain ⟨before, hd⟩ := tree.rises a d (n.ne_start later) parent
      rw [parent, Option.getD_some]
      exact .left later parent (ih hd hb (by omega))
    case isFalse earlier =>
      have other : order.idxOf a ≠ order.idxOf b := fun eq =>
        same ((List.idxOf_inj (tree.within a ha)).1 eq)
      have later : order.idxOf a < order.idxOf b := by omega
      obtain ⟨d, parent⟩ := Option.isSome_iff_exists.1 hb
      obtain ⟨before, hd⟩ := tree.rises b d (n.ne_start later) parent
      rw [parent, Option.getD_some]
      exact .right later parent (ih ha hd (by omega))

namespace Meets

theorem above_iff (h : Meets order up a b m) (n : Numbers next start order) (tree : Tree order start up) :
    Above up start y m ↔ Above up start y a ∧ Above up start y b := by
  -- What is above the earlier block is not the later one, hence above the later one's parent.
  have skip {a b d : Nat} (later : order.idxOf b < order.idxOf a) (parent : up a = some d)
      (hb : Above up start y b) : Above up start y a ↔ Above up start y d := by
    refine ⟨fun h => ?_, .up (n.ne_start later) parent⟩
    obtain ⟨-, d', parent', above⟩ := h.strict fun same => by
      have le := hb.idxOf_le tree
      rw [same] at le
      omega
    rwa [← Option.some.inj (parent'.symm.trans parent)]
  induction h with
  | same => exact (and_self_iff).symm
  | left later parent _ ih => exact ih.trans (and_congr_left fun hb => (skip later parent hb).symm)
  | right later parent _ ih => exact ih.trans (and_congr_right fun ha => (skip later parent ha).symm)

theorem isSome (h : Meets order up a b m) (n : Numbers next start order) (tree : Tree order start up)
    (ha : (up a).isSome) : (up m).isSome :=
  (((h.above_iff n tree).1 (.refl m)).1).isSome tree ha

end Meets

theorem join?_spec (n : Numbers next start order) (tree : Tree order start up)
    (known : ∃ a ∈ g.prev b, (up a).isSome) :
    ∃ m, join? g order up b = some m ∧ (up m).isSome ∧
      ∀ y, Above up start y m ↔ ∀ a ∈ g.prev b, (up a).isSome → Above up start y a := by
  have fold (rest : List Nat) (hrest : ∀ c ∈ rest, (up c).isSome) (a : Nat) (ha : (up a).isSome) :
      (up (rest.foldl (fun d c => meet order up (2 * order.length) c d) a)).isSome ∧
        ∀ y, Above up start y (rest.foldl (fun d c => meet order up (2 * order.length) c d) a) ↔
          ∀ c ∈ a :: rest, Above up start y c := by
    induction rest generalizing a with
    | nil => simpa using ha
    | cons c rest ih =>
      obtain ⟨hc, hrest⟩ := List.forall_mem_cons.1 hrest
      have bound {x : Nat} (hx : (up x).isSome) : order.idxOf x < order.length :=
        List.idxOf_lt_length_iff.2 (tree.within x hx)
      have enough : order.idxOf c + order.idxOf a < 2 * order.length := by
        have := bound hc
        have := bound ha
        omega
      have met := meets_meet n tree hc ha enough
      obtain ⟨some, above⟩ := ih hrest _ (met.isSome n tree hc)
      refine ⟨some, fun y => ?_⟩
      rw [List.foldl_cons, above, List.forall_mem_cons, List.forall_mem_cons, List.forall_mem_cons,
        met.above_iff n tree]
      tauto
  rw [join?]
  obtain ⟨a, ha, hup⟩ := known
  have filtered : a ∈ (g.prev b).filter fun a => (up a).isSome := List.mem_filter.2 ⟨ha, hup⟩
  have mem (c : Nat) : c ∈ (g.prev b).filter (fun a => (up a).isSome) ↔ c ∈ g.prev b ∧ (up c).isSome :=
    List.mem_filter
  generalize (g.prev b).filter (fun a => (up a).isSome) = preds at filtered mem
  cases preds with
  | nil => cases filtered
  | cons first rest =>
    have hfirst := ((mem first).1 List.mem_cons_self).2
    obtain ⟨some, above⟩ := fold rest (fun c hc => ((mem c).1 (.tail _ hc)).2) first hfirst
    refine ⟨_, rfl, some, fun y => (above y).trans ?_⟩
    simp only [mem, and_imp]

structure Improving (g : FlowGraph) (order : List Nat) (start : Nat) (i : Nat)
    (up : Nat → Option Nat) : Prop extends Tree order start up where
  known : ∀ b ∈ order, order.idxOf b < i → (up b).isSome
  /-- The other dominators of a block dominate its parent. -/
  dominated : ∀ b d, b ≠ start → up b = some d → ∀ a, Dominates g.next start a b → a ≠ b →
    Dominates g.next start a d
  /-- What is above all predecessors is above the block. -/
  joined : ∀ b, b ≠ start → (up b).isSome → ∀ y,
    (∀ a ∈ g.prev b, (up a).isSome → Above up start y a) → Above up start y b
  /-- What is above a block is above an earlier predecessor, unless the round is between the two. -/
  passed : ∀ b, b ≠ start → (up b).isSome → ∀ y, Above up start y b → y ≠ b →
    i ≤ order.idxOf y ∨ order.idxOf b < i →
      ∃ a ∈ g.prev b, (up a).isSome ∧ order.idxOf a < order.idxOf b ∧ Above up start y a

namespace Improving
variable {i : Nat}

theorem above_of_dominates (h : Improving g order start i up) (hb : (up b).isSome)
    (dominates : Dominates g.next start a b) : Above up start a b := by
  induction hi : order.idxOf b using Nat.strong_induction_on generalizing b with
  | _ _ ih =>
    by_cases same : a = b
    · subst same
      exact .refl a
    · have ne : b ≠ start := by
        rintro rfl
        exact same dominates.eq_start
      obtain ⟨d, parent⟩ := Option.isSome_iff_exists.1 hb
      obtain ⟨before, hd⟩ := h.rises b d ne parent
      exact .up ne parent (ih _ (hi ▸ before) hd (h.dominated b d ne parent a dominates same) rfl)

/-- A dominator of a block dominates what lies between the two in the tree. -/
theorem dominates_between (h : Improving g order start i up) (dominates : Dominates g.next start a b)
    (above : Above up start m b) (le : order.idxOf a ≤ order.idxOf m) : Dominates g.next start a m := by
  induction above with
  | refl => exact dominates
  | up ne parent above ih =>
    refine ih (h.dominated _ _ ne parent a dominates ?_)
    rintro rfl
    have := above.idxOf_le h.toTree
    have := (h.rises _ _ ne parent).1
    omega

end Improving

def hang (up : Nat → Option Nat) (b m : Nat) : Nat → Option Nat := Function.update up b (some m)

theorem hang_self : hang up b m b = some m := Function.update_self ..

theorem hang_of_ne (ne : x ≠ b) : hang up b m x = up x := Function.update_of_ne ne ..

theorem hang_isSome (h : (up x).isSome) : (hang up b m x).isSome := by
  by_cases same : x = b
  · rw [same, hang_self]
    rfl
  · rwa [hang_of_ne same]

structure Hung (g : FlowGraph) (order : List Nat) (start i : Nat) (up : Nat → Option Nat) (b m : Nat) :
    Prop extends Improving g order start i up where
  ne_start : b ≠ start
  mem : b ∈ order
  idxOf_eq : order.idxOf b = i
  isSome : (up m).isSome
  /-- The predecessor from which the search entered the block. -/
  entered : ∃ a ∈ g.prev b, (up a).isSome ∧ order.idxOf a < order.idxOf b
  above_iff : ∀ y, Above up start y m ↔ ∀ a ∈ g.prev b, (up a).isSome → Above up start y a

namespace Hung
variable {i : Nat}

theorem idxOf_lt (h : Hung g order start i up b m) : order.idxOf m < order.idxOf b := by
  obtain ⟨a, ha, hup, before⟩ := h.entered
  exact (((h.above_iff m).1 (.refl m) a ha hup).idxOf_le h.toTree).trans_lt before

theorem not_above (h : Hung g order start i up b m) (before : order.idxOf x < order.idxOf b) :
    ¬Above up start b x := fun above => (above.idxOf_le h.toTree).not_gt before

theorem above_stable (outside : ¬Above up start b x) :
    Above (hang up b m) start y x ↔ Above up start y x := by
  constructor
  · intro above
    induction above with
    | refl => exact .refl _
    | @up x d ne parent above ih =>
      have other : x ≠ b := by
        rintro rfl
        exact outside (.refl x)
      rw [hang_of_ne other] at parent
      exact .up ne parent (ih fun inside => outside (.up ne parent inside))
  · intro above
    induction above with
    | refl => exact .refl _
    | @up x d ne parent above ih =>
      have other : x ≠ b := by
        rintro rfl
        exact outside (.refl x)
      exact .up ne (by rwa [hang_of_ne other]) (ih fun inside => outside (.up ne parent inside))

theorem above_hung (h : Hung g order start i up b m) :
    Above (hang up b m) start y b ↔ y = b ∨ Above up start y m := by
  have outside : ¬Above up start b m := h.not_above h.idxOf_lt
  constructor
  · intro above
    by_cases same : y = b
    · exact .inl same
    · obtain ⟨-, d, parent, above⟩ := above.strict same
      rw [hang_self] at parent
      cases parent
      exact .inr ((above_stable outside).1 above)
  · rintro (rfl | above)
    · exact .refl y
    · exact .up h.ne_start hang_self ((above_stable outside).2 above)

theorem above_of_hang (h : Hung g order start i up b m) (hx : (up x).isSome)
    (above : Above (hang up b m) start y x) : Above up start y x := by
  induction above with
  | refl => exact .refl _
  | @up x d ne parent above ih =>
    by_cases same : x = b
    · subst same
      rcases h.above_hung.1 (.up ne parent above) with rfl | above
      · exact .refl y
      · exact h.joined x ne hx y ((h.above_iff y).1 above)
    · rw [hang_of_ne same] at parent
      exact .up ne parent (ih (h.rises x d ne parent).2)

theorem above_hang (h : Hung g order start i up b m) (above : Above up start y x)
    (kept : Above up start b x → Above up start y b → y = b ∨ Above up start y m) :
    Above (hang up b m) start y x := by
  induction above with
  | refl => exact .refl _
  | @up x d ne parent above ih =>
    by_cases same : x = b
    · subst same
      exact h.above_hung.2 (kept (.refl x) (.up ne parent above))
    · refine .up ne (by rwa [hang_of_ne same]) (ih fun inside => kept (.up ne parent inside))

theorem kept_of_above (h : Hung g order start i up b m) (inside : Above up start b x)
    (above : Above (hang up b m) start y x) (hy : Above up start y b) : y = b ∨ Above up start y m := by
  induction inside with
  | refl => exact h.above_hung.1 above
  | @up x d ne parent inside ih =>
    have before : order.idxOf b < order.idxOf x :=
      (inside.idxOf_le h.toTree).trans_lt (h.rises x d ne parent).1
    have other : x ≠ b := by
      rintro rfl
      exact Nat.lt_irrefl _ before
    obtain ⟨-, d', parent', above⟩ := above.strict fun same => by
      have := hy.idxOf_le h.toTree
      rw [same] at this
      omega
    rw [hang_of_ne other, parent] at parent'
    cases parent'
    exact ih above

theorem tree (h : Hung g order start i up b m) : Tree order start (hang up b m) where
  root := by
    rw [hang_of_ne h.ne_start.symm]
    exact h.root
  within x hx := by
    by_cases same : x = b
    · exact same ▸ h.mem
    · rw [hang_of_ne same] at hx
      exact h.within x hx
  rises x d ne parent := by
    by_cases same : x = b
    · subst same
      rw [hang_self] at parent
      cases parent
      exact ⟨h.idxOf_lt, hang_isSome h.isSome⟩
    · rw [hang_of_ne same] at parent
      obtain ⟨before, hd⟩ := h.rises x d ne parent
      exact ⟨before, hang_isSome hd⟩

/-- The dominators of the block dominate the place where its predecessors meet. -/
theorem dominated_hung (h : Hung g order start i up b m)
    (mirror : ∀ a b, a ∈ g.prev b ↔ b ∈ g.next a) (dominates : Dominates g.next start a b) (ne : a ≠ b) :
    Dominates g.next start a m := by
  have preds : ∀ c ∈ g.prev b, Dominates g.next start a c :=
    fun c hc => dominates.pred ne ((mirror c b).1 hc)
  have above : Above up start a m :=
    (h.above_iff a).2 fun c hc hup => h.above_of_dominates hup (preds c hc)
  obtain ⟨c, hc, hup, -⟩ := h.entered
  exact h.dominates_between (preds c hc) ((h.above_iff m).1 (.refl m) c hc hup) (above.idxOf_le h.toTree)

theorem joined_hung (h : Hung g order start i up b m) (hx : (hang up b m x).isSome) (ne : x ≠ start)
    (preds : ∀ a ∈ g.prev x, (hang up b m a).isSome → Above (hang up b m) start y a) :
    Above (hang up b m) start y x := by
  have before : ∀ a ∈ g.prev x, (up a).isSome → Above up start y a :=
    fun a ha hup => h.above_of_hang hup (preds a ha (hang_isSome hup))
  by_cases same : x = b
  · subst same
    exact h.above_hung.2 (.inr ((h.above_iff y).2 before))
  · rw [hang_of_ne same] at hx
    refine h.above_hang (h.joined x ne hx y before) fun inside hy => ?_
    -- `b` is above `x`, hence above a predecessor of `x`, and `y` is still above that one.
    obtain ⟨a, ha, hup, -, through⟩ := h.passed x ne hx b inside (Ne.symm same) (.inl h.idxOf_eq.ge)
    exact h.kept_of_above through (preds a ha (hang_isSome hup)) hy

theorem passed_hung (h : Hung g order start i up b m) (hx : (hang up b m x).isSome) (ne : x ≠ start)
    (above : Above (hang up b m) start y x) (other : y ≠ x)
    (apart : i + 1 ≤ order.idxOf y ∨ order.idxOf x < i + 1) :
    ∃ a ∈ g.prev x, (hang up b m a).isSome ∧ order.idxOf a < order.idxOf x ∧
      Above (hang up b m) start y a := by
  by_cases same : x = b
  · subst same
    obtain ⟨a, ha, hup, before⟩ := h.entered
    have high := (h.above_hung.1 above).resolve_left other
    refine ⟨a, ha, hang_isSome hup, before, (above_stable (h.not_above before)).2 ?_⟩
    exact (h.above_iff y).1 high a ha hup
  · rw [hang_of_ne same] at hx
    have old := h.above_of_hang hx above
    by_cases early : order.idxOf x < i
    · obtain ⟨a, ha, hup, before, high⟩ := h.passed x ne hx y old other (.inr early)
      have outside : ¬Above up start b a := h.not_above (by rw [h.idxOf_eq]; omega)
      exact ⟨a, ha, hang_isSome hup, before, (above_stable outside).2 high⟩
    · have late : order.idxOf x ≠ i := by
        intro eq
        rw [← h.idxOf_eq] at eq
        exact same ((List.idxOf_inj (h.within x hx)).1 eq)
      have below : i + 1 ≤ order.idxOf y := by omega
      obtain ⟨a, ha, hup, before, high⟩ := h.passed x ne hx y old other (.inl (by omega))
      refine ⟨a, ha, hang_isSome hup, before, h.above_hang high fun _ hy => ?_⟩
      have := hy.idxOf_le h.toTree
      rw [h.idxOf_eq] at this
      omega

/-- Hanging a block keeps the tree as it should be, and the round goes on. -/
theorem improving (h : Hung g order start i up b m) (mirror : ∀ a b, a ∈ g.prev b ↔ b ∈ g.next a) :
    Improving g order start (i + 1) (hang up b m) where
  toTree := h.tree
  known x hx before := by
    by_cases same : x = b
    · rw [same, hang_self]
      rfl
    · have other : order.idxOf x ≠ order.idxOf b := fun eq => same ((List.idxOf_inj hx).1 eq)
      rw [h.idxOf_eq] at other
      exact hang_isSome (h.known x hx (by omega))
  dominated x d ne parent a dominates other := by
    by_cases same : x = b
    · subst same
      rw [hang_self] at parent
      cases parent
      exact h.dominated_hung mirror dominates other
    · rw [hang_of_ne same] at parent
      exact h.dominated x d ne parent a dominates other
  joined x ne hx _ preds := h.joined_hung hx ne preds
  passed x ne hx _ above other apart := h.passed_hung hx ne above other apart

end Hung

def height (order : List Nat) (up : Nat → Option Nat) (b : Nat) : Nat :=
  match up b with
  | none => order.length
  | some d => order.idxOf d

def weight (order : List Nat) (up : Nat → Option Nat) : Nat := (order.map (height order up)).sum

theorem Hung.weight_lt {i : Nat} (h : Hung g order start i up b m) (changed : up b ≠ some m) :
    weight order (hang up b m) < weight order up := by
  have higher : height order (hang up b m) b < height order up b := by
    rw [height, hang_self, height]
    cases parent : up b with
    | none => exact List.idxOf_lt_length_iff.2 (h.within m h.isSome)
    | some d =>
      have old : Above up start m b :=
        h.joined b h.ne_start (by rw [parent]; rfl) m ((h.above_iff m).1 (.refl m))
      obtain ⟨-, d', parent', above⟩ := old.strict fun same => by
        have := h.idxOf_lt
        rw [same] at this
        exact Nat.lt_irrefl _ this
      rw [parent] at parent' changed
      cases parent'
      have other : order.idxOf m ≠ order.idxOf d :=
        fun eq => changed (congrArg some ((List.idxOf_inj (h.within m h.isSome)).1 eq).symm)
      exact lt_of_le_of_ne (above.idxOf_le h.toTree) other
  refine List.sum_lt_sum _ _ (fun x _ => ?_) ⟨b, h.mem, higher⟩
  by_cases same : x = b
  · exact same ▸ higher.le
  · rw [height, hang_of_ne same, height]

/-- After a full round the next one can start. -/
theorem Improving.restart {i : Nat} (h : Improving g order start i up) (full : order.length ≤ i) (j : Nat) :
    Improving g order start j up where
  toTree := h.toTree
  known b hb _ := h.known b hb ((List.idxOf_lt_length_iff.2 hb).trans_le full)
  dominated := h.dominated
  joined := h.joined
  passed b ne hb y above other _ := by
    have early : order.idxOf b < i := (List.idxOf_lt_length_iff.2 (h.within b hb)).trans_le full
    exact h.passed b ne hb y above other (.inr early)

def look (tree : Array (Option Nat)) (b : Nat) : Option Nat := tree.getD b none

theorem look_set {tree : Array (Option Nat)} (hb : b < tree.size) :
    look (tree.setIfInBounds b (some m)) = hang (look tree) b m := by
  funext x
  by_cases same : x = b
  · subst same
    rw [hang_self, look]
    simp [hb]
  · rw [hang_of_ne same, look, look]
    simp [Ne.symm same]

theorem look_injective {tree tree' : Array (Option Nat)} (size : tree.size = tree'.size)
    (same : look tree = look tree') : tree = tree' := by
  refine Array.ext size fun x hx hx' => ?_
  have eq := congrFun same x
  simpa [look, hx, hx'] using eq

structure Numbered (g : FlowGraph) (start : Nat) (order : List Nat) : Prop where
  numbers : Numbers g.next start order
  mirror : ∀ a b, a ∈ g.prev b ↔ b ∈ g.next a
  bound : ∀ b ∈ order, b < g.size

section
variable {tree : Array (Option Nat)} {i steps : Nat} (graph : Numbered g start order)
include graph

theorem improve_spec (h : Improving g order start i (look tree)) (mem : b ∈ order) (ne : b ≠ start)
    (idxOf_eq : order.idxOf b = i) :
    ∃ m, join? g order (look tree) b = some m ∧ Hung g order start i (look tree) b m ∧
      improve g order tree b = tree.setIfInBounds b (some m) := by
  obtain ⟨a, ha, edge, before⟩ := graph.numbers.parent b mem ne
  have entered : ∃ a ∈ g.prev b, (look tree a).isSome ∧ order.idxOf a < order.idxOf b :=
    ⟨a, (graph.mirror a b).2 edge, h.known a ha (idxOf_eq ▸ before), before⟩
  obtain ⟨m, joined, hm, above⟩ := join?_spec graph.numbers h.toTree
    (entered.imp fun _ h => ⟨h.1, h.2.1⟩)
  refine ⟨m, joined, ⟨h, ne, mem, idxOf_eq, hm, entered, above⟩, ?_⟩
  rw [improve, show join? g order (tree.getD · none) b = some m from joined]

/-- Some blocks of a round: they change nothing, or make the tree flatter. -/
theorem improve_foldl {bs : List Nat} (h : Improving g order start i (look tree))
    (size : tree.size = g.size) (pos : 0 < i) (hbs : bs <+: order.drop i) :
    (bs.foldl (improve g order) tree).size = g.size ∧
      Improving g order start (i + bs.length) (look (bs.foldl (improve g order) tree)) ∧
      (bs.foldl (improve g order) tree = tree ∧
          (∀ b ∈ bs, join? g order (look tree) b = look tree b) ∨
        weight order (look (bs.foldl (improve g order) tree)) < weight order (look tree)) := by
  induction bs generalizing i tree with
  | nil => exact ⟨size, h, .inl ⟨rfl, by simp⟩⟩
  | cons b bs ih =>
    have inside : i < order.length := by
      by_contra outside
      rw [List.drop_eq_nil_of_le (not_lt.1 outside)] at hbs
      cases List.prefix_nil.1 hbs
    rw [List.drop_eq_getElem_cons inside, List.cons_prefix_cons] at hbs
    obtain ⟨rfl, later⟩ := hbs
    have idxOf_eq : order.idxOf order[i] = i := graph.numbers.nodup.idxOf_getElem i inside
    have mem : order[i] ∈ order := List.getElem_mem inside
    have ne : order[i] ≠ start := by
      intro same
      rw [same, graph.numbers.idxOf_start] at idxOf_eq
      omega
    obtain ⟨m, joined, hung, eq⟩ := improve_spec graph h mem ne idxOf_eq
    have in_bounds : order[i] < tree.size := size ▸ graph.bound _ mem
    have seen : look (improve g order tree order[i]) = hang (look tree) order[i] m := by
      rw [eq, look_set in_bounds]
    have size' : (improve g order tree order[i]).size = g.size := by
      rw [eq, Array.size_setIfInBounds, size]
    have improving := hung.improving graph.mirror
    rw [← seen] at improving
    obtain ⟨size'', last, progress⟩ := ih improving size' (Nat.succ_pos i) later
    rw [Nat.add_assoc, Nat.add_comm 1] at last
    refine ⟨size'', last, ?_⟩
    rw [List.foldl_cons]
    by_cases changed : look tree order[i] = some m
    · have same : improve g order tree order[i] = tree := by
        refine look_injective (size'.trans size.symm) ?_
        rw [seen, hang, ← changed, Function.update_eq_self]
      rw [same] at progress ⊢
      refine progress.imp_left fun ⟨fixed, rest⟩ => ⟨fixed, List.forall_mem_cons.2 ⟨?_, rest⟩⟩
      rw [joined, changed]
    · have lighter := hung.weight_lt changed
      rw [← seen] at lighter
      rcases progress with ⟨fixed, -⟩ | progress
      · rw [fixed]
        exact .inr lighter
      · exact .inr (progress.trans lighter)

theorem round_spec (h : Improving g order start 1 (look tree)) (size : tree.size = g.size) :
    (round g order tree).size = g.size ∧
      Improving g order start order.length (look (round g order tree)) ∧
      (round g order tree = tree ∧ (∀ b ∈ order.tail, join? g order (look tree) b = look tree b) ∨
        weight order (look (round g order tree)) < weight order (look tree)) := by
  obtain ⟨size', last, progress⟩ :=
    improve_foldl graph h size Nat.one_pos (List.drop_one ▸ List.prefix_rfl : order.tail <+: order.drop 1)
  have length : order.length ≤ 1 + order.tail.length := by
    rw [List.length_tail]
    omega
  exact ⟨size', last.restart length _, progress⟩

theorem settle_spec (h : Improving g order start 1 (look tree)) (size : tree.size = g.size)
    (enough : weight order (look tree) ≤ steps) :
    (settle g order steps tree).size = g.size ∧
      round g order (settle g order steps tree) = settle g order steps tree ∧
      Improving g order start order.length (look (settle g order steps tree)) ∧
      ∀ b ∈ order.tail, join? g order (look (settle g order steps tree)) b =
        look (settle g order steps tree) b := by
  induction steps generalizing tree with
  | zero =>
    obtain ⟨-, last, ⟨fixed, joined⟩ | lighter⟩ := round_spec graph h size
    · rw [fixed] at last
      exact ⟨size, fixed, last, joined⟩
    · omega
  | succ steps ih =>
    obtain ⟨size', last, progress⟩ := round_spec graph h size
    rw [settle]
    by_cases fixed : round g order tree = tree
    · rw [if_pos fixed]
      rw [fixed] at last progress
      exact ⟨size, fixed, last, (progress.resolve_right (Nat.lt_irrefl _)).2⟩
    · rw [if_neg fixed]
      have lighter := progress.resolve_left fun same => fixed same.1
      exact ih (last.restart le_rfl 1) size' (by omega)

theorem improving_seed (inside : start < g.size) : Improving g order start 1 (look (seed g start)) := by
  have root : look (seed g start) start = some start := by simp [look, seed, inside]
  have other {b : Nat} (ne : b ≠ start) : look (seed g start) b = none := by
    simp only [look, seed, Array.getD_eq_getD_getElem?, Array.getElem?_setIfInBounds_ne (Ne.symm ne),
      Array.getElem?_replicate]
    split <;> rfl
  have absent {b : Nat} (ne : b ≠ start) (hb : (look (seed g start) b).isSome) : False := by
    rw [other ne] at hb
    cases hb
  have only {b : Nat} (hb : (look (seed g start) b).isSome) : b = start := by
    by_contra ne
    exact absent ne hb
  refine ⟨⟨root, fun b hb => only hb ▸ graph.numbers.start_mem, fun b d ne parent => ?_⟩,
    fun b hb before => ?_, fun b d ne parent => ?_, fun b ne hb => (absent ne hb).elim,
    fun b ne hb => (absent ne hb).elim⟩
  · exact (absent ne (by rw [parent]; rfl)).elim
  · have first : order.idxOf b = order.idxOf start := by
      rw [graph.numbers.idxOf_start]
      omega
    rw [(List.idxOf_inj hb).1 first, root]
    rfl
  · exact (absent ne (by rw [parent]; rfl)).elim

omit graph in
theorem weight_le (up : Nat → Option Nat) : weight order up ≤ order.length * order.length := by
  have bound : ∀ h ∈ order.map (height order up), h ≤ order.length := by
    intro h hh
    obtain ⟨b, -, rfl⟩ := List.mem_map.1 hh
    rw [height]
    split
    · exact le_rfl
    · exact List.idxOf_le_length
  have sum := List.sum_le_card_nsmul _ _ bound
  rwa [List.length_map, smul_eq_mul] at sum

end

def stage (g : FlowGraph) (entry : BlockId) (rounds blocks : Nat) : Array (Option BlockId) :=
  let rpo := g.reversePostorder entry
  (rpo.tail.take blocks).foldl (improve g rpo) ((round g rpo)^[rounds] (seed g entry))

theorem tree_stage (graph : Numbered g start (g.reversePostorder start)) (rounds blocks : Nat) :
    Tree (g.reversePostorder start) start (look (stage g start rounds blocks)) := by
  let order := g.reversePostorder start
  have inside : start < g.size := graph.bound start graph.numbers.start_mem
  have full : ((round g order)^[rounds] (seed g start)).size = g.size ∧
      Improving g order start 1 (look ((round g order)^[rounds] (seed g start))) := by
    induction rounds with
    | zero => exact ⟨by simp [seed], improving_seed graph inside⟩
    | succ rounds ih =>
      rw [Function.iterate_succ_apply']
      obtain ⟨size, improving, -⟩ := round_spec graph ih.2 ih.1
      exact ⟨size, improving.restart le_rfl 1⟩
  have first : order.tail.take blocks <+: order.drop 1 := List.drop_one ▸ List.take_prefix _ _
  exact (improve_foldl graph full.2 full.1 Nat.one_pos first).2.1.toTree

/-- A tree that is finished: each block hangs where its predecessors meet. -/
structure Settled (g : FlowGraph) (order : List Nat) (start : Nat) (up : Nat → Option Nat) : Prop
    extends Improving g order start order.length up where
  fixed : ∀ b ∈ order, b ≠ start → join? g order up b = up b

theorem settled_treeOf (graph : Numbered g start (g.reversePostorder start)) :
    round g (g.reversePostorder start) (treeOf g start) = treeOf g start ∧
      Settled g (g.reversePostorder start) start (look (treeOf g start)) := by
  have inside : start < g.size := graph.bound start graph.numbers.start_mem
  have size : (seed g start).size = g.size := by simp [seed]
  obtain ⟨-, fixed, improving, joined⟩ :=
    settle_spec graph (improving_seed graph inside) size (weight_le _)
  exact ⟨fixed, improving, fun b hb ne => joined b (graph.numbers.mem_tail.2 ⟨hb, ne⟩)⟩

namespace Settled

theorem isSome (h : Settled g order start up) (hb : b ∈ order) : (up b).isSome :=
  h.known b hb (List.idxOf_lt_length_iff.2 hb)

theorem dominates_of_above (h : Settled g order start up) (graph : Numbered g start order)
    (above : Above up start a b) : Dominates g.next start a b := by
  intro vs path
  induction path with
  | refl =>
    by_cases same : a = start
    · exact same ▸ List.mem_cons_self
    · exact absurd rfl (above.strict same).1
  | @step vs b c path edge ih =>
    by_cases same : a = c
    · exact same ▸ List.mem_cons_self
    obtain ⟨ne, d, parent, above⟩ := above.strict same
    have hb : b ∈ order := (graph.numbers.mem_iff b).2 ⟨vs, path⟩
    have hc : c ∈ order := (graph.numbers.mem_iff c).2 ⟨c :: vs, path.step edge⟩
    have pred : b ∈ g.prev c := (graph.mirror b c).2 edge
    obtain ⟨m, joined, -, iff⟩ := join?_spec graph.numbers h.toTree ⟨b, pred, h.isSome hb⟩
    rw [h.fixed c hc ne, parent] at joined
    cases joined
    exact .tail _ (ih ((iff a).1 above b pred (h.isSome hb)))

theorem above_iff (h : Settled g order start up) (graph : Numbered g start order) (hb : b ∈ order) :
    Above up start a b ↔ Dominates g.next start a b :=
  ⟨h.dominates_of_above graph, h.above_of_dominates (h.isSome hb)⟩

theorem exists_closest (h : Settled g order start up) (graph : Numbered g start order) (hb : b ∈ order)
    (ne : b ≠ start) : ∃ d, up b = some d ∧ ∀ c, Closest g.next start c b ↔ c = d := by
  obtain ⟨d, parent⟩ := Option.isSome_iff_exists.1 (h.isSome hb)
  obtain ⟨before, hd⟩ := h.rises b d ne parent
  have closest : Closest g.next start d b := by
    refine ⟨?_, h.dominates_of_above graph (.up ne parent (.refl d)),
      fun a other dominates => h.dominated b d ne parent a dominates other⟩
    rintro rfl
    exact Nat.lt_irrefl _ before
  refine ⟨d, parent, fun c => ⟨fun other => ?_, ?_⟩⟩
  · exact (closest.below c other.ne other.dominates).antisymm (other.below d closest.ne closest.dominates)
      ((graph.numbers.mem_iff d).1 (h.within d hd))
  · rintro rfl
    exact closest

end Settled

theorem above_eq_true {idom : Nat → Option Nat} {steps : Nat} (n : Numbers next start order)
    (tree : Tree order start up) (root : idom start = none)
    (agrees : ∀ b ∈ order, b ≠ start → idom b = up b) (hb : (up b).isSome)
    (enough : order.idxOf b ≤ steps) : above idom a steps b = true ↔ Above up start a b := by
  have top : Above up start a start → start = a := by
    intro h
    by_contra ne
    exact (h.strict (Ne.symm ne)).1 rfl
  induction steps generalizing b with
  | zero =>
    have first : b = start := by
      refine (List.idxOf_inj (tree.within b hb)).1 ?_
      rw [n.idxOf_start]
      omega
    subst first
    rw [above, decide_eq_true_iff]
    refine ⟨?_, top⟩
    rintro rfl
    exact .refl b
  | succ steps ih =>
    rw [above]
    by_cases same : b = a
    · subst same
      simpa using Above.refl b
    rw [if_neg same]
    by_cases first : b = start
    · subst first
      rw [root]
      exact ⟨nofun, fun h => absurd (top h) same⟩
    · obtain ⟨d, parent⟩ := Option.isSome_iff_exists.1 hb
      obtain ⟨before, hd⟩ := tree.rises b d first parent
      rw [agrees b (tree.within b hb) first, parent]
      refine (ih hd (by omega)).trans ⟨.up first parent, fun h => ?_⟩
      obtain ⟨-, d', parent', higher⟩ := h.strict (Ne.symm same)
      rwa [← Option.some.inj (parent'.symm.trans parent)]

end Dominators
end SsaFacts
