import Mathlib
import SsaFacts.Classes

/-! The parent links form a forest: every node has one root, shortening paths moves no root, and joining
two classes moves the members of one class to the root of the other. -/
namespace SsaFacts
namespace Classes
variable {c : Classes} {n m r : Node} {v w : ValueId}

/-- The values passed on the way up from a node to its root `r`, which itself is not counted. -/
inductive Climbs (c : Classes) : Node → List ValueId → Node → Prop
  | literal (l : Literal) : Climbs c (.literal l) [] (.literal l)
  | top {v : ValueId} (h : c.parent? v = none) : Climbs c (.value v) [] (.value v)
  | up {v : ValueId} {n r : Node} {path : List ValueId} (h : c.parent? v = some n)
      (rest : Climbs c n path r) : Climbs c (.value v) (v :: path) r

/-- There are no cycles: every node has a root. -/
def Rooted (c : Classes) : Prop := ∀ n, ∃ path r, c.Climbs n path r

def IsRoot (c : Classes) : Node → Prop
  | .literal _ => True
  | .value v => c.parent? v = none

namespace Climbs

theorem unique {path path' : List ValueId} {r' : Node} (h : c.Climbs n path r)
    (h' : c.Climbs n path' r') : path = path' ∧ r = r' := by
  induction h generalizing path' with
  | literal l =>
    cases h'
    exact ⟨rfl, rfl⟩
  | top none =>
    cases h' with
    | top => exact ⟨rfl, rfl⟩
    | up some => simp [none] at some
  | up some rest ih =>
    cases h' with
    | top none => simp [none] at some
    | up some' rest' =>
      obtain rfl := Option.some.inj (some.symm.trans some')
      obtain ⟨rfl, rfl⟩ := ih rest'
      exact ⟨rfl, rfl⟩

theorem isRoot {path : List ValueId} (h : c.Climbs n path r) : c.IsRoot r := by
  induction h with
  | literal l => trivial
  | top h => exact h
  | up _ _ ih => exact ih

theorem of_mem {path : List ValueId} (h : c.Climbs n path r) (hv : v ∈ path) :
    ∃ rest, c.Climbs (.value v) rest r ∧ rest.length ≤ path.length := by
  induction h with
  | literal l => simp at hv
  | top h => simp at hv
  | @up w n r path some rest ih =>
    rcases List.mem_cons.1 hv with rfl | hv
    · exact ⟨_, .up some rest, le_rfl⟩
    · obtain ⟨tail, htail, le⟩ := ih hv
      exact ⟨tail, htail, by simp; omega⟩

theorem nodup {path : List ValueId} (h : c.Climbs n path r) : path.Nodup := by
  induction h with
  | literal l => simp
  | top h => simp
  | @up w n r path some rest ih =>
    refine List.nodup_cons.2 ⟨fun hw => ?_, ih⟩
    obtain ⟨tail, htail, le⟩ := rest.of_mem hw
    have same := (htail.unique (.up some rest)).1
    rw [same, List.length_cons] at le
    omega

theorem subset_keys {path : List ValueId} (h : c.Climbs n path r) :
    path ⊆ c.parents.map (·.1) := by
  induction h with
  | literal l => simp
  | top h => simp
  | @up w n r path some rest ih =>
    refine List.cons_subset.2 ⟨?_, ih⟩
    by_contra absent
    have none : c.parent? w = none := by
      rw [parent?, List.lookup_eq_none_iff]
      intro p hp
      refine bne_iff_ne.2 ?_
      rintro rfl
      exact absent (List.mem_map_of_mem hp)
    simp [none] at some

theorem length_le {path : List ValueId} (h : c.Climbs n path r) : path.length ≤ c.parents.length := by
  have le := (h.nodup.subperm h.subset_keys).length_le
  rwa [List.length_map] at le

theorem climb_eq {path : List ValueId} (h : c.Climbs n path r) {steps : Nat}
    (enough : path.length ≤ steps) : c.climb steps n = r := by
  induction h generalizing steps with
  | literal l => cases steps <;> rfl
  | top h => cases steps <;> simp [climb, h]
  | @up w n r path some rest ih =>
    cases steps with
    | zero => simp at enough
    | succ steps =>
      rw [climb, some]
      exact ih (by simpa using enough)

theorem root_eq {path : List ValueId} (h : c.Climbs n path r) : c.root n = r :=
  h.climb_eq h.length_le

end Climbs

@[simp] theorem root_literal (l : Literal) : c.root (.literal l) = .literal l :=
  (Climbs.literal l).root_eq

theorem root_of_isRoot (h : c.IsRoot n) : c.root n = n := by
  cases n with
  | literal l => exact root_literal l
  | value v => exact (Climbs.top h).root_eq

theorem Rooted.climbs (h : c.Rooted) (n : Node) : ∃ path, c.Climbs n path (c.root n) := by
  obtain ⟨path, r, climbs⟩ := h n
  exact ⟨path, climbs.root_eq ▸ climbs⟩

theorem Rooted.isRoot_root (h : c.Rooted) (n : Node) : c.IsRoot (c.root n) := by
  obtain ⟨path, climbs⟩ := h.climbs n
  exact climbs.isRoot

theorem Rooted.root_root (h : c.Rooted) (n : Node) : c.root (c.root n) = c.root n :=
  root_of_isRoot (h.isRoot_root n)

theorem Rooted.root_parent (h : c.Rooted) (hv : c.parent? v = some n) :
    c.root (.value v) = c.root n := by
  obtain ⟨path, climbs⟩ := h.climbs n
  exact (Climbs.up hv climbs).root_eq

theorem rooted_empty : empty.Rooted := by
  intro n
  cases n with
  | literal l => exact ⟨[], _, .literal l⟩
  | value v => exact ⟨[], _, .top rfl⟩

@[simp] theorem root_empty (n : Node) : empty.root n = n := by
  cases n with
  | literal l => exact root_literal l
  | value v => rfl

theorem parent?_link_self (c : Classes) (v : ValueId) (n : Node) :
    (c.link v n).parent? v = some n := by
  simp [parent?, link]

theorem lookup_filter_ne {ps : List (ValueId × Node)} (h : w ≠ v) :
    (ps.filter (·.1 ≠ v)).lookup w = ps.lookup w := by
  induction ps with
  | nil => rfl
  | cons p ps ih =>
    obtain ⟨k, n⟩ := p
    by_cases hk : k = v
    · subst hk
      have hw : (w == k) = false := by simpa using h
      rw [List.filter_cons_of_neg (by simp), ih, List.lookup_cons, hw]
    · rw [List.filter_cons_of_pos (by simpa using hk), List.lookup_cons, List.lookup_cons, ih]

theorem parent?_link_of_ne (c : Classes) (n : Node) (h : w ≠ v) :
    (c.link v n).parent? w = c.parent? w := by
  have hw : (w == v) = false := by simpa using h
  rw [parent?, link, List.lookup_cons, hw]
  exact lookup_filter_ne h

/-- A link into a node of the same class, straight to its root, moves no root. -/
theorem Climbs.link_root {path : List ValueId} (hn : c.Climbs n path r)
    (hv : c.root (.value v) ≠ .value v) :
    ∃ path', (c.link v (c.root (.value v))).Climbs n path' r := by
  induction hn with
  | literal l => exact ⟨[], .literal l⟩
  | @top w none =>
    have ne : w ≠ v := by
      rintro rfl
      exact hv (root_of_isRoot none)
    exact ⟨[], .top (by rw [parent?_link_of_ne c _ ne, none])⟩
  | @up w n r path some rest ih =>
    by_cases eq : w = v
    · subst eq
      have top : c.root (.value w) = r := (Climbs.up some rest).root_eq
      have root := rest.isRoot
      rw [top] at hv ⊢
      refine ⟨[w], .up (parent?_link_self c w r) ?_⟩
      cases r with
      | literal l => exact .literal l
      | value u =>
        have ne : u ≠ w := by
          rintro rfl
          exact hv rfl
        exact .top (by rw [parent?_link_of_ne c _ ne]; exact root)
    · obtain ⟨path', hpath⟩ := ih
      exact ⟨_, .up (by rw [parent?_link_of_ne c _ eq, some]) hpath⟩

structure SameRoots (c c' : Classes) : Prop where
  rooted : c'.Rooted
  root_eq : ∀ n, c'.root n = c.root n

theorem SameRoots.refl (h : c.Rooted) : c.SameRoots c := ⟨h, fun _ => rfl⟩

theorem SameRoots.trans {c' c'' : Classes} (h : c.SameRoots c') (h' : c'.SameRoots c'') :
    c.SameRoots c'' :=
  ⟨h'.rooted, fun n => (h'.root_eq n).trans (h.root_eq n)⟩

theorem sameRoots_link (h : c.Rooted) (hv : c.root (.value v) ≠ .value v) :
    c.SameRoots (c.link v (c.root (.value v))) := by
  have climbs : ∀ n, ∃ path, (c.link v (c.root (.value v))).Climbs n path (c.root n) := by
    intro n
    obtain ⟨path, hn⟩ := h.climbs n
    exact hn.link_root hv
  refine ⟨fun n => ?_, fun n => ?_⟩
  · obtain ⟨path, hn⟩ := climbs n
    exact ⟨path, _, hn⟩
  · obtain ⟨path, hn⟩ := climbs n
    exact hn.root_eq

theorem sameRoots_shorten (h : c.Rooted) (steps : Nat) (n : Node) :
    c.SameRoots (shorten (c.root n) steps c n) := by
  generalize htop : c.root n = top
  induction steps generalizing c n with
  | zero => exact .refl h
  | succ steps ih =>
    cases n with
    | literal l => exact .refl h
    | value v =>
      rw [shorten]
      cases hv : c.parent? v with
      | none => exact .refl h
      | some up =>
        have hup : c.root up = top := (h.root_parent hv).symm.trans htop
        by_cases done : up = top
        · simp only [done, if_true]
          exact .refl h
        · have moved : c.root (.value v) ≠ .value v := by
            intro self
            have none : c.IsRoot (.value v) := self ▸ h.isRoot_root (.value v)
            rw [IsRoot, hv] at none
            cases none
          have first := sameRoots_link h moved
          rw [htop] at first
          simp only [done, if_false]
          exact first.trans (ih first.rooted up ((first.root_eq up).trans hup))

theorem sameRoots_find (h : c.Rooted) (n : Node) : c.SameRoots (c.find n).2 :=
  sameRoots_shorten h _ n

/-- A link from one root to another moves the members of the one class to the other root. -/
theorem Climbs.link_top {path : List ValueId} {s : Node} (hn : c.Climbs n path s)
    (hv : c.parent? v = none) (hr : c.IsRoot r) (ne : Node.value v ≠ r) :
    ∃ path', (c.link v r).Climbs n path' (if s = .value v then r else s) := by
  have above : (c.link v r).Climbs r [] r := by
    cases r with
    | literal l => exact .literal l
    | value u =>
      have hu : u ≠ v := by
        rintro rfl
        exact ne rfl
      exact .top (by rw [parent?_link_of_ne c _ hu]; exact hr)
  induction hn with
  | literal l => exact ⟨[], .literal l⟩
  | @top w isTop =>
    by_cases eq : w = v
    · subst eq
      exact ⟨[w], by simpa using .up (parent?_link_self c w r) above⟩
    · have hw : (c.link v r).parent? w = none := by rw [parent?_link_of_ne c _ eq, isTop]
      exact ⟨[], by simpa [eq] using .top hw⟩
  | @up w n s path some rest ih =>
    have eq : w ≠ v := by
      rintro rfl
      simp [hv] at some
    obtain ⟨path', hpath⟩ := ih
    exact ⟨_, .up (by rw [parent?_link_of_ne c _ eq, some]) hpath⟩

/-- What joining the classes of `a` and `b` does. Nothing moves if they are one class or if the roots
are two literals; else the class of a value `v` moves to the other root. -/
inductive Joins (c : Classes) (a b : Node) (c' : Classes) : Prop
  | same (h : c.root a = c.root b) (roots : c.SameRoots c')
  | apart {k l : Literal} (ha : c.root a = .literal k) (hb : c.root b = .literal l) (ne : k ≠ l)
      (roots : c.SameRoots c')
  | moved {v : ValueId} {r : Node}
      (ends : c.root a = .value v ∧ c.root b = r ∨ c.root b = .value v ∧ c.root a = r)
      (rooted : c'.Rooted) (root_eq : ∀ n, c'.root n = if c.root n = .value v then r else c.root n)

theorem rooted_link_top (h : c.Rooted) (hv : c.root n = .value v) (hr : c.root m = r)
    (ne : Node.value v ≠ r) :
    (c.link v r).Rooted ∧
      ∀ x, (c.link v r).root x = if c.root x = .value v then r else c.root x := by
  have isTop : c.parent? v = none := by
    have root := h.isRoot_root n
    rwa [hv] at root
  have climbs : ∀ x, ∃ path, (c.link v r).Climbs x path (if c.root x = .value v then r else c.root x) := by
    intro x
    obtain ⟨path, hx⟩ := h.climbs x
    exact hx.link_top isTop (hr ▸ h.isRoot_root m) ne
  refine ⟨fun x => ?_, fun x => ?_⟩
  · obtain ⟨path, hx⟩ := climbs x
    exact ⟨path, _, hx⟩
  · obtain ⟨path, hx⟩ := climbs x
    exact hx.root_eq

/-- The classes after both paths have been shortened, with the roots found. -/
theorem unite_find (c : Classes) (a b : Node) :
    c.unite a b =
      let d := ((c.find a).2.find b).2
      let ra := c.root a
      let rb := (c.find a).2.root b
      if ra = rb then (d, none)
      else match ra, rb with
        | .literal la, .literal lb => (d, some (la, lb))
        | .literal _, .value v => (d.link v ra, none)
        | .value v, _ => (d.link v rb, none) := rfl

theorem joins_unite (h : c.Rooted) (a b : Node) : c.Joins a b (c.unite a b).1 := by
  have first := sameRoots_find h a
  have both := first.trans (sameRoots_find first.rooted b)
  rw [unite_find]
  simp only [first.root_eq]
  generalize ((c.find a).2.find b).2 = d at both
  by_cases eq : c.root a = c.root b
  · simp only [eq, if_true]
    exact .same eq both
  · simp only [eq, if_false]
    cases ha : c.root a with
    | literal k =>
      cases hb : c.root b with
      | literal l =>
        refine .apart ha hb ?_ both
        rintro rfl
        exact eq (ha.trans hb.symm)
      | value v =>
        obtain ⟨rooted, root_eq⟩ := rooted_link_top both.rooted
          ((both.root_eq b).trans hb) ((both.root_eq a).trans ha) (by simp)
        simp only [both.root_eq] at root_eq
        exact .moved (.inr ⟨hb, ha⟩) rooted root_eq
    | value v =>
      obtain ⟨rooted, root_eq⟩ := rooted_link_top both.rooted
        ((both.root_eq a).trans ha) (both.root_eq b) (ha ▸ eq)
      simp only [both.root_eq] at root_eq
      exact .moved (.inl ⟨ha, rfl⟩) rooted root_eq

theorem unite_conflict (h : c.Rooted) {a b : Node} {k l : Literal}
    (conflict : (c.unite a b).2 = some (k, l)) : c.root a = .literal k ∧ c.root b = .literal l := by
  have first := sameRoots_find h a
  rw [unite_find] at conflict
  simp only [first.root_eq] at conflict
  split at conflict
  · cases conflict
  · split at conflict
    · rename_i ha hb
      cases conflict
      exact ⟨ha, hb⟩
    · cases conflict
    · cases conflict

/-- The two nodes are in one class, or are kept apart by different literals. -/
def Settled (c : Classes) (a b : Node) : Prop :=
  c.root a = c.root b ∨ ∃ k l : Literal, k ≠ l ∧ c.root a = .literal k ∧ c.root b = .literal l

namespace Joins
variable {a b : Node} {c' : Classes}

theorem rooted (j : c.Joins a b c') : c'.Rooted := by
  cases j with
  | same _ roots => exact roots.rooted
  | apart _ _ _ roots => exact roots.rooted
  | moved _ rooted _ => exact rooted

/-- What relates every node to its root goes on doing so, if it relates the joined nodes. -/
theorem respects (j : c.Joins a b c') {R : Node → Node → Prop} (eqv : Equivalence R) (hab : R a b)
    (h : ∀ n, R (c.root n) n) (n : Node) : R (c'.root n) n := by
  cases j with
  | same _ roots => exact roots.root_eq n ▸ h n
  | apart _ _ _ roots => exact roots.root_eq n ▸ h n
  | @moved v r ends _ root_eq =>
    have ha := h a
    have hb := h b
    have joined : R r (.value v) := by
      rcases ends with ⟨hv, hr⟩ | ⟨hv, hr⟩
      · rw [hr] at hb
        rw [hv] at ha
        exact eqv.trans hb (eqv.symm (eqv.trans ha hab))
      · rw [hr] at ha
        rw [hv] at hb
        exact eqv.trans ha (eqv.trans hab (eqv.symm hb))
    rw [root_eq]
    split
    · rename_i eq
      have hn := h n
      rw [eq] at hn
      exact eqv.trans joined hn
    · exact h n

theorem root_congr (j : c.Joins a b c') (h : c.root n = c.root m) : c'.root n = c'.root m := by
  cases j with
  | same _ roots => rw [roots.root_eq, roots.root_eq, h]
  | apart _ _ _ roots => rw [roots.root_eq, roots.root_eq, h]
  | moved _ _ root_eq => rw [root_eq, root_eq, h]

theorem root_eq_literal (j : c.Joins a b c') {l : Literal} (h : c.root n = .literal l) :
    c'.root n = .literal l := by
  cases j with
  | same _ roots => rw [roots.root_eq, h]
  | apart _ _ _ roots => rw [roots.root_eq, h]
  | moved _ _ root_eq => simp [root_eq, h]

theorem settled (j : c.Joins a b c') : c'.Settled a b := by
  cases j with
  | same h roots => exact .inl (by rw [roots.root_eq, roots.root_eq, h])
  | @apart k l ha hb ne roots =>
    exact .inr ⟨k, l, ne, by rw [roots.root_eq, ha], by rw [roots.root_eq, hb]⟩
  | moved ends _ root_eq =>
    left
    rw [root_eq, root_eq]
    rcases ends with ⟨ha, hb⟩ | ⟨hb, ha⟩
    · simp [ha, hb]
    · simp [ha, hb]

theorem settled_of_settled (j : c.Joins a b c') (h : c.Settled m n) : c'.Settled m n := by
  rcases h with h | ⟨k, l, ne, hm, hn⟩
  · exact .inl (j.root_congr h)
  · exact .inr ⟨k, l, ne, j.root_eq_literal hm, j.root_eq_literal hn⟩

end Joins

inductive JoinsAll : Classes → List (Node × Node) → Classes → Prop
  | nil {c : Classes} (h : c.Rooted) : JoinsAll c [] c
  | cons {c d c' : Classes} {a b : Node} {pairs : List (Node × Node)} (first : c.Joins a b d)
      (rest : JoinsAll d pairs c') : JoinsAll c ((a, b) :: pairs) c'

namespace JoinsAll
variable {c' : Classes} {pairs : List (Node × Node)}

theorem rooted (j : JoinsAll c pairs c') : c'.Rooted := by
  induction j with
  | nil h => exact h
  | cons _ _ ih => exact ih

theorem respects (j : JoinsAll c pairs c') {R : Node → Node → Prop} (eqv : Equivalence R)
    (hp : ∀ a b, (a, b) ∈ pairs → R a b) (h : ∀ n, R (c.root n) n) (n : Node) : R (c'.root n) n := by
  induction j with
  | nil _ => exact h n
  | cons first _ ih =>
    refine ih (fun a b hab => hp a b (by simp [hab])) fun n => ?_
    exact first.respects eqv (hp _ _ (by simp)) h n

theorem settled_of_settled (j : JoinsAll c pairs c') (h : c.Settled m n) : c'.Settled m n := by
  induction j with
  | nil _ => exact h
  | cons first _ ih => exact ih (first.settled_of_settled h)

theorem settled (j : JoinsAll c pairs c') {a b : Node} (hab : (a, b) ∈ pairs) : c'.Settled a b := by
  induction j with
  | nil _ => simp at hab
  | cons first rest ih =>
    rcases List.mem_cons.1 hab with eq | hab
    · cases eq
      exact rest.settled_of_settled first.settled
    · exact ih hab

/-- If the joined pairs link two different literals, one of the pairs is kept apart. -/
theorem exists_apart (j : JoinsAll c pairs c') {k l : Literal} (ne : k ≠ l)
    (linked : Relation.EqvGen (fun a b => (a, b) ∈ pairs) (.literal k) (.literal l)) :
    ∃ a b, (a, b) ∈ pairs ∧ ∃ k l : Literal, k ≠ l ∧ c'.root a = .literal k ∧ c'.root b = .literal l := by
  by_contra none
  have eqv : Equivalence fun a b => c'.root a = c'.root b :=
    ⟨fun _ => rfl, fun h => h.symm, fun h h' => h.trans h'⟩
  have joined : ∀ a b, (a, b) ∈ pairs → c'.root a = c'.root b := by
    intro a b hab
    rcases j.settled hab with h | apart
    · exact h
    · exact absurd ⟨a, b, hab, apart⟩ none
  have same := (eqv.eqvGen_iff).1 (linked.mono joined)
  rw [root_literal, root_literal] at same
  exact ne (Node.literal.inj same)

end JoinsAll
end Classes
end SsaFacts
