import SsaFacts.Proofs.Reduction

/-! Whatever classes are asked for, they stay a forest in which a literal is the root of its class. Unless
the requested equalities link different literals, the classes are exactly those of the equalities, in
whatever order they were requested. -/
namespace SsaFacts
namespace Classes
variable {c c' : Classes} {n m r : Node} {v : ValueId} {path : List ValueId}

theorem Climbs.link_of_not_mem (h : c.Climbs n path r) (apart : v ∉ path) (other : r ≠ .value v)
    (m : Node) : (c.link v m).Climbs n path r := by
  induction h with
  | literal l => exact .literal l
  | @top w none =>
    have ne : w ≠ v := fun eq => other (congrArg Node.value eq)
    exact .top (by rw [parent?_link_of_ne c m ne, none])
  | @up w n r path some rest ih =>
    rw [List.mem_cons, not_or] at apart
    exact .up (by rw [parent?_link_of_ne c m (Ne.symm apart.1), some]) (ih apart.2 other)

/-- Shortening a path links every value on it straight to the root, and no other value. -/
theorem parent?_shorten (h : c.Climbs n path r) {steps : Nat} (enough : path.length ≤ steps) (w : ValueId) :
    (shorten r steps c n).parent? w = if w ∈ path then some r else c.parent? w := by
  induction path generalizing c n steps with
  | nil =>
    cases h with
    | literal l => cases steps <;> rfl
    | top none => cases steps <;> simp [shorten, none]
  | cons v path ih =>
    cases h with
    | @up _ up _ _ some rest =>
      obtain ⟨steps, rfl⟩ : ∃ k, steps = k + 1 := ⟨steps - 1, by simp at enough; omega⟩
      rw [shorten, some]
      dsimp only
      by_cases done : up = r
      · -- the value is the last one on the way
        subst done
        have last : path = [] := by
          have root := rest.isRoot
          cases up with
          | literal l => exact (rest.unique (.literal l)).1
          | value u => exact (rest.unique (.top root)).1
        subst last
        by_cases eq : w = v
        · simp [eq, some]
        · simp [eq]
      · have isRoot := rest.isRoot
        have other : r ≠ .value v := by
          rintro rfl
          rw [IsRoot, some] at isRoot
          cases isRoot
        have apart := (List.nodup_cons.1 (Climbs.up some rest).nodup).1
        rw [if_neg done, ih (rest.link_of_not_mem apart other r) (by simpa using enough)]
        by_cases eq : w = v
        · subst eq
          simp [apart, parent?_link_self]
        · simp [eq, parent?_link_of_ne c r eq]

/-- A look-up walks to the root of a node and links what it passes straight to that root. -/
theorem Rooted.find_spec (h : c.Rooted) (n : Node) :
    ∃ path, c.Climbs n path (c.find n).1 ∧
      ∀ w, (c.find n).2.parent? w = if w ∈ path then some (c.find n).1 else c.parent? w := by
  obtain ⟨path, climbs⟩ := h.climbs n
  exact ⟨path, climbs, parent?_shorten climbs climbs.length_le⟩

def findAll (c : Classes) (ns : List Node) : Classes := ns.foldl (fun c n => (c.find n).2) c

theorem sameRoots_findAll (h : c.Rooted) (ns : List Node) : c.SameRoots (c.findAll ns) := by
  induction ns generalizing c with
  | nil => exact .refl h
  | cons n ns ih =>
    have first := sameRoots_find h n
    exact first.trans (ih first.rooted)

/-- What a clause becomes depends on the roots only, however many look-ups shortened the paths to them. -/
theorem SameRoots.canonical_eq (h : c.SameRoots c') (f : Clause) : c'.canonical f = c.canonical f := by
  have leaf : c'.canonicalLeaf = c.canonicalLeaf := by
    funext l
    rw [canonicalLeaf, canonicalLeaf, h.root_eq]
  rw [canonical, canonical, leaf]

/-- What classes can be asked for. -/
inductive Request
  | identify (a b : Node)
  | bind (v : ValueId) (l : Literal)
  | absorb (isFixed : ValueId → Bool) (facts : List Clause)
  | find (n : Node)
  | canonicalize (f : Clause)

namespace Request

/-- The classes after a request. A clause is canonicalized by looking up the values of its leaves. -/
def run (c : Classes) : Request → Noted Classes
  | identify a b => c.identify a b
  | bind v l => c.identify (.value v) (.literal l)
  | absorb isFixed facts => return (← c.absorb isFixed facts).1
  | find n => return (c.find n).2
  | canonicalize f => return c.findAll (f.leaves.map fun l => .value l.value)

def equalities : Request → List (Node × Node)
  | identify a b => [(a, b)]
  | bind v l => [(.value v, .literal l)]
  | absorb isFixed facts => facts.filterMap fun f =>
      f.simpleEq?.filter fun (a, b) => a.fixed isFixed && b.fixed isFixed
  | find _ | canonicalize _ => []

def runAll (c : Classes) (rs : List Request) : Noted Classes := rs.foldlM run c

end Request

/-- The equivalence closure of some equalities. -/
def Linked (pairs : List (Node × Node)) : Node → Node → Prop :=
  Relation.EqvGen fun a b => (a, b) ∈ pairs

variable {pairs more : List (Node × Node)} {a b : Node}

theorem Linked.mono (h : Linked pairs a b) (sub : pairs ⊆ more) : Linked more a b :=
  Relation.EqvGen.mono (fun _ _ hab => sub hab) a b h

theorem equivalence_linked (pairs : List (Node × Node)) : Equivalence (Linked pairs) :=
  Relation.EqvGen.is_equivalence _

/-- The equalities link no two different literals. -/
def Consistent (pairs : List (Node × Node)) : Prop := ∀ k l, Linked pairs (.literal k) (.literal l) → k = l

def Printable (pairs : List (Node × Node)) : Prop :=
  ∀ k l, Linked pairs (.literal k) (.literal l) → k ≠ l → k.sized

theorem Consistent.printable (h : Consistent pairs) : Printable pairs :=
  fun k l linked ne => absurd (h k l linked) ne

theorem Printable.mono (h : Printable more) (sub : pairs ⊆ more) : Printable pairs :=
  fun k l linked ne => h k l (linked.mono sub) ne

/-- The classes join only what the equalities link, and keep apart only what different literals keep
apart. -/
structure Partitions (c : Classes) (pairs : List (Node × Node)) : Prop where
  rooted : c.Rooted
  linked : ∀ n, Linked pairs (c.root n) n
  settled : ∀ a b, (a, b) ∈ pairs → c.Settled a b

theorem partitions_empty : empty.Partitions [] where
  rooted := rooted_empty
  linked n := by
    rw [root_empty]
    exact (equivalence_linked _).refl n
  settled := by simp

namespace Partitions

theorem sameRoots (h : c.Partitions pairs) (same : c.SameRoots c') : c'.Partitions pairs where
  rooted := same.rooted
  linked n := by
    rw [same.root_eq]
    exact h.linked n
  settled a b hab := by
    rw [Settled, same.root_eq, same.root_eq]
    exact h.settled a b hab

theorem joins (h : c.Partitions pairs) (j : c.Joins a b c') : c'.Partitions (pairs ++ [(a, b)]) where
  rooted := j.rooted
  linked := by
    refine j.respects (equivalence_linked _) (.rel _ _ (by simp)) fun n => ?_
    exact (h.linked n).mono (List.subset_append_left _ _)
  settled x y hxy := by
    rcases List.mem_append.1 hxy with old | new
    · exact j.settled_of_settled (h.settled x y old)
    · cases List.mem_singleton.1 new
      exact j.settled

theorem linked_of_conflict (h : c.Partitions pairs) {k l : Literal}
    (conflict : (c.unite a b).2 = some (k, l)) :
    k ≠ l ∧ Linked (pairs ++ [(a, b)]) (.literal k) (.literal l) := by
  obtain ⟨ha, hb⟩ := unite_conflict h.rooted conflict
  constructor
  · rintro rfl
    have same : c.root a = (c.find a).2.root b := by
      rw [(sameRoots_find h.rooted a).root_eq, ha, hb]
    rw [unite_find, if_pos same] at conflict
    cases conflict
  · have old {x : Node} : Linked (pairs ++ [(a, b)]) (c.root x) x :=
      (h.linked x).mono (List.subset_append_left _ _)
    have eqv := equivalence_linked (pairs ++ [(a, b)])
    rw [← ha, ← hb]
    exact eqv.trans old (eqv.trans (.rel _ _ (by simp)) (eqv.symm old))

theorem root_eq_iff (h : c.Partitions pairs) (consistent : Consistent pairs) (a b : Node) :
    c.root a = c.root b ↔ Linked pairs a b := by
  have eqv := equivalence_linked pairs
  constructor
  · intro same
    exact eqv.trans (eqv.symm (h.linked a)) (same ▸ h.linked b)
  · have joined : ∀ x y, (x, y) ∈ pairs → c.root x = c.root y := by
      intro x y hxy
      rcases h.settled x y hxy with same | ⟨k, l, ne, hk, hl⟩
      · exact same
      · have hx := h.linked x
        have hy := h.linked y
        rw [hk] at hx
        rw [hl] at hy
        exact absurd (consistent k l (eqv.trans hx (eqv.trans (.rel _ _ hxy) (eqv.symm hy)))) ne
    have same : Equivalence fun x y => c.root x = c.root y :=
      ⟨fun _ => rfl, fun h => h.symm, fun h h' => h.trans h'⟩
    intro linked
    exact same.eqvGen_iff.1 (Relation.EqvGen.mono joined a b linked)

theorem root_eq_literal_iff (h : c.Partitions pairs) (consistent : Consistent pairs) (n : Node)
    (l : Literal) : c.root n = .literal l ↔ Linked pairs n (.literal l) := by
  rw [← h.root_eq_iff consistent, root_literal]

end Partitions

/-- The computation comes to classes that hold the equalities, or fails because it cannot write down two
literals that they link. -/
def LeadsTo {α : Type} (classes : α → Classes) (pairs : List (Node × Node)) (x : Noted α) : Prop :=
  ∀ ns, (∃ a ns', x ns = (.ok a, ns') ∧ (classes a).Partitions pairs) ∨
    ∃ f ns', x ns = (.error f, ns') ∧ ¬Printable pairs

namespace LeadsTo
variable {α β : Type} {classes : α → Classes} {classes' : β → Classes} {x : Noted α} {f : α → Noted β}

protected theorem pure {a : α} (h : (classes a).Partitions pairs) :
    LeadsTo classes pairs (pure a : Noted α) := fun ns => .inl ⟨a, ns, rfl, h⟩

protected theorem bind (hx : LeadsTo classes pairs x)
    (hf : ∀ a, (classes a).Partitions pairs → LeadsTo classes' (pairs ++ more) (f a)) :
    LeadsTo classes' (pairs ++ more) (x >>= f) := by
  intro ns
  rcases hx ns with ⟨a, ns₁, run, partitions⟩ | ⟨e, ns₁, run, conflict⟩
  · rw [run_bind_ok run]
    exact hf a partitions ns₁
  · rw [run_bind_error run]
    exact .inr ⟨e, ns₁, rfl, fun printable => conflict (printable.mono (List.subset_append_left _ _))⟩

protected theorem map (classes' : β → Classes) (g : α → β)
    (hx : LeadsTo (fun a => classes' (g a)) pairs x) : LeadsTo classes' pairs (do return g (← x)) := by
  have mapped : LeadsTo classes' (pairs ++ []) (do return g (← x)) :=
    hx.bind fun a ha => .pure (by rwa [List.append_nil])
  rwa [List.append_nil] at mapped

end LeadsTo

theorem Partitions.leadsTo_identify (h : c.Partitions pairs) (a b : Node) :
    LeadsTo id (pairs ++ [(a, b)]) (c.identify a b) := by
  intro ns
  have joined := h.joins (joins_unite h.rooted a b)
  unfold identify
  rcases hu : c.unite a b with ⟨d, conflict⟩
  rw [hu] at joined
  cases conflict with
  | none => exact .inl ⟨d, ns, rfl, joined⟩
  | some pair =>
    obtain ⟨ne, linked⟩ := h.linked_of_conflict (show (c.unite a b).2 = some (pair.1, pair.2) by rw [hu])
    rcases noted : note (.conflictingLiterals pair.1 pair.2) ns with ⟨e | ⟨⟩, ns'⟩
    · refine .inr ⟨e, ns', run_bind_error noted, fun printable => ?_⟩
      have writable : ∀ l ∈ (Notice.conflictingLiterals pair.1 pair.2).literals, l.sized := by
        simpa [Notice.literals] using
          ⟨printable _ _ linked ne, printable _ _ ((equivalence_linked _).symm linked) ne.symm⟩
      rw [note_ok writable] at noted
      cases noted
    · exact .inl ⟨d, ns', run_bind_ok noted, joined⟩

theorem Partitions.leadsTo_absorb (h : c.Partitions pairs) (isFixed : ValueId → Bool) (facts : List Clause) :
    LeadsTo Prod.fst (pairs ++ (Request.absorb isFixed facts).equalities) (c.absorb isFixed facts) := by
  unfold absorb
  generalize 0 = merged
  induction facts generalizing c pairs merged with
  | nil =>
    rw [Request.equalities, List.filterMap_nil, List.append_nil]
    exact .pure h
  | cons f rest ih =>
    rw [List.foldlM_cons, Request.equalities, List.filterMap_cons]
    cases hf : f.simpleEq? with
    | none => exact ih h merged
    | some pair =>
      obtain ⟨a, b⟩ := pair
      rw [Option.filter_some]
      by_cases fixed : (a.fixed isFixed && b.fixed isFixed) = true
      · simp only [fixed, if_true]
        rw [← List.singleton_append, ← List.append_assoc]
        have first : LeadsTo Prod.fst (pairs ++ [(a, b)])
            (do return (← c.identify a b, merged + 1) : Noted (Classes × Nat)) :=
          (h.leadsTo_identify a b).map Prod.fst fun d => (d, merged + 1)
        exact first.bind fun x hx => ih hx x.2
      · simp only [fixed]
        exact ih h merged

theorem Request.leadsTo_run (h : c.Partitions pairs) (r : Request) :
    LeadsTo id (pairs ++ r.equalities) (r.run c) := by
  cases r with
  | identify a b => exact h.leadsTo_identify a b
  | bind v l => exact h.leadsTo_identify _ _
  | absorb isFixed facts => exact (h.leadsTo_absorb isFixed facts).map id Prod.fst
  | find n =>
    rw [equalities, List.append_nil]
    exact .pure (h.sameRoots (sameRoots_find h.rooted n))
  | canonicalize f =>
    rw [equalities, List.append_nil]
    exact .pure (h.sameRoots (sameRoots_findAll h.rooted _))

theorem Request.leadsTo_runAll (h : c.Partitions pairs) (rs : List Request) :
    LeadsTo id (pairs ++ rs.flatMap equalities) (runAll c rs) := by
  induction rs generalizing c pairs with
  | nil =>
    rw [List.flatMap_nil, List.append_nil]
    exact .pure h
  | cons r rs ih =>
    rw [runAll, List.foldlM_cons, List.flatMap_cons, ← List.append_assoc]
    exact (r.leadsTo_run h).bind fun d hd => ih hd

/-- What a sequence of requests to fresh classes comes to. It is carried out unless two linked literals
cannot be written down. Then every look-up walks to a root, moves no root and is idempotent, look-ups
change no canonical form, and a literal is the one literal of its class and its root. If the requested
equalities link no two literals, the classes are those of the equalities, whatever requests they came from. -/
theorem requests_partition (rs : List Request) (ns : List Notice) :
    (Printable (rs.flatMap Request.equalities) → ∃ c ns', Request.runAll .empty rs ns = (.ok c, ns')) ∧
      ∀ c ns', Request.runAll .empty rs ns = (.ok c, ns') →
        (∀ n, (∃ path, c.Climbs n path (c.find n).1 ∧
            ∀ w, (c.find n).2.parent? w = if w ∈ path then some (c.find n).1 else c.parent? w) ∧
          (∀ m, ((c.find n).2.find m).1 = (c.find m).1) ∧
          ((c.find n).2.find (c.find n).1).1 = (c.find n).1) ∧
        (∀ nodes f, (c.findAll nodes).canonical f = c.canonical f) ∧
        (∀ k l, c.root (.literal k) = c.root (.literal l) → k = l) ∧
        (∀ n l, c.root n = c.root (.literal l) → c.root n = .literal l) ∧
        (Consistent (rs.flatMap Request.equalities) →
          (∀ a b, c.root a = c.root b ↔ Linked (rs.flatMap Request.equalities) a b) ∧
          ∀ rs' ns₁, (∀ p, p ∈ rs'.flatMap Request.equalities ↔ p ∈ rs.flatMap Request.equalities) →
            ∃ c' ns₂, Request.runAll .empty rs' ns₁ = (.ok c', ns₂) ∧
              (∀ a b, c'.root a = c'.root b ↔ c.root a = c.root b) ∧
              ∀ n l, c'.root n = .literal l ↔ c.root n = .literal l) := by
  have outcome (rs : List Request) := Request.leadsTo_runAll partitions_empty rs
  have returns (rs : List Request) (ns : List Notice) (h : Printable (rs.flatMap Request.equalities)) :
      ∃ c ns', Request.runAll .empty rs ns = (.ok c, ns') ∧ c.Partitions (rs.flatMap Request.equalities) := by
    rcases outcome rs ns with ok | ⟨f, ns', -, conflict⟩
    · exact ok
    · exact absurd h conflict
  refine ⟨fun h => ?_, fun c ns' run => ?_⟩
  · obtain ⟨c, ns', run, -⟩ := returns rs ns h
    exact ⟨c, ns', run⟩
  have partitions : c.Partitions (rs.flatMap Request.equalities) := by
    rcases outcome rs ns with ⟨d, ns₁, run', h⟩ | ⟨f, ns₁, failed, -⟩
    · cases run.symm.trans run'
      exact h
    · cases run.symm.trans failed
  have rooted := partitions.rooted
  refine ⟨fun n => ⟨rooted.find_spec n, (sameRoots_find rooted n).root_eq, ?_⟩,
    fun nodes f => (sameRoots_findAll rooted nodes).canonical_eq f, fun k l same => ?_,
    fun n l same => same.trans (root_literal l), fun consistent => ⟨partitions.root_eq_iff consistent, ?_⟩⟩
  · exact ((sameRoots_find rooted n).root_eq _).trans (rooted.root_root n)
  · rw [root_literal, root_literal] at same
    exact Node.literal.inj same
  · intro rs' ns₁ same
    have linked (a b : Node) :
        Linked (rs'.flatMap Request.equalities) a b ↔ Linked (rs.flatMap Request.equalities) a b :=
      ⟨fun h => h.mono fun p hp => (same p).1 hp, fun h => h.mono fun p hp => (same p).2 hp⟩
    have consistent' : Consistent (rs'.flatMap Request.equalities) := fun k l h =>
      consistent k l ((linked _ _).1 h)
    obtain ⟨c', ns₂, run', partitions'⟩ := returns rs' ns₁ consistent'.printable
    refine ⟨c', ns₂, run', fun a b => ?_, fun n l => ?_⟩
    · rw [partitions'.root_eq_iff consistent', partitions.root_eq_iff consistent, linked]
    · rw [partitions'.root_eq_literal_iff consistent', partitions.root_eq_literal_iff consistent, linked]

/-- Two values are joined, and one of them is bound before or after. -/
theorem requests_partition_pair :
    ∃ c ns, Request.runAll .empty [.identify (.value 1) (.value 2), .bind 2 (.word 7)] [] = (.ok c, ns) ∧
      c.root (.value 1) = .literal (.word 7) ∧
      ∃ c' ns', Request.runAll .empty [.bind 2 (.word 7), .identify (.value 1) (.value 2)] [] = (.ok c', ns') ∧
        c'.root (.value 1) = .literal (.word 7) := by
  let rs : List Request := [.identify (.value 1) (.value 2), .bind 2 (.word 7)]
  let literal (n : Node) : Literal := n.casesOn (fun _ => .word 7) id
  have consistent : Consistent (rs.flatMap Request.equalities) := by
    have eqv : Equivalence fun a b => literal a = literal b :=
      ⟨fun _ => rfl, fun h => h.symm, fun h h' => h.trans h'⟩
    have related : ∀ a b, (a, b) ∈ rs.flatMap Request.equalities → literal a = literal b := by
      intro a b hab
      simp only [rs, List.flatMap_cons, List.flatMap_nil, Request.equalities, List.cons_append,
        List.nil_append, List.mem_cons, List.not_mem_nil, or_false] at hab
      rcases hab with ⟨⟨⟩⟩ | ⟨⟨⟩⟩ <;> rfl
    intro k l linked
    exact eqv.eqvGen_iff.1 (Relation.EqvGen.mono related _ _ linked)
  obtain ⟨returns, properties⟩ := requests_partition rs []
  obtain ⟨c, ns, run⟩ := returns consistent.printable
  obtain ⟨-, -, -, rooted, same⟩ := properties c ns run
  obtain ⟨classes, ordered⟩ := same consistent
  have bound : c.root (.value 1) = .literal (.word 7) := by
    refine rooted _ _ ((classes _ _).2 ?_)
    exact .trans _ (.value 2) _ (.rel _ _ (by simp [rs, Request.equalities]))
      (.rel _ _ (by simp [rs, Request.equalities]))
  obtain ⟨c', ns', run', -, literals⟩ := ordered [.bind 2 (.word 7), .identify (.value 1) (.value 2)] []
    (by simp [rs, Request.equalities, or_comm])
  exact ⟨c, ns, run, bound, c', ns', run', (literals _ _).2 bound⟩

end Classes
end SsaFacts
