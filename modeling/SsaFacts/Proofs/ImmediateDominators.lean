import SsaFacts.Proofs.Dominance

/-! Immediate dominators: of a block that is reached from one entry, and so of all blocks of a program whose
functions do not branch into each other. -/
namespace SsaFacts

namespace Program
variable {p : Program}

def targets (p : Program) (b : BlockId) : List BlockId :=
  match p.blocks[b]? with
  | some x => x.term.successors
  | none => []

/-- Functions list blocks of their own, and terminators lead to blocks of their own function. -/
structure Confined (p : Program) : Prop where
  listed : ∀ (f : FuncId) (fn : Function), p.functions[f]? = some fn → ∀ b ∈ fn.blocks,
    ∃ x : Block, p.blocks[b]? = some x ∧ x.func = f
  targets : ∀ (b : BlockId) (x : Block), p.blocks[b]? = some x → ∀ c ∈ x.term.successors,
    ∃ y : Block, p.blocks[c]? = some y ∧ y.func = x.func

def IsEntry (p : Program) (f : FuncId) (entry : BlockId) : Prop :=
  ∃ fn : Function, p.functions[f]? = some fn ∧ fn.entryBlock? = some entry

theorem mem_targets {a b : BlockId} :
    b ∈ p.targets a ↔ ∃ x : Block, p.blocks[a]? = some x ∧ b ∈ x.term.successors := by
  rw [targets]
  cases p.blocks[a]? <;> simp

namespace Confined

theorem entry (h : p.Confined) {f : FuncId} {e : BlockId} (he : p.IsEntry f e) :
    ∃ x : Block, p.blocks[e]? = some x ∧ x.func = f := by
  obtain ⟨fn, hf, head⟩ := he
  exact h.listed f fn hf e (List.mem_of_mem_head? head)

/-- What is reached from the entry of a function belongs to the function. -/
theorem reached (h : p.Confined) {f : FuncId} {e b : BlockId} (he : p.IsEntry f e)
    (reaches : Reaches p.targets e b) : ∃ x : Block, p.blocks[b]? = some x ∧ x.func = f := by
  obtain ⟨vs, path⟩ := reaches
  induction path with
  | refl => exact h.entry he
  | step _ edge ih =>
    obtain ⟨x, hx, rfl⟩ := ih
    obtain ⟨x', hx', mem⟩ := mem_targets.1 edge
    cases hx.symm.trans hx'
    exact h.targets _ x hx _ mem

theorem entry_unique (h : p.Confined) {f f' : FuncId} {e e' b : BlockId} (he : p.IsEntry f e)
    (he' : p.IsEntry f' e') (reaches : Reaches p.targets e b) (reaches' : Reaches p.targets e' b) :
    e' = e := by
  obtain ⟨x, hx, rfl⟩ := h.reached he reaches
  obtain ⟨x', hx', rfl⟩ := h.reached he' reaches'
  cases hx.symm.trans hx'
  obtain ⟨fn, hf, head⟩ := he
  obtain ⟨fn', hf', head'⟩ := he'
  cases hf.symm.trans hf'
  exact Option.some.inj (head'.symm.trans head)

end Confined

structure Closed (p : Program) : Prop where
  entry : ∀ f e, p.IsEntry f e → e < p.blocks.size
  targets : ∀ a, ∀ b ∈ p.targets a, b < p.blocks.size

theorem Closed.reached (h : p.Closed) {f : FuncId} {e b : BlockId} (he : p.IsEntry f e)
    (reaches : Reaches p.targets e b) : b < p.blocks.size := by
  obtain ⟨vs, path⟩ := reaches
  cases path with
  | refl => exact h.entry f e he
  | step _ edge => exact h.targets _ _ edge

theorem Confined.closed (h : p.Confined) : p.Closed where
  entry f e he := by
    obtain ⟨x, hx, -⟩ := h.entry he
    exact (Array.getElem?_eq_some_iff.1 hx).1
  targets a b hb := by
    obtain ⟨x, hx, mem⟩ := mem_targets.1 hb
    obtain ⟨y, hy, -⟩ := h.targets a x hx b mem
    exact (Array.getElem?_eq_some_iff.1 hy).1

def EnteredOnce (p : Program) (b : BlockId) : Prop :=
  ∀ f f' e e', p.IsEntry f e → p.IsEntry f' e' → Reaches p.targets e b → Reaches p.targets e' b → e' = e

theorem Confined.enteredOnce (h : p.Confined) (b : BlockId) : p.EnteredOnce b :=
  fun _ _ _ _ he he' => h.entry_unique he he'

end Program

namespace FlowGraph
variable {p : Program}

theorem forIn_blocks {bs : List BlockId} :
    (forIn bs PUnit.unit fun b _ => do
      discard (p.block b)
      return ForInStep.yield PUnit.unit : Checked PUnit) = .ok PUnit.unit ↔ ∀ b ∈ bs, b < p.blocks.size := by
  induction bs with
  | nil => exact iff_of_true rfl (by simp)
  | cons b bs ih =>
    rw [List.forIn_cons, List.forall_mem_cons, ← ih, Program.block]
    by_cases inside : b < p.blocks.size
    · rw [Array.getElem?_eq_getElem inside, and_iff_right inside]
      rfl
    · rw [Array.getElem?_eq_none (Nat.le_of_not_lt inside)]
      exact iff_of_false (by rintro ⟨⟩) (fun both => inside both.1)

theorem mem_successors {b : BlockId} :
    b ∈ (p.blocks.map fun x => x.term.successors.eraseDups).toList.flatten ↔ ∃ a, b ∈ p.targets a := by
  simp only [List.mem_flatten, Array.toList_map, List.mem_map, Array.mem_toList_iff, Array.mem_iff_getElem?,
    Program.mem_targets]
  constructor
  · rintro ⟨_, ⟨x, ⟨a, hx⟩, rfl⟩, hb⟩
    exact ⟨a, x, hx, List.mem_eraseDups.1 hb⟩
  · rintro ⟨a, x, hx, hb⟩
    exact ⟨_, ⟨x, ⟨a, hx⟩, rfl⟩, List.mem_eraseDups.2 hb⟩

structure Shows (g : FlowGraph) (p : Program) : Prop where
  size_eq : g.size = p.blocks.size
  mem_next : ∀ a b, b ∈ g.next a ↔ b ∈ p.targets a
  mirror : ∀ a b, a ∈ g.prev b ↔ b ∈ g.next a

theorem ofProgram_ok_of_targets (bound : ∀ a, ∀ b ∈ p.targets a, b < p.blocks.size) :
    ∃ g, ofProgram p = .ok g ∧ g.Shows p := by
  let succs := p.blocks.map fun b => b.term.successors.eraseDups
  let preds := p.blockIds.map fun b => p.blockIds.filter fun a => (succs.getD a []).contains b
  have exist : ∀ b ∈ succs.toList.flatten, b < p.blocks.size := by
    intro b hb
    obtain ⟨a, edge⟩ := mem_successors.1 hb
    exact bound a b edge
  have made : ofProgram p = .ok { succs, preds := preds.toArray } := by
    unfold ofProgram
    dsimp only
    rw [forIn_blocks.2 exist]
    rfl
  have next (a b : BlockId) : b ∈ succs.getD a [] ↔ b ∈ p.targets a := by
    rw [Program.targets]
    cases hx : p.blocks[a]? <;> simp [succs, hx]
  refine ⟨_, made, by simp [size, succs], next, fun a b => ?_⟩
  show a ∈ preds.toArray.getD b [] ↔ b ∈ succs.getD a []
  by_cases hb : b < p.blocks.size
  · have listed : preds.toArray.getD b [] = p.blockIds.filter fun a => (succs.getD a []).contains b := by
      simp [preds, Program.blockIds, hb]
    rw [listed, List.mem_filter, List.contains_iff_mem, Program.blockIds, List.mem_range]
    refine ⟨fun h => h.2, fun h => ⟨?_, h⟩⟩
    obtain ⟨x, hx, -⟩ := Program.mem_targets.1 ((next a b).1 h)
    exact (Array.getElem?_eq_some_iff.1 hx).1
  · have none : preds.toArray.getD b [] = [] := by
      simp [preds, Program.blockIds, hb]
    rw [none]
    exact iff_of_false List.not_mem_nil fun h => hb (bound a b ((next a b).1 h))

theorem ofProgram_ok (h : p.Confined) : ∃ g, ofProgram p = .ok g ∧ g.Shows p :=
  ofProgram_ok_of_targets h.closed.targets

end FlowGraph

theorem Path.of_subset {next next' : Nat → List Nat} {start b : Nat} {vs : List Nat}
    (sub : ∀ a, next a ⊆ next' a) (path : Path next start vs b) : Path next' start vs b := by
  induction path with
  | refl => exact .refl
  | step _ edge ih => exact ih.step (sub _ edge)

namespace FlowGraph.Shows
variable {g : FlowGraph} {p : Program} {f : FuncId} {e a b : BlockId}

theorem path_iff (h : g.Shows p) {vs : List BlockId} : Path g.next e vs b ↔ Path p.targets e vs b :=
  ⟨.of_subset fun a _ => (h.mem_next a _).1, .of_subset fun a _ => (h.mem_next a _).2⟩

theorem dominates_iff (h : g.Shows p) : Dominates g.next e a b ↔ Dominates p.targets e a b := by
  simp only [Dominates, h.path_iff]

theorem closest_iff (h : g.Shows p) : Closest g.next e a b ↔ Closest p.targets e a b := by
  simp only [SsaFacts.closest_iff, h.dominates_iff]

theorem numbered_of_closed (h : g.Shows p) (closed : p.Closed) (he : p.IsEntry f e) :
    Dominators.Numbered g e (g.reversePostorder e) := by
  have edges : ∀ a, ∀ b ∈ g.next a, b < g.size := fun a b hb =>
    h.size_eq ▸ closed.targets a b ((h.mem_next a b).1 hb)
  have numbers := numbers_reversePostorder edges e
  refine ⟨numbers, h.mirror, fun b hb => ?_⟩
  obtain ⟨vs, path⟩ := (numbers.mem_iff b).1 hb
  exact h.size_eq ▸ closed.reached he ⟨vs, h.path_iff.1 path⟩

theorem numbered (h : g.Shows p) (confined : p.Confined) (he : p.IsEntry f e) :
    Dominators.Numbered g e (g.reversePostorder e) := h.numbered_of_closed confined.closed he

theorem mem_order (h : g.Shows p) (numbered : Dominators.Numbered g e (g.reversePostorder e)) :
    b ∈ g.reversePostorder e ↔ Reaches p.targets e b := by
  rw [numbered.numbers.mem_iff]
  simp only [Reaches, h.path_iff]

theorem mem_reversePostorder (h : g.Shows p) (confined : p.Confined) (he : p.IsEntry f e) :
    b ∈ g.reversePostorder e ↔ Reaches p.targets e b := h.mem_order (h.numbered confined he)

end FlowGraph.Shows

theorem getD_foldl_set {α : Type} {bs : List Nat} {v : Nat → α} {table : Array α} {d : α} (b : Nat) :
    (bs.foldl (fun table b => table.setIfInBounds b (v b)) table).getD b d =
      if b ∈ bs ∧ b < table.size then v b else table.getD b d := by
  induction bs generalizing table with
  | nil => simp
  | cons c bs ih =>
    rw [List.foldl_cons, ih, Array.size_setIfInBounds]
    by_cases later : b ∈ bs ∧ b < table.size
    · rw [if_pos later, if_pos ⟨.tail _ later.1, later.2⟩]
    rw [if_neg later]
    by_cases same : c = b
    · subst same
      by_cases inside : c < table.size <;> simp [inside]
    · have other : ¬(b ∈ c :: bs ∧ b < table.size) := by
        rintro ⟨mem, inside⟩
        exact later ⟨List.mem_of_ne_of_mem (Ne.symm same) mem, inside⟩
      rw [if_neg other]
      simp [same]

namespace Dominators
variable {g : FlowGraph} {p : Program}

theorem look_replicate (b : Nat) : look (Array.replicate g.size none) b = none := by
  rw [look, Array.getD_eq_getD_getElem?, Array.getElem?_replicate]
  split <;> rfl

theorem look_record {table : Array (Option Nat)} (entry b : Nat) :
    look (ofProgram.record g table entry) b =
      if b ∈ (g.reversePostorder entry).tail ∧ b < table.size then look (treeOf g entry) b
      else look table b :=
  getD_foldl_set b

theorem size_record {table : Array (Option Nat)} (entry : Nat) :
    (ofProgram.record g table entry).size = table.size := by
  have fold (bs : List Nat) (v : Nat → Option Nat) (table : Array (Option Nat)) :
      (bs.foldl (fun table b => table.setIfInBounds b (v b)) table).size = table.size := by
    induction bs generalizing table with
    | nil => rfl
    | cons b bs ih => rw [List.foldl_cons, ih, Array.size_setIfInBounds]
  exact fold _ _ _

theorem size_records {entries : List Nat} {table : Array (Option Nat)} :
    (entries.foldl (ofProgram.record g) table).size = table.size := by
  induction entries generalizing table with
  | nil => rfl
  | cons e entries ih => rw [List.foldl_cons, ih, size_record]

theorem look_records_of_not_mem {entries : List Nat} {table : Array (Option Nat)} {b : Nat}
    (h : ∀ e ∈ entries, b ∉ (g.reversePostorder e).tail) :
    look (entries.foldl (ofProgram.record g) table) b = look table b := by
  induction entries generalizing table with
  | nil => rfl
  | cons e entries ih =>
    obtain ⟨first, later⟩ := List.forall_mem_cons.1 h
    rw [List.foldl_cons, ih later, look_record, if_neg fun both => first both.1]

/-- A block that one entry reaches is listed as in the tree of that entry. -/
theorem look_records_of_mem {entries : List Nat} {table : Array (Option Nat)} {b e : Nat}
    (he : e ∈ entries) (mem : b ∈ (g.reversePostorder e).tail) (inside : b < table.size)
    (only : ∀ e' ∈ entries, b ∈ (g.reversePostorder e').tail → e' = e) :
    look (entries.foldl (ofProgram.record g) table) b = look (treeOf g e) b := by
  induction entries generalizing table with
  | nil => cases he
  | cons e' entries ih =>
    obtain ⟨first, later⟩ := List.forall_mem_cons.1 only
    rw [List.foldl_cons]
    by_cases again : e ∈ entries
    · exact ih again (by rwa [size_record]) later
    · obtain rfl : e = e' := (List.mem_cons.1 he).resolve_right again
      rw [look_records_of_not_mem fun e' he' hb => again (later e' he' hb ▸ he'), look_record,
        if_pos ⟨mem, inside⟩]

theorem mem_entries {e : BlockId} :
    e ∈ p.functions.toList.filterMap Function.entryBlock? ↔ ∃ f, p.IsEntry f e := by
  simp only [List.mem_filterMap, Array.mem_toList_iff, Array.mem_iff_getElem?, Program.IsEntry]
  constructor
  · rintro ⟨fn, ⟨f, hf⟩, head⟩
    exact ⟨f, fn, hf, head⟩
  · rintro ⟨f, fn, hf, head⟩
    exact ⟨fn, ⟨f, hf⟩, head⟩

section
variable {f : FuncId} {e b : BlockId} (closed : p.Closed) (shows_p : g.Shows p)
include closed shows_p

/-- A block that is reached from one entry is listed as in the tree of that entry. -/
theorem idom?_eq_of_enteredOnce (once : p.EnteredOnce b) (he : p.IsEntry f e) (reaches : Reaches p.targets e b)
    (ne : b ≠ e) : (ofProgram p g).idom? b = look (treeOf g e) b := by
  have numbered := shows_p.numbered_of_closed closed he
  have mem : b ∈ g.reversePostorder e := (shows_p.mem_order numbered).2 reaches
  refine look_records_of_mem (mem_entries.2 ⟨f, he⟩) (numbered.numbers.mem_tail.2 ⟨mem, ne⟩) ?_ ?_
  · rw [Array.size_replicate]
    exact numbered.bound b mem
  · intro e' he' hb
    obtain ⟨f', he'⟩ := mem_entries.1 he'
    have numbered' := shows_p.numbered_of_closed closed he'
    exact once f f' e e' he he' reaches ((shows_p.mem_order numbered').1 (List.mem_of_mem_tail hb))

/-- Blocks without a way to them from an entry, other than that of an entry to itself, have no immediate
dominator. -/
theorem idom?_eq_none_of_closed (h : ∀ f e, p.IsEntry f e → Reaches p.targets e b → b = e) :
    (ofProgram p g).idom? b = none := by
  have absent : ∀ e ∈ p.functions.toList.filterMap Function.entryBlock?, b ∉ (g.reversePostorder e).tail := by
    intro e he hb
    obtain ⟨f, he⟩ := mem_entries.1 he
    have numbered := shows_p.numbered_of_closed closed he
    obtain ⟨mem, ne⟩ := numbered.numbers.mem_tail.1 hb
    exact ne (h f e he ((shows_p.mem_order numbered).1 mem))
  exact (look_records_of_not_mem absent).trans (look_replicate b)

theorem exists_closest_of_enteredOnce (once : p.EnteredOnce b) (he : p.IsEntry f e)
    (reaches : Reaches p.targets e b) (ne : b ≠ e) :
    ∃ d, (ofProgram p g).idom? b = some d ∧ Closest p.targets e d b := by
  have numbered := shows_p.numbered_of_closed closed he
  have mem : b ∈ g.reversePostorder e := (shows_p.mem_order numbered).2 reaches
  obtain ⟨d, parent, closest⟩ := (settled_treeOf numbered).2.exists_closest numbered mem ne
  exact ⟨d, (idom?_eq_of_enteredOnce closed shows_p once he reaches ne).trans parent,
    shows_p.closest_iff.1 ((closest d).2 rfl)⟩

end

section
variable {f : FuncId} {e a b : BlockId} (confined : p.Confined) (shows_p : g.Shows p)
include confined shows_p

theorem idom?_eq (he : p.IsEntry f e) (reaches : Reaches p.targets e b) (ne : b ≠ e) :
    (ofProgram p g).idom? b = look (treeOf g e) b :=
  idom?_eq_of_enteredOnce confined.closed shows_p (confined.enteredOnce b) he reaches ne

theorem idom?_eq_none (h : ∀ f e, p.IsEntry f e → Reaches p.targets e b → b = e) :
    (ofProgram p g).idom? b = none :=
  idom?_eq_none_of_closed confined.closed shows_p h

theorem idom?_entry (he : p.IsEntry f e) : (ofProgram p g).idom? e = none :=
  idom?_eq_none confined shows_p fun _ _ he' reaches => (confined.entry_unique he he' .refl reaches).symm

theorem dominates_eq_true (he : p.IsEntry f e) (reaches : Reaches p.targets e b) :
    (ofProgram p g).dominates a b = true ↔ Dominates p.targets e a b := by
  have numbered := shows_p.numbered confined he
  have settled := (settled_treeOf numbered).2
  have mem : b ∈ g.reversePostorder e := (shows_p.mem_reversePostorder confined he).2 reaches
  have agrees : ∀ c ∈ g.reversePostorder e, c ≠ e → (ofProgram p g).idom? c = look (treeOf g e) c :=
    fun c hc => idom?_eq confined shows_p he ((shows_p.mem_reversePostorder confined he).1 hc)
  have enough : (g.reversePostorder e).idxOf b ≤ (ofProgram p g).table.size := by
    have size : (ofProgram p g).table.size = g.size := by
      rw [ofProgram, size_records, Array.size_replicate]
    have sub : g.reversePostorder e ⊆ List.range g.size :=
      fun c hc => List.mem_range.2 (numbered.bound c hc)
    have length := (numbered.numbers.nodup.subperm sub).length_le
    rw [List.length_range] at length
    rw [size]
    exact (List.idxOf_le_length).trans length
  rw [dominates, above_eq_true numbered.numbers settled.toTree (idom?_entry confined shows_p he) agrees
    (settled.isSome mem) enough, settled.above_iff numbered mem, shows_p.dominates_iff]

theorem exists_closest (he : p.IsEntry f e) (reaches : Reaches p.targets e b) (ne : b ≠ e) :
    ∃ d, (ofProgram p g).idom? b = some d ∧ Closest p.targets e d b :=
  exists_closest_of_enteredOnce confined.closed shows_p (confined.enteredOnce b) he reaches ne

end

/-- In a program whose functions do not branch into each other, the search for dominators comes to an end:
at every stage any two blocks of the tree meet, and the rounds for each function lead to a tree that a
further round does not change. For a block that is reached from the entry of its function,
`dominates` finds the blocks that are on every way to it, and the immediate dominator, which all blocks but
the entry have, is the one closest strict dominator. Entries and blocks that are not reached have none. -/
theorem ofProgram_correct (confined : p.Confined) :
    ∃ g, FlowGraph.ofProgram p = .ok g ∧
      (∀ f e, p.IsEntry f e →
        (∀ rounds blocks a b, (look (stage g e rounds blocks) a).isSome →
          (look (stage g e rounds blocks) b).isSome →
            Meets (g.reversePostorder e) (look (stage g e rounds blocks)) a b
              (meet (g.reversePostorder e) (look (stage g e rounds blocks))
                (2 * (g.reversePostorder e).length) a b)) ∧
        round g (g.reversePostorder e) (treeOf g e) = treeOf g e ∧ (ofProgram p g).idom? e = none ∧
        ∀ b, Reaches p.targets e b →
          (∀ a, (ofProgram p g).dominates a b = true ↔ ∀ vs, Path p.targets e vs b → a ∈ vs) ∧
          (b ≠ e → ∃ d, (ofProgram p g).idom? b = some d ∧ ∀ c, Closest p.targets e c b ↔ c = d)) ∧
      ∀ (b : BlockId) (x : Block), p.blocks[b]? = some x →
        (∀ e, p.IsEntry x.func e → ¬Reaches p.targets e b) → (ofProgram p g).idom? b = none := by
  obtain ⟨g, made, shows_p⟩ := FlowGraph.ofProgram_ok confined
  refine ⟨g, made, fun f e he => ?_, fun b x hx unreached => ?_⟩
  · have numbered := shows_p.numbered confined he
    obtain ⟨fixed, settled⟩ := settled_treeOf numbered
    refine ⟨fun rounds blocks a b ha hb => ?_, fixed, idom?_entry confined shows_p he, fun b reaches =>
      ⟨fun a => dominates_eq_true confined shows_p he reaches, fun ne => ?_⟩⟩
    · have tree := tree_stage numbered rounds blocks
      have first := List.idxOf_lt_length_iff.2 (tree.within a ha)
      have second := List.idxOf_lt_length_iff.2 (tree.within b hb)
      exact meets_meet numbered.numbers tree ha hb (by omega)
    have mem : b ∈ g.reversePostorder e := (shows_p.mem_reversePostorder confined he).2 reaches
    obtain ⟨d, parent, closest⟩ := settled.exists_closest numbered mem ne
    exact ⟨d, (idom?_eq confined shows_p he reaches ne).trans parent,
      fun c => shows_p.closest_iff.symm.trans (closest c)⟩
  · refine idom?_eq_none confined shows_p fun f e he reaches => ?_
    obtain ⟨x', hx', rfl⟩ := confined.reached he reaches
    cases hx.symm.trans hx'
    exact absurd reaches (unreached e he)

end Dominators

/-- Two blocks that branch to each other are both entered from the first block; what follows them also
follows a block that is not reached. -/
def Program.entwined : Program where
  blocks := #[
    { func := 0, name := "entry", term := .condBr 0 1 2 },
    { func := 0, name := "left", term := .br 2 },
    { func := 0, name := "right", term := .condBr 0 1 3 },
    { func := 0, name := "exit", term := .ret none },
    { func := 0, name := "orphan", term := .br 3 }]
  functions := #[{ name := "main", params := [], ret := .void, blocks := [0, 1, 2, 3, 4] }]

theorem Program.confined_entwined : entwined.Confined := by
  have own : ∀ b < 5, ∃ x, entwined.blocks[b]? = some x ∧ x.func = 0 := by
    intro b hb
    interval_cases b <;> exact ⟨_, rfl, rfl⟩
  have inside : ∀ b < 5, ∀ c ∈ entwined.targets b, c < 5 := by decide
  constructor
  · intro f fn hf b hb
    obtain ⟨first, rfl⟩ := Array.getElem?_eq_some_iff.1 hf
    obtain rfl : f = 0 := Nat.lt_one_iff.1 first
    have listed : ∀ b ∈ [0, 1, 2, 3, 4], b < 5 := by decide
    exact own b (listed b hb)
  · intro b x hx c hc
    have hb : b < 5 := (Array.getElem?_eq_some_iff.1 hx).1
    obtain ⟨x', hx', func⟩ := own b hb
    cases hx.symm.trans hx'
    rw [func]
    exact own c (inside b hb c (mem_targets.2 ⟨x, hx, hc⟩))

theorem Dominators.ofProgram_correct_entwined :
    ∃ g, FlowGraph.ofProgram .entwined = .ok g ∧
      (∀ a, (ofProgram .entwined g).dominates a 3 = true ↔
        ∀ vs, Path Program.entwined.targets 0 vs 3 → a ∈ vs) ∧
      (ofProgram .entwined g).idom? 0 = none ∧ (ofProgram .entwined g).idom? 4 = none := by
  obtain ⟨g, made, reached, unreached⟩ := ofProgram_correct Program.confined_entwined
  have entry : Program.entwined.IsEntry 0 0 := ⟨_, rfl, rfl⟩
  obtain ⟨-, -, none, dominators⟩ := reached 0 0 entry
  have exit : Reaches Program.entwined.targets 0 3 :=
    ⟨[3, 2, 0], .step (.step .refl (by decide)) (by decide)⟩
  refine ⟨g, made, (dominators 3 exit).1, none, unreached 4 _ rfl fun e he reaches => ?_⟩
  obtain ⟨fn, hf, head⟩ := he
  cases hf
  cases head
  -- No terminator leads to block 4, so a way to it would have to start there.
  have orphan : ∀ a, 4 ∉ Program.entwined.targets a := by
    intro a edge
    obtain ⟨x, hx, -⟩ := Program.mem_targets.1 edge
    have ha : a < 5 := (Array.getElem?_eq_some_iff.1 hx).1
    have none : ∀ a < 5, 4 ∉ Program.entwined.targets a := by decide
    exact none a ha edge
  obtain ⟨vs, path⟩ := reaches
  cases path with
  | step _ edge => exact orphan _ edge

end SsaFacts
