import SsaFacts.Engine.Basic
import SsaFacts.Proofs.Returns

/-! How a capture is put together: its parts are joined, and sorted by a key that orders facts of different
texts in one way only. So the outcome is known once each part is. -/
namespace SsaFacts

namespace Clause
namespace SortKey
variable {a b c : SortKey}

theorem le_iff : a.le b ↔ a.parens < b.parens ∨ a.parens = b.parens ∧ a.text ≤ b.text := by
  rw [le, Bool.or_eq_true, Bool.and_eq_true, decide_eq_true_iff, decide_eq_true_iff, Bool.not_eq_true',
    decide_eq_false_iff_not, String.not_lt]

theorem le_trans (hab : a.le b) (hbc : b.le c) : a.le c := by
  rw [le_iff] at *
  rcases hab with hab | ⟨hab, textab⟩ <;> rcases hbc with hbc | ⟨hbc, textbc⟩
  · exact .inl (hab.trans hbc)
  · exact .inl (by omega)
  · exact .inl (by omega)
  · exact .inr ⟨hab.trans hbc, String.le_trans textab textbc⟩

theorem le_total (a b : SortKey) : a.le b || b.le a := by
  rw [Bool.or_eq_true, le_iff, le_iff]
  rcases Nat.lt_trichotomy a.parens b.parens with h | h | h
  · exact .inl (.inl h)
  · rcases String.le_total a.text b.text with text | text
    · exact .inl (.inr ⟨h, text⟩)
    · exact .inr (.inr ⟨h.symm, text⟩)
  · exact .inr (.inl h)

theorem le_antisymm (hab : a.le b) (hba : b.le a) : a.text = b.text := by
  rw [le_iff] at *
  have := @String.le_antisymm a.text b.text
  grind

end SortKey

/-- A sorted arrangement of facts with distinct texts is what sorting gives. -/
theorem sort_eq_ok {cs ds : List Clause} (printed : ∀ c ∈ cs, c.print = .ok c.text)
    (perm : ds.Perm cs) (distinct : (ds.map text).Nodup)
    (sorted : ds.Pairwise fun a b => (SortKey.ofText a.text).le (SortKey.ofText b.text)) :
    sort cs = .ok ds := by
  let before (x y : SortKey × Clause) : Bool := x.1.le y.1
  let key (c : Clause) : SortKey × Clause := (SortKey.ofText c.text, c)
  have keyed : cs.mapM (fun c => return (SortKey.ofText (← c.print), c) : Clause → Checked _) =
      .ok (cs.map key) :=
    Checked.mapM_ok fun c hc => by rw [printed c hc]; rfl
  have transitive (x y z : SortKey × Clause) (hxy : before x y) (hyz : before y z) : before x z :=
    SortKey.le_trans hxy hyz
  have total (x y : SortKey × Clause) : before x y || before y x := SortKey.le_total x.1 y.1
  have same : (cs.map key).mergeSort before = ds.map key := by
    have arranged := List.mergeSort_perm (cs.map key) before
    have ordered : ((cs.map key).mergeSort before).Pairwise fun x y => before x y :=
      List.pairwise_mergeSort transitive total _
    refine (arranged.trans (perm.map key).symm).eq_of_pairwise ?_ ordered (List.pairwise_map.2 sorted)
    intro x y hx hy hxy hyx
    obtain ⟨c, hc, rfl⟩ := List.mem_map.1 (arranged.mem_iff.1 hx)
    obtain ⟨d, hd, rfl⟩ := List.mem_map.1 hy
    have text : c.text = d.text := SortKey.le_antisymm hxy hyx
    rw [List.inj_on_of_nodup_map distinct (perm.mem_iff.2 hc) hd text]
  rw [sort, keyed, Checked.ok_bind, same, List.map_map]
  simp [Function.comp_def, key]

end Clause

theorem Subject.capture_run {s : Subject} {disable : Bool} {fixed : List ValueId}
    {top loads edges library sorted : List Clause} {ns ns' : List Notice} (hfixed : s.fixedValues = .ok fixed)
    (htop : s.topLevelFacts fixed = .ok top)
    (hloads : s.loadFacts (Capture.isFixed { fixed } s.program) = .ok loads)
    (hedges : s.onceEdgeFacts ns = (.ok edges, ns'))
    (hlibrary : s.libraryFacts (Capture.isFixed { fixed } s.program) = .ok library)
    (hsorted : Clause.sort (top ++ loads ++ edges ++ library) = .ok sorted) :
    s.capture disable ns = (.ok { fixed, facts := if disable then [] else dropRepeats sorted }, ns') := by
  unfold capture
  rw [run_bind_ok (run_lift_ok hfixed), run_bind_ok (run_lift_ok htop), run_bind_ok (run_lift_ok hloads),
    run_bind_ok hedges, run_bind_ok (run_lift_ok hlibrary), run_bind_ok (run_lift_ok hsorted)]
  rfl

theorem Subject.capture_eq {s : Subject} {fixed : List ValueId} {top loads edges library sorted : List Clause}
    {ns ns' : List Notice} (hfixed : s.fixedValues = .ok fixed) (htop : s.topLevelFacts fixed = .ok top)
    (hloads : s.loadFacts (Capture.isFixed { fixed } s.program) = .ok loads)
    (hedges : s.onceEdgeFacts ns = (.ok edges, ns'))
    (hlibrary : s.libraryFacts (Capture.isFixed { fixed } s.program) = .ok library)
    (hsorted : Clause.sort (top ++ loads ++ edges ++ library) = .ok sorted) :
    s.capture false ns = (.ok { fixed, facts := dropRepeats sorted }, ns') :=
  capture_run hfixed htop hloads hedges hlibrary hsorted

theorem Engine.ofSubject_of_capture {subject : Subject} {config : Config} {capture : Capture}
    {classes : Classes} {count : Nat} {facts : List Clause} {ns ns' ns'' : List Notice}
    (captured : subject.capture config.disable ns = (.ok capture, ns'))
    (absorbed : Classes.empty.absorb (capture.isFixed subject.program) capture.facts ns' =
      (.ok (classes, count), ns''))
    (reduced : reduce classes capture.facts = .ok facts) :
    ofSubject subject config ns = (.ok { subject, config, capture, classes, facts }, ns'') := by
  rw [ofSubject, run_bind_ok captured, run_bind_ok absorbed]
  exact run_bind_ok (run_lift_ok reduced)

/-! ### Straight-line programs -/

/-- A program whose entry is one block. Its values are some constants, then the results of its
instructions. Function 1 marks its arguments as equal, and function 2 reads an input. -/
def Program.straightLine (consts : List Int) (ops : List Op) : Program where
  values := (consts.map (fun z => { ty := .int 32, kind := .const z : Value }) ++
    ops.map (fun op => { ty := .int 32, kind := .inst 0 op : Value })).toArray
  blocks := #[{
    func := 0
    name := "entry"
    insts := (List.range ops.length).map (consts.length + ·)
    term := .ret none }]
  functions := #[
    { name := "main", params := [], ret := .void, blocks := [0] },
    { name := Routine.equalityMarker, params := [], ret := .void },
    { name := "input", params := [], ret := .int 32 }]

/-- The entry block of a straight-line program runs, and runs once. -/
def Subject.straightLine (consts : List Int) (ops : List Op) : Subject where
  program := .straightLine consts ops
  survey := {
    graph := { succs := #[[]], preds := #[[]] }
    loops := #[]
    topLoops _ := []
    innermost? _ := none
    idom? _ := none
    callSites _ := []
    callees _ := []
    funcOnce f := f = 0
    funcDead f := f ≠ 0
    instOnce _ := true
    instDead _ := false
    mustAlias x y := return x = y
    mayWrite _ _ := return false
    marked _ := false }

end SsaFacts
