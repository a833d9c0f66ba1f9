import SsaFacts.Facts.Loops
import SsaFacts.Proofs.CountingLoops

/-! Trip counts. A test in front of a loop shows that its trip count is positive, and the latch leaves the loop
when the next value of the induction variable reaches it, so the variable stays below. -/
namespace SsaFacts

open LoopForest (IsNatural)

/-! ### Signed comparisons -/

/-- The signed reading of a bit-vector. -/
def Vec.signed (x : Vec) : Int := x.bits.toInt

namespace Predicate
variable {x y : Vec}

theorem truth_negated (p : Predicate) (x y : Vec) : p.negated.truth x y = !p.truth x y := by
  cases p <;> simp [truth, negated, test, BitVec.ule_eq_not_ult, BitVec.sle_eq_not_slt]

theorem truth_slt (same : x.width = y.width) : slt.truth x y = true ↔ x.signed < y.signed := by
  obtain ⟨w, a⟩ := x
  obtain ⟨b, rfl⟩ := Vec.exists_bits same.symm
  rw [truth_mk, test, Vec.signed, Vec.signed, BitVec.slt_iff_toInt_lt]

theorem truth_sle (same : x.width = y.width) : sle.truth x y = true ↔ x.signed ≤ y.signed := by
  obtain ⟨w, a⟩ := x
  obtain ⟨b, rfl⟩ := Vec.exists_bits same.symm
  rw [truth_mk, test, Vec.signed, Vec.signed, BitVec.sle_iff_toInt_le]

theorem truth_sgt (same : x.width = y.width) : sgt.truth x y = true ↔ y.signed < x.signed := by
  obtain ⟨w, a⟩ := x
  obtain ⟨b, rfl⟩ := Vec.exists_bits same.symm
  rw [truth_mk, test, Vec.signed, Vec.signed, BitVec.slt_iff_toInt_lt]

theorem truth_sge (same : x.width = y.width) : sge.truth x y = true ↔ y.signed ≤ x.signed := by
  obtain ⟨w, a⟩ := x
  obtain ⟨b, rfl⟩ := Vec.exists_bits same.symm
  rw [truth_mk, test, Vec.signed, Vec.signed, BitVec.sle_iff_toInt_le]

end Predicate

theorem Valuation.signed_const {p : Program} {ρ : Valuation p} {v : ValueId} {c : Int}
    (const : p.const? v = .ok (some c)) (word : p.modelWidth v = wordWidth) (low : 0 ≤ c) (high : c < twoPow 31) :
    (ρ.read v).signed = c := by
  have bound : ((twoPow 31 : Nat) : Int) = 2147483648 := by
    rw [twoPow_eq]
    norm_num
  have fits : (BitVec.ofInt 32 c).toInt = c := by
    rw [BitVec.toInt_ofInt]
    exact Int.bmod_eq_of_le (by omega) (by omega)
  rw [ρ.read_const const, word]
  exact fits

/-! ### Tests in front of a loop -/

namespace Program

/-- Of `n` and of what it is compared with, the constants are less than `2 ^ 31`. -/
def ComparedInRange (p : Program) (n : ValueId) : Prop :=
  ∀ v c, p.const? v = .ok (some c) →
    v = n ∨ (∃ u pred, p.op? u = .ok (some (.icmp pred n v)) ∨ p.op? u = .ok (some (.icmp pred v n))) → c < twoPow 31

inductive TestsPositive (p : Program) (n : ValueId) : Predicate → ValueId → ValueId → Prop
  | sgt {v : ValueId} {c : Int} (const : p.const? v = .ok (some c)) (bound : 0 ≤ c) : TestsPositive p n .sgt n v
  | sge {v : ValueId} {c : Int} (const : p.const? v = .ok (some c)) (bound : 1 ≤ c) : TestsPositive p n .sge n v
  | slt {v : ValueId} {c : Int} (const : p.const? v = .ok (some c)) (bound : 0 ≤ c) : TestsPositive p n .slt v n
  | sle {v : ValueId} {c : Int} (const : p.const? v = .ok (some c)) (bound : 1 ≤ c) : TestsPositive p n .sle v n

end Program

namespace LoopForest
variable {p : Program} {source dest : BlockId} {n : ValueId}

theorem exists_test (shows_n : edgeShowsPositive p source dest n = .ok true) :
    ∃ x cond t f pred a b, p.blocks[source]? = some x ∧ x.term = .condBr cond t f ∧ t ≠ f ∧
      p.op? cond = .ok (some (.icmp pred a b)) ∧
      p.TestsPositive n (if t = dest then pred else pred.negated) a b := by
  obtain ⟨x, hx, found⟩ := Checked.bind_eq_ok.1 shows_n
  split at found
  case h_2 => cases found
  case h_1 cond t f term =>
    split at found
    case isTrue => cases found
    case isFalse ne =>
      obtain ⟨op, isOp, found⟩ := Checked.bind_eq_ok.1 found
      split at found
      case h_2 => cases found
      case h_1 pred a b =>
        refine ⟨x, cond, t, f, pred, a, b, Program.block_eq_ok.1 hx, term, ne, isOp, ?_⟩
        have atLeast {v : ValueId} {k : Int} (found : (do return (← p.const? v).any (k ≤ ·)) = Except.ok true) :
            ∃ c, p.const? v = .ok (some c) ∧ k ≤ c := by
          obtain ⟨o, const, any⟩ := Checked.bind_eq_ok.1 found
          obtain ⟨c, rfl, bound⟩ := (Option.any_eq_true _ _).1 (Except.ok.inj any)
          exact ⟨c, const, of_decide_eq_true bound⟩
        dsimp only at found
        generalize (if t = dest then pred else pred.negated) = tested at found ⊢
        cases tested with
        | sgt | sge =>
          dsimp only at found
          split at found
          case isFalse => cases found
          case isTrue same =>
            obtain ⟨c, const, bound⟩ := atLeast found
            subst same
            constructor <;> assumption
        | slt | sle =>
          dsimp only at found
          split at found
          case isFalse => cases found
          case isTrue same =>
            obtain ⟨c, const, bound⟩ := atLeast found
            subst same
            constructor <;> assumption
        | eq | ne | ugt | uge | ult | ule => cases found

/-- What a trip count is. -/
structure CountsTo (p : Program) (g : FlowGraph) (d : Dominators) (l : Loop) (enter back : BlockId × ValueId)
    (n : ValueId) (cond a b : ValueId) (pred : Predicate) (t f : BlockId) : Prop where
  latch : ∃ x, p.blocks[back.1]? = some x ∧ x.term = .condBr cond t f
  isTest : p.op? cond = .ok (some (.icmp pred a b))
  operands : a = back.2 ∧ b = n ∨ b = back.2 ∧ a = n
  invariant : ∀ d, p.home? n = some d → l.contains d = false
  leaves : pred = .ne ∧ t = l.header ∨ pred = .eq ∧ f = l.header
  positive : positiveOnEntry p g d enter.1 l.header n = .ok true

theorem exists_of_tripCount? {g : FlowGraph} {d : Dominators} {l : Loop} {iv : ValueId}
    {incoming : List (BlockId × ValueId)} {enter back : BlockId × ValueId}
    (counts : Counts p l iv incoming enter back) (found : tripCount? p g d l iv = .ok (some n)) :
    ∃ cond a b pred t f, CountsTo p g d l enter back n cond a b pred t f := by
  have of_ite {c : Prop} [Decidable c] {x : Checked (Option ValueId)}
      (found : (if c then x else pure none) = .ok (some n)) : c ∧ x = .ok (some n) := by
    split at found
    case isTrue holds => exact ⟨holds, found⟩
    case isFalse => cases found
  unfold tripCount? at found
  rw [counts.isPhi, Checked.ok_bind] at found
  dsimp only at found
  rw [counts.split] at found
  dsimp only at found
  obtain ⟨x, hx, found⟩ := Checked.bind_eq_ok.1 found
  split at found
  case h_2 => cases found
  case h_1 cond t f term =>
    obtain ⟨op, isOp, found⟩ := Checked.bind_eq_ok.1 found
    split at found
    case h_2 => cases found
    case h_1 pred a b =>
      split at found
      case h_2 => cases found
      case h_1 m chosen =>
        obtain ⟨home, blockOf, found⟩ := Checked.bind_eq_ok.1 found
        obtain ⟨test, found⟩ := of_ite found
        obtain ⟨shown, positive, found⟩ := Checked.bind_eq_ok.1 found
        obtain ⟨yes, found⟩ := of_ite found
        cases found
        rw [Bool.and_eq_true, Bool.not_eq_true', Option.any_eq_false] at test
        refine ⟨cond, a, b, pred, t, f, ⟨x, Program.block_eq_ok.1 hx, term⟩, isOp, ?_, fun d same => ?_, ?_,
          yes ▸ positive⟩
        · grind
        · simpa using test.1 d ((Program.home?_of_blockOf? blockOf).symm.trans same)
        · cases pred with
          | ne => exact .inl ⟨rfl, of_decide_eq_true test.2⟩
          | eq => exact .inr ⟨rfl, of_decide_eq_true test.2⟩
          | _ => cases test.2

end LoopForest

theorem LoopForest.CountsTo.exists_leaf {p : Program} {g : FlowGraph} {d : Dominators} {l : Loop}
    {enter back : BlockId × ValueId} {n cond a b : ValueId} {pred : Predicate} {t f : BlockId}
    (countsTo : CountsTo p g d l enter back n cond a b pred t f) : ∃ e, p.leaf n = .ok e := by
  obtain ⟨c, const, -⟩ := Checked.bind_eq_ok.1 countsTo.positive
  exact Program.exists_leaf const

namespace Program
variable {p : Program} {n a b u : ValueId} {pred tested : Predicate}

theorem TestsPositive.operand (tests : p.TestsPositive n tested a b) : a = n ∨ b = n := by
  cases tests <;> simp

theorem ComparedInRange.const_lt (range : p.ComparedInRange n) (isTest : p.op? u = .ok (some (.icmp pred a b)))
    (operand : a = n ∨ b = n) : ∀ v ∈ [a, b], ∀ c, p.const? v = .ok (some c) → c < twoPow 31 := by
  intro v mem c const
  refine range v c const ?_
  rcases operand with rfl | rfl <;> rcases List.mem_pair.1 mem with rfl | rfl
  · exact .inl rfl
  · exact .inr ⟨u, pred, .inl isTest⟩
  · exact .inr ⟨u, pred, .inr isTest⟩
  · exact .inl rfl

end Program

/-- Where the operands of a comparison are in range, one that holds shows that `n` is positive. -/
theorem Program.TestsPositive.positive {p : Program} {ρ : Valuation p} {n a b : ValueId} {pred : Predicate}
    (tests : p.TestsPositive n pred a b) (holds : pred.truth (ρ.read a) (ρ.read b) = true)
    (agree : p.modelWidth a = p.modelWidth b) (word : p.modelWidth n = wordWidth)
    (range : ∀ v ∈ [a, b], ∀ c, p.const? v = .ok (some c) → c < twoPow 31) : 0 < (ρ.read n).signed := by
  have same : (ρ.read a).width = (ρ.read b).width := by rw [ρ.width_read, ρ.width_read, agree]
  cases tests with
  | sgt const bound =>
    have value := ρ.signed_const const (agree ▸ word) bound (range _ (by simp) _ const)
    have above := (Predicate.truth_sgt same).1 holds
    omega
  | sge const bound =>
    have value := ρ.signed_const const (agree ▸ word) (by omega) (range _ (by simp) _ const)
    have above := (Predicate.truth_sge same).1 holds
    omega
  | slt const bound =>
    have value := ρ.signed_const const (agree ▸ word) bound (range _ (by simp) _ const)
    have above := (Predicate.truth_slt same).1 holds
    omega
  | sle const bound =>
    have value := ρ.signed_const const (agree ▸ word) (by omega) (range _ (by simp) _ const)
    have above := (Predicate.truth_sle same).1 holds
    omega

/-- The side of a comparison on which a branch goes on. -/
theorem Takes.truth {p : Program} {δ : ZeroDivision} {ρ : Valuation p} {cond a b : ValueId} {t f dest : BlockId}
    {k : Nat} {pred : Predicate} (takes : Takes p δ ρ.env (.condBr cond t f) k)
    (edge : (Terminator.condBr cond t f).successors[k]? = some dest) (differ : t ≠ f)
    (isTest : p.op? cond = .ok (some (.icmp pred a b))) (computes : ρ.Computes δ cond (.icmp pred a b)) :
    (if t = dest then pred else pred.negated).truth (ρ.read a) (ρ.read b) = true := by
  have value : ρ.read cond = .ofBool (pred.truth (ρ.read a) (ρ.read b)) :=
    (ρ.read_of_op isTest).trans (computes.value_eq _ rfl)
  cases takes with
  | ifTrue leaf set =>
    cases edge
    rw [(ρ.denote_leaf δ leaf).1, value, ne_eq, Vec.bits_ofBool, Bool.not_eq_false] at set
    rwa [if_pos rfl]
  | ifFalse leaf clear =>
    cases edge
    rw [(ρ.denote_leaf δ leaf).1, value, Vec.bits_ofBool] at clear
    rw [if_neg differ, Predicate.truth_negated, clear]
    rfl
  | free none => cases none

/-- What is recorded as the immediate dominator of a block that is reached is the closest one. -/
theorem Dominators.closest_of_idom? {p : Program} {g : FlowGraph} {f : FuncId} {e b up : BlockId}
    (confined : p.Confined) (shows_p : g.Shows p) (he : p.IsEntry f e) (reaches : Reaches p.targets e b)
    (parent : (ofProgram p g).idom? b = some up) : Closest p.targets e up b := by
  have ne : b ≠ e := by
    rintro rfl
    rw [idom?_eq_none confined shows_p fun f' e' he' reaches' =>
      (confined.entry_unique he he' reaches reaches').symm] at parent
    cases parent
  obtain ⟨d, found, closest⟩ := exists_closest confined shows_p he reaches ne
  cases parent.symm.trans found
  exact closest

namespace Trace
variable {p : Program} {δ : ZeroDivision} {f : FuncId} {e b : BlockId} {g : FlowGraph} {n : ValueId}
  {now s t : Passage p} {before earlier : List (Passage p)}

section
variable (ssa : p.Ssa) (he : p.IsEntry f e) (word : p.modelWidth n = wordWidth) (range : p.ComparedInRange n)
include ssa he word range

theorem positive_of_edge (trace : Trace p δ e (t :: s :: earlier))
    (shows_n : LoopForest.edgeShowsPositive p s.block t.block n = .ok true) :
    0 < (s.values.read n).signed ∧ p.Available n s.block := by
  obtain ⟨x, cond, ifTrue, ifFalse, pred, a, b, hx, term, differ, isTest, tests⟩ := LoopForest.exists_test shows_n
  obtain ⟨x', k, hx', takes, edge, -⟩ := trace.arrives
  cases hx.symm.trans hx'
  rw [term] at takes edge
  obtain ⟨home, hhome⟩ := Program.exists_home isTest
  have listed := ssa.listed _ _ hhome
  have notPhi : ∀ incoming, Op.icmp pred a b ≠ .phi incoming := by simp
  have available : p.Available cond s.block := ssa.conditions _ x hx cond (by rw [term]; rfl)
  have computes := trace.previous.computes_of_dominates ssa he listed isTest notPhi
    (available f e home he hhome)
  have holds := takes.truth edge differ isTest computes
  refine ⟨tests.positive holds computes.agree word (range.const_lt isTest tests.operand), fun f' e' d he' hd => ?_⟩
  have used : n ∈ (Op.icmp pred a b).operands := by
    rcases tests.operand with rfl | rfl <;> simp [Op.operands]
  exact ((ssa.operands home cond _ listed isTest notPhi n used).1 f' e' d he' hd).trans
    (available f' e' home he' hhome)

/-- It is positive as well where a dominator has been entered along such an edge only. -/
theorem positive_of_dominator (shows_p : g.Shows p) {steps : Nat} (trace : Trace p δ e (now :: before))
    (shows_n : LoopForest.dominatorShowsPositive p g (.ofProgram p g) n steps b = .ok true)
    (dominates : Dominates p.targets e b now.block) : 0 < (now.values.read n).signed := by
  induction steps generalizing b with
  | zero => cases shows_n
  | succ steps ih =>
    unfold LoopForest.dominatorShowsPositive at shows_n
    have reaches : Reaches p.targets e b := dominates.reaches ⟨_, trace.path⟩
    cases parent : (Dominators.ofProgram p g).idom? b with
    | none =>
      rw [parent] at shows_n
      cases shows_n
    | some up =>
      have closest := Dominators.closest_of_idom? ssa.confined shows_p he reaches parent
      rw [parent] at shows_n
      dsimp only at shows_n
      have above := closest.dominates.trans dominates
      by_cases only : g.prev b = [up]
      · rw [if_pos only] at shows_n
        obtain ⟨shown, hshown, shows_n⟩ := Checked.bind_eq_ok.1 shows_n
        by_cases yes : shown = true
        · subst yes
          obtain ⟨later, t, earlier, split, rfl, last⟩ := exists_last (dominates _ trace.path)
          have head := head?_of_split split
          rw [split] at trace
          obtain ⟨s, rest, rfl, rfl⟩ : ∃ s rest, earlier = s :: rest ∧ s.block = up := by
            cases trace.drop with
            | enter here body => exact absurd here closest.ne_start
            | step _ hx takes edge body =>
              have edge := Program.mem_targets.2 ⟨_, hx, List.mem_of_getElem? edge⟩
              rw [← shows_p.mem_next, ← shows_p.mirror, only, List.mem_singleton] at edge
              exact ⟨_, _, rfl, edge⟩
          obtain ⟨positive, available⟩ := trace.drop.positive_of_edge ssa he word range hshown
          -- The definition of `n` is above the test, so it is not run again after the edge was taken.
          have kept : ∀ r ∈ later ++ [t], p.home? n ≠ some r.block := by
            intro r mem home
            have toSource := available f e r.block he home
            have ne : r.block ≠ t.block := by
              intro same
              rw [same] at toSource
              exact closest.ne (closest.dominates.antisymm toSource reaches)
            rcases List.mem_append.1 mem with mem | mem
            · exact trace.not_revisited head last dominates (toSource.trans closest.dominates) ne r mem rfl
            · exact ne (by rw [List.mem_singleton.1 mem])
          rw [List.append_cons] at trace split
          rwa [Valuation.read_congr (trace.value_eq ssa (head?_of_split split) kept)]
        · rw [if_neg yes] at shows_n
          exact ih shows_n above
      · rw [if_neg only] at shows_n
        exact ih shows_n above

/-- A loop with a trip count is entered from outside where the count is positive. -/
theorem positive_on_entry (shows_p : g.Shows p) (trace : Trace p δ e (t :: s :: earlier))
    (shows_n : LoopForest.positiveOnEntry p g (.ofProgram p g) s.block t.block n = .ok true)
    (kept : p.home? n ≠ some t.block) : 0 < (t.values.read n).signed := by
  obtain ⟨c, const, shows_n⟩ := Checked.bind_eq_ok.1 shows_n
  by_cases given : c.any (0 < ·) = true
  · obtain ⟨c, rfl, positive⟩ := (Option.any_eq_true _ _).1 given
    have positive := of_decide_eq_true positive
    rw [t.values.signed_const const word positive.le (range n c const (.inl rfl))]
    exact positive
  rw [if_neg given] at shows_n
  obtain ⟨shown, hshown, shows_n⟩ := Checked.bind_eq_ok.1 shows_n
  have same : t.values.read n = s.values.read n :=
    Valuation.read_congr (trace.value_eq_previous ssa kept)
  rw [same]
  by_cases yes : shown = true
  · exact (trace.positive_of_edge ssa he word range (yes ▸ hshown)).1
  · rw [if_neg yes] at shows_n
    exact trace.previous.positive_of_dominator ssa he word range shows_p shows_n (.refl _)

end

end Trace

theorem signed_succ {w : Nat} {x y : BitVec w} (word : w = 32) (low : 0 ≤ x.toInt) (below : x.toInt < y.toInt)
    (ne : x + 1 ≠ y) : 0 ≤ (x + 1).toInt ∧ (x + 1).toInt < y.toInt := by
  subst word
  have high : y.toInt < 2147483648 := BitVec.toInt_lt
  have step : (x + 1).toInt = x.toInt + 1 := by
    rw [BitVec.toInt_add, (by decide : (1 : BitVec 32).toInt = 1)]
    exact Int.bmod_eq_of_le (by omega) (by omega)
  have other : x.toInt + 1 ≠ y.toInt := fun same => ne (BitVec.eq_of_toInt_eq (step.trans same))
  omega

namespace Trace
variable {p : Program} {δ : ZeroDivision} {e : BlockId} {g : FlowGraph} {l : Loop} {iv n : ValueId}
  {t : Passage p} {before : List (Passage p)} {incoming : List (BlockId × ValueId)} {enter back : BlockId × ValueId}
  {cond a b : ValueId} {pred : Predicate} {ifTrue ifFalse : BlockId}

/-- The back edge is taken only where the next value of the induction variable is not the trip count. -/
theorem next_ne_tripCount {d : Dominators} {f : FuncId} {s : Passage p} {earlier : List (Passage p)} (ssa : p.Ssa)
    (he : p.IsEntry f e) (countsTo : LoopForest.CountsTo p g d l enter back n cond a b pred ifTrue ifFalse)
    (differ : ifTrue ≠ ifFalse) (trace : Trace p δ e (t :: s :: earlier)) (latch : s.block = back.1)
    (header : t.block = l.header) : s.values.read back.2 ≠ s.values.read n := by
  obtain ⟨x, hx, term⟩ := countsTo.latch
  rw [← latch] at hx
  obtain ⟨x', k, hx', takes, edge, -⟩ := trace.arrives
  cases hx.symm.trans hx'
  rw [term] at takes edge
  rw [header] at edge
  obtain ⟨home, hhome⟩ := Program.exists_home countsTo.isTest
  have available := ssa.conditions _ x hx cond (by rw [term]; rfl) f e home he hhome
  have computes := trace.previous.computes_of_dominates ssa he (ssa.listed _ _ hhome) countsTo.isTest
    (by simp) available
  have holds := takes.truth edge differ countsTo.isTest computes
  have differs : Predicate.ne.truth (s.values.read a) (s.values.read b) = true := by
    rcases countsTo.leaves with ⟨rfl, rfl⟩ | ⟨rfl, rfl⟩
    · rwa [if_pos rfl] at holds
    · rwa [if_neg differ] at holds
  have ne : s.values.read a ≠ s.values.read b := by
    intro same
    rw [same] at differs
    simp [Predicate.truth, Predicate.test] at differs
  rcases countsTo.operands with ⟨rfl, rfl⟩ | ⟨rfl, rfl⟩
  · exact ne
  · exact ne.symm

/-- In a loop with a trip count the induction variable is between 0 and the count. -/
theorem iv_lt_tripCount (ssa : p.Ssa) (natural : IsNatural p e l) (counts : Counts p l iv incoming enter back)
    (shows_p : g.Shows p)
    (countsTo : LoopForest.CountsTo p g (.ofProgram p g) l enter back n cond a b pred ifTrue ifFalse)
    (differ : ifTrue ≠ ifFalse) (wordIv : p.modelWidth iv = wordWidth) (wordN : p.modelWidth n = wordWidth)
    (range : p.ComparedInRange n) (trace : Trace p δ e (t :: before)) (inside : t.block ∈ l.blocks) :
    0 ≤ (t.values.read iv).signed ∧ (t.values.read iv).signed < (t.values.read n).signed := by
  have notIn {d : BlockId} (mem : d ∈ l.blocks) : p.home? n ≠ some d := by
    intro home
    have out := countsTo.invariant d home
    rw [Loop.contains, List.contains_eq_mem, decide_eq_false_iff_not] at out
    exact out mem
  -- The induction follows the run; each step is one of the ways into a block of the loop.
  induction before generalizing t with
  | nil =>
    obtain ⟨s, earlier, none, -⟩ := trace.loop_cases ssa natural counts inside
    cases none
  | cons s earlier ih =>
    obtain ⟨s', earlier', same, cases⟩ := trace.loop_cases ssa natural counts inside
    cases same
    have kept : t.values.read n = s.values.read n :=
      Valuation.read_congr (trace.value_eq_previous ssa (notIn inside))
    have previous := trace.previous
    rcases cases with ⟨header, source, -, value⟩ | ⟨header, source, within, value⟩ | ⟨-, within, value⟩
    · have positive := trace.positive_on_entry ssa natural.entry wordN range shows_p
        (by rw [source, header]; exact countsTo.positive) (notIn inside)
      have zero : (t.values.read iv).signed = 0 := by
        rw [t.values.read_of_op counts.isPhi, value, s.values.read_const counts.zero, Vec.signed]
        simp
      omega
    · obtain ⟨x, now, next⟩ := previous.read_back ssa natural.entry counts source
      obtain ⟨low, below⟩ := ih previous within
      obtain ⟨y, bound⟩ : ∃ y : BitVec (p.modelWidth iv), s.values.read n = ⟨_, y⟩ :=
        Vec.exists_bits (by rw [s.values.width_read, wordN, wordIv])
      have ne : x + 1 ≠ y := by
        rintro rfl
        exact trace.next_ne_tripCount ssa natural.entry countsTo differ source header (next.trans bound.symm)
      rw [t.values.read_of_op counts.isPhi, value, next, kept, bound]
      rw [now] at low below
      rw [bound] at below
      exact signed_succ wordIv low below ne
    · have same : t.values.read iv = s.values.read iv := Valuation.read_congr value
      rw [same, kept]
      exact ih previous within

end Trace

/-! ### The bound -/

namespace Subject
variable {s : Subject} {iv n : ValueId} {cs : List Clause} {δ : ZeroDivision}

/-- The closed bound says that the induction variable is between 0 and the trip count. -/
theorem closedBound_iff (found : s.closedBound iv n = .ok cs) :
    s.program.modelWidth iv = wordWidth ∧ s.program.modelWidth n = wordWidth ∧
      ∀ ρ : Valuation s.program, (∀ c ∈ cs, c.denote δ ρ.env = true) ↔
        0 ≤ (ρ.read iv).signed ∧ (ρ.read iv).signed < (ρ.read n).signed := by
  obtain ⟨i, hi, found⟩ := Checked.bind_eq_ok.1 found
  obtain ⟨low, hlow, found⟩ := Checked.bind_eq_ok.1 found
  obtain ⟨m, hm, found⟩ := Checked.bind_eq_ok.1 found
  obtain ⟨high, hhigh, ⟨⟩⟩ := Checked.bind_eq_ok.1 found
  obtain ⟨word, rfl⟩ := Clause.compare_eq_ok.1 hlow
  obtain ⟨same, rfl⟩ := Clause.compare_eq_ok.1 hhigh
  rw [Program.width_leaf hi] at word same
  rw [Program.width_leaf hm] at same
  refine ⟨word, same.symm.trans word, fun ρ => ?_⟩
  have zero : (Expr.ofInt wordWidth 0).denote δ ρ.env = ⟨wordWidth, 0⟩ := Literal.vec_ofInt (by decide) 0
  have above := Predicate.truth_sge (x := ρ.read iv) (y := ⟨wordWidth, 0⟩) ((ρ.width_read iv).trans word)
  have below := Predicate.truth_slt (x := ρ.read iv) (y := ρ.read n)
    ((ρ.width_read iv).trans (same.trans (ρ.width_read n).symm))
  simp only [List.forall_mem_cons, Clause.denote, (ρ.denote_leaf δ hi).1, (ρ.denote_leaf δ hm).1, zero, above, below]
  simp [Vec.signed]

theorem returns_closedBound (hi : ∃ e, s.program.leaf iv = .ok e) (hn : ∃ e, s.program.leaf n = .ok e)
    (wordIv : s.program.modelWidth iv = wordWidth) (wordN : s.program.modelWidth n = wordWidth) :
    ∃ low high, s.closedBound iv n = .ok [low, high] := by
  obtain ⟨i, hi⟩ := hi
  obtain ⟨m, hm⟩ := hn
  have widthI : i.width = wordWidth := (Program.width_leaf hi).trans wordIv
  have widthM : m.width = wordWidth := (Program.width_leaf hm).trans wordN
  have low : Clause.compare .sge i (.ofInt wordWidth 0) = .ok (.atom .sge i (.ofInt wordWidth 0)) :=
    Clause.compare_eq_ok.2 ⟨widthI, rfl⟩
  have high : Clause.compare .slt i m = .ok (.atom .slt i m) :=
    Clause.compare_eq_ok.2 ⟨widthI.trans widthM.symm, rfl⟩
  refine ⟨.atom .sge i (.ofInt wordWidth 0), .atom .slt i m, ?_⟩
  rw [closedBound, hi, Checked.ok_bind, low, Checked.ok_bind, hm, Checked.ok_bind, high]
  rfl

theorem loopBound_eq_closedBound {l : Loop} {incoming : List (BlockId × ValueId)} {enter back : BlockId × ValueId}
    (counts : Counts s.program l iv incoming enter back) (induction : l.induction = some iv)
    (trip : l.tripCount = some n) : s.loopBound l = do return some (← s.closedBound iv n) := by
  unfold loopBound
  rw [induction]
  dsimp only
  rw [counts.isPhi, Checked.ok_bind]
  dsimp only
  rw [if_neg counts.two_edges, trip]

/-- Take a program in static single assignment form and a loop of it with a trip count `n`, whose latch does not
lead to the header both ways, and let the constants among `n` and what `n` is compared with be less than `2 ^ 31`.
Then the loop has an induction variable; if both are words, its bound consists of two clauses; and in every run
of the function both are true whenever control is in the loop: the induction variable is at least 0 and less
than `n`. -/
theorem loopBound_holds {p : Program} {marked : List BlockId} {survey : Survey} {i : LoopId} {l : Loop} (ssa : p.Ssa)
    (made : Survey.ofProgram p marked = .ok survey) (hl : survey.loops[i]? = some l) (trip : l.tripCount = some n)
    (leaves : ∀ a x cond, l.contains a = true → p.blocks[a]? = some x → x.term ≠ .condBr cond l.header l.header)
    (range : p.ComparedInRange n) :
    ∃ iv, l.induction = some iv ∧
      (p.modelWidth iv = wordWidth → p.modelWidth n = wordWidth →
        ∃ low high, Subject.loopBound { program := p, survey } l = .ok (some [low, high])) ∧
      ∀ cs, Subject.loopBound { program := p, survey } l = .ok (some cs) →
        ∀ (e : BlockId) (now : Passage p) (before : List (Passage p)), p.IsEntry l.func e →
          Trace p δ e (now :: before) → l.contains now.block = true →
          0 ≤ (now.values.read iv).signed ∧ (now.values.read iv).signed < (now.values.read n).signed ∧
            ∀ c ∈ cs, c.denote δ now.values.env = true := by
  obtain ⟨e, natural⟩ := Survey.exists_natural ssa.regular ssa.confined made hl
  have annotated := Survey.annotated made hl
  have shows_p := Survey.shows_graph ssa.confined made
  obtain ⟨iv, induction⟩ : ∃ iv, l.induction = some iv := by
    cases induction : l.induction with
    | none => cases (annotated.uncounted induction).symm.trans trip
    | some iv => exact ⟨iv, rfl⟩
  obtain ⟨found, counted⟩ := annotated.counted iv induction
  obtain ⟨incoming, enter, back, counts⟩ := LoopForest.exists_counts found
  rw [trip] at counted
  obtain ⟨cond, a, b, pred, t, f, countsTo⟩ := LoopForest.exists_of_tripCount? counts counted
  have bound := loopBound_eq_closedBound (s := { program := p, survey }) counts induction trip
  refine ⟨iv, induction, fun wordIv wordN => ?_, fun cs found e' now before he' trace inside => ?_⟩
  · obtain ⟨low, high, closed⟩ := returns_closedBound (s := { program := p, survey }) counts.exists_leaf
      countsTo.exists_leaf wordIv wordN
    exact ⟨low, high, by rw [bound, closed]; rfl⟩
  · obtain rfl := natural.entry.unique he'
    rw [bound] at found
    obtain ⟨closed, hclosed, ⟨⟩⟩ := Checked.bind_eq_ok.1 found
    obtain ⟨wordIv, wordN, holds⟩ := closedBound_iff (δ := δ) hclosed
    have differ : t ≠ f := by
      rintro rfl
      obtain ⟨x, hx, term⟩ := countsTo.latch
      obtain rfl : t = l.header := by
        rcases countsTo.leaves with ⟨-, same⟩ | ⟨-, same⟩ <;> exact same
      exact leaves _ x cond counts.edges.2.2 hx term
    have bounds := trace.iv_lt_tripCount ssa natural counts shows_p countsTo differ wordIv wordN range
      (List.contains_iff_mem.1 inside)
    exact ⟨bounds.1, bounds.2, (holds now.values).2 bounds⟩

end Subject

theorem Program.ComparedInRange.of_values {p : Program} {n : ValueId}
    (small : ∀ x ∈ p.values, ∀ c ∈ x.kind.const?, c < twoPow 31) : p.ComparedInRange n := by
  intro v c const _
  obtain ⟨k, kind, named⟩ := Checked.bind_eq_ok.1 const
  obtain ⟨x, hx, rfl⟩ := Option.map_eq_some_iff.1 (Program.kind_eq_ok.1 kind)
  exact small x (Array.mem_of_getElem? hx) c (Except.ok.inj named)

def Valuation.uniform (p : Program) (n : Nat) : Valuation p where
  value v := ⟨p.modelWidth v, .ofNat _ n⟩
  width_value _ := rfl

namespace Program

/-- A loop that counts up to the parameter, which is tested in front of it. -/
def tallying : Program where
  values := #[
    { ty := .int 32, kind := .param 0 0 },
    { ty := .int 32, kind := .const 0 },
    { ty := .int 32, kind := .const 1 },
    { ty := .int 1, kind := .inst 0 (.icmp .sgt 0 1) },
    { ty := .int 32, kind := .inst 1 (.phi [(0, 1), (1, 5)]) },
    { ty := .int 32, kind := .inst 1 (.binary .add 4 2) },
    { ty := .int 1, kind := .inst 1 (.icmp .ne 5 0) }]
  blocks := #[
    { func := 0, name := "entry", insts := [3], term := .condBr 3 1 2 },
    { func := 0, name := "loop", insts := [4, 5, 6], term := .condBr 6 1 2 },
    { func := 0, name := "exit", term := .ret none }]
  functions := #[{ name := "main", params := [0], ret := .void, blocks := [0, 1, 2] }]

end Program

namespace Subject

theorem loopBound_holds_tallying :
    Program.tallying.Ssa ∧ ∃ survey l low high, Survey.ofProgram .tallying [] = .ok survey ∧
      survey.loops[0]? = some l ∧ l.tripCount = some 0 ∧ Program.tallying.ComparedInRange 0 ∧
      (∀ a x cond, l.contains a = true → Program.tallying.blocks[a]? = some x →
        x.term ≠ .condBr cond l.header l.header) ∧
      loopBound { program := .tallying, survey } l = .ok (some [low, high]) ∧
      ∃ (δ : ZeroDivision) (now : Passage .tallying) (before : List (Passage .tallying)),
        Trace .tallying δ 0 (now :: before) ∧ l.contains now.block = true ∧ now.values.read 4 = ⟨32, 1⟩ ∧
        low.denote δ now.values.env = true ∧ high.denote δ now.values.env = true := by
  have ssa : Program.tallying.Ssa := Program.ssa_of_test (by decide) (by decide) (by cbv)
  have found : (Survey.ofProgram .tallying []).toOption.map (fun survey => survey.loops[0]?.map fun l =>
      (l.func, l.header, l.blocks, l.induction, l.tripCount)) = some (some (0, 1, [1], some 4, some 0)) := by cbv
  obtain ⟨survey, l, made, hl, same⟩ := Survey.exists_loop_of_map_eq (fun _ l =>
    (l.func, l.header, l.blocks, l.induction, l.tripCount)) found
  simp only [Prod.mk.injEq] at same
  obtain ⟨func, header, blocks, induction, trip⟩ := same
  have run : (Program.tallying.run? (fun _ _ x => x) 0 (.uniform _ 3) 2).map (fun all => all.head?.map fun now =>
      (now.block, now.values.read 4)) = some (some (1, ⟨32, 1⟩)) := rfl
  obtain ⟨now, before, trace, view⟩ := Trace.exists_of_run? (fun now _ =>
    (now.block, now.values.read 4)) run
  simp only [Prod.mk.injEq] at view
  obtain ⟨block, read⟩ := view
  have range : Program.tallying.ComparedInRange 0 := .of_values (by decide +kernel)
  have leaves : ∀ a x cond, l.contains a = true → Program.tallying.blocks[a]? = some x →
      x.term ≠ .condBr cond l.header l.header := by
    intro a x cond inside hx
    rw [Loop.contains, List.contains_iff_mem, blocks, List.mem_singleton] at inside
    subst inside
    obtain rfl := Option.some.inj hx
    rw [header]
    exact fun same => by cases same
  have inside : l.contains now.block = true := by
    rw [Loop.contains, blocks, block]
    rfl
  obtain ⟨iv, hiv, bound, holds⟩ := loopBound_holds (δ := fun _ _ x => x) ssa made hl trip leaves range
  cases induction.symm.trans hiv
  obtain ⟨low, high, bound⟩ := bound rfl rfl
  obtain ⟨-, -, both⟩ := holds _ bound 0 now before (by rw [func]; exact ⟨_, rfl, rfl⟩) trace inside
  exact ⟨ssa, survey, l, low, high, made, hl, trip, range, leaves, bound, _, now, before, trace, inside, read,
    both low (by simp), both high (by simp)⟩

end Subject

namespace Program

def spinning : Program where
  values := #[
    { ty := .int 32, kind := .const 0 },
    { ty := .int 32, kind := .const 1 },
    { ty := .int 32, kind := .inst 1 (.phi [(0, 0), (1, 3)]) },
    { ty := .int 32, kind := .inst 1 (.binary .add 2 1) },
    { ty := .int 1, kind := .inst 1 (.icmp .ne 3 1) }]
  blocks := #[
    { func := 0, name := "entry", term := .br 1 },
    { func := 0, name := "loop", insts := [2, 3, 4], term := .condBr 4 1 1 }]
  functions := #[{ name := "main", params := [], ret := .void, blocks := [0, 1] }]

def overflowing : Program where
  values := #[
    { ty := .int 64, kind := .const 0 },
    { ty := .int 64, kind := .const 1 },
    { ty := .int 64, kind := .const 4294967296 },
    { ty := .int 64, kind := .inst 1 (.phi [(0, 0), (1, 4)]) },
    { ty := .int 64, kind := .inst 1 (.binary .add 3 1) },
    { ty := .int 1, kind := .inst 1 (.icmp .ne 4 2) }]
  blocks := #[
    { func := 0, name := "entry", term := .br 1 },
    { func := 0, name := "loop", insts := [3, 4, 5], term := .condBr 5 1 2 },
    { func := 0, name := "exit", term := .ret none }]
  functions := #[{ name := "main", params := [], ret := .void, blocks := [0, 1, 2] }]

/-- In some run the induction variable of a loop is not below the trip count. -/
structure OutrunsBound (p : Program) : Prop where
  ssa : p.Ssa
  outruns : ∃ (survey : Survey) (l : Loop) (n : ValueId) (cs : List Clause) (δ : ZeroDivision) (e : BlockId)
    (now : Passage p) (before : List (Passage p)),
    Survey.ofProgram p [] = .ok survey ∧ survey.loops[0]? = some l ∧ l.tripCount = some n ∧
      Subject.loopBound { program := p, survey } l = .ok (some cs) ∧ p.IsEntry l.func e ∧
      Trace p δ e (now :: before) ∧ l.contains now.block = true ∧ ∃ c ∈ cs, c.denote δ now.values.env = false

theorem outrunsBound_of_run {p : Program} (iv n : ValueId) (ρ : Valuation p) (steps : Nat) (ssa : p.Ssa)
    (entry : p.IsEntry 0 0)
    (found : (Survey.ofProgram p []).toOption.map (fun survey => survey.loops[0]?.map fun l =>
      (l.func, l.blocks, l.induction, l.tripCount)) = some (some (0, [1], some iv, some n)))
    (run : (p.run? (fun _ _ x => x) 0 ρ steps).map (fun all => all.head?.map fun now =>
      (now.block, decide ((now.values.read iv).signed < (now.values.read n).signed))) = some (some (1, false)))
    (words : p.modelWidth iv = wordWidth ∧ p.modelWidth n = wordWidth) : p.OutrunsBound := by
  obtain ⟨survey, l, made, hl, same⟩ := Survey.exists_loop_of_map_eq (fun _ l =>
    (l.func, l.blocks, l.induction, l.tripCount)) found
  obtain ⟨now, before, trace, view⟩ := Trace.exists_of_run? (fun now _ =>
    (now.block, decide ((now.values.read iv).signed < (now.values.read n).signed))) run
  simp only [Prod.mk.injEq] at same view
  obtain ⟨func, blocks, induction, trip⟩ := same
  obtain ⟨block, beyond⟩ := view
  obtain ⟨found, counted⟩ := (Survey.annotated made hl).counted iv induction
  obtain ⟨incoming, enter, back, counts⟩ := LoopForest.exists_counts found
  obtain ⟨cond, a, b, pred, t, f, countsTo⟩ :=
    LoopForest.exists_of_tripCount? counts (counted.trans (congrArg _ trip))
  obtain ⟨low, high, closed⟩ := Subject.returns_closedBound (s := { program := p, survey }) counts.exists_leaf
    countsTo.exists_leaf words.1 words.2
  have bound := Subject.loopBound_eq_closedBound (s := { program := p, survey }) counts induction trip
  rw [closed] at bound
  refine ⟨ssa, survey, l, n, _, _, 0, now, before, made, hl, trip, bound, func ▸ entry, trace, ?_, ?_⟩
  · rw [Loop.contains, blocks, block]
    rfl
  · by_contra all
    simp only [not_exists, not_and, Bool.not_eq_false] at all
    have below := (((Subject.closedBound_iff closed).2.2 now.values).1 all).2
    exact of_decide_eq_false beyond below

end Program

namespace Subject

/-- A latch that leads back both ways, and a trip count that a word cannot hold. -/
theorem loopBound_outrun : Program.spinning.OutrunsBound ∧ Program.overflowing.OutrunsBound := by
  have spinning : Program.spinning.Ssa := Program.ssa_of_test (by decide) (by decide) (by cbv)
  have overflowing : Program.overflowing.Ssa := Program.ssa_of_test (by decide) (by decide) (by cbv)
  exact ⟨Program.outrunsBound_of_run 2 1 default 2 spinning ⟨_, rfl, rfl⟩ (by cbv) rfl ⟨rfl, rfl⟩,
    Program.outrunsBound_of_run 3 2 default 1 overflowing ⟨_, rfl, rfl⟩ (by cbv) rfl ⟨rfl, rfl⟩⟩

end Subject
end SsaFacts
