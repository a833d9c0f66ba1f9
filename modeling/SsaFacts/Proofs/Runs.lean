import SsaFacts.Proofs.Operations
import SsaFacts.Proofs.SsaForm

/-! Runs of a function in static single assignment form. Between two visits to a block nothing changes that the
block depends on, so where a block dominates the current one, its instructions still have the values that
they compute from the present values of their operands. -/
namespace SsaFacts

/-- Of two different elements of a list without repetitions one comes first. -/
theorem not_sublist_swap {α : Type} {l : List α} {a b : α} (nodup : l.Nodup) (first : [a, b].Sublist l) :
    ¬[b, a].Sublist l := by
  induction l with
  | nil => cases first
  | cons x l ih =>
    obtain ⟨fresh, nodup⟩ := List.nodup_cons.1 nodup
    intro second
    cases first with
    | cons _ first =>
      cases second with
      | cons _ second => exact ih nodup first second
      | cons_cons _ _ => exact fresh (first.subset (by simp))
    | cons_cons _ first =>
      cases second with
      | cons _ second => exact fresh (second.subset (by simp))
      | cons_cons _ _ => exact fresh (first.subset (by simp))

/-! ### Running a block -/

def Op.Agree (p : Program) : Op → Prop
  | .binary _ l r | .icmp _ l r => p.modelWidth l = p.modelWidth r
  | _ => True

namespace Valuation
variable {p : Program} {ρ : Valuation p} {u v : ValueId} {x : Vec}

/-- The values after `v` has been computed. -/
def set (ρ : Valuation p) (v : ValueId) (x : Vec) (width : x.width = p.modelWidth v) : Valuation p where
  value u := if u = v then x else ρ.value u
  width_value u := by
    split
    case isTrue same => rw [width, same]
    case isFalse => exact ρ.width_value u

@[simp] theorem value_set_self (width : x.width = p.modelWidth v) : (ρ.set v x width).value v = x := if_pos rfl

theorem read_of_op {op : Op} (isOp : p.op? v = .ok (some op)) : ρ.read v = ρ.value v := by
  obtain ⟨b, home⟩ := Program.exists_home isOp
  exact ρ.read_inst home

theorem value_set_of_ne (width : x.width = p.modelWidth v) (ne : u ≠ v) :
    (ρ.set v x width).value u = ρ.value u := if_neg ne

/-- An instruction has the value that it computes. -/
structure Computes (ρ : Valuation p) (δ : ZeroDivision) (v : ValueId) (op : Op) : Prop where
  agree : op.Agree p
  value_eq : ∀ y, op.result? δ ρ (p.modelWidth v) = some y → ρ.value v = y

theorem Computes.congr {σ : Valuation p} {δ : ZeroDivision} {op : Op} (computes : ρ.Computes δ v op)
    (same : ρ.value v = σ.value v) (operands : ∀ u ∈ op.operands, ρ.read u = σ.read u) : σ.Computes δ v op := by
  refine ⟨computes.agree, fun y result => ?_⟩
  rw [← same]
  exact computes.value_eq y ((Op.result?_congr operands).trans result)

end Valuation

/-- What the instruction `v` may become in a block that is entered from `source` with the values `before`,
where the instructions in front of it have led to the values `ρ`. A φ reads what the edge carries. -/
inductive Yields {p : Program} (δ : ZeroDivision) (source : Option BlockId) (before ρ : Valuation p) (v : ValueId)
    (x : Vec) (width : x.width = p.modelWidth v) : Prop
  | phi {incoming : List (BlockId × ValueId)} {a : BlockId} {u : ValueId}
      (isOp : p.op? v = .ok (some (.phi incoming))) (entered : source = some a) (edge : (a, u) ∈ incoming)
      (value : x = before.read u)
  | other {op : Op} (isOp : p.op? v = .ok (some op)) (notPhi : ∀ incoming, op ≠ .phi incoming)
      (agree : op.Agree p) (value : ∀ y, op.result? δ ρ (p.modelWidth v) = some y → x = y)

/-- The instructions of a block run one after the other. -/
inductive Carries {p : Program} (δ : ZeroDivision) (source : Option BlockId) (before : Valuation p) :
    List ValueId → Valuation p → Valuation p → Prop
  | done {ρ : Valuation p} : Carries δ source before [] ρ ρ
  | step {v : ValueId} {vs : List ValueId} {ρ ρ' : Valuation p} {x : Vec} {width : x.width = p.modelWidth v}
      (yields : Yields δ source before ρ v x width) (rest : Carries δ source before vs (ρ.set v x width) ρ') :
      Carries δ source before (v :: vs) ρ ρ'

namespace Carries
variable {p : Program} {δ : ZeroDivision} {source : Option BlockId} {before ρ ρ' : Valuation p} {vs : List ValueId}
  {u v : ValueId}

theorem value_eq (carries : Carries δ source before vs ρ ρ') (out : u ∉ vs) : ρ'.value u = ρ.value u := by
  induction carries with
  | done => rfl
  | step yields rest ih =>
    rw [List.mem_cons, not_or] at out
    rw [ih out.2, Valuation.value_set_of_ne _ out.1]

theorem yields (carries : Carries δ source before vs ρ ρ') (nodup : vs.Nodup) (mem : v ∈ vs) :
    ∃ mid width, Yields δ source before mid v (ρ'.value v) width ∧
      ∀ u, u ≠ v → ¬[v, u].Sublist vs → ρ'.value u = mid.value u := by
  induction carries with
  | done => cases mem
  | @step w vs ρ ρ' x width yields rest ih =>
    obtain ⟨fresh, nodup⟩ := List.nodup_cons.1 nodup
    rcases List.mem_cons.1 mem with rfl | mem
    · have same : ρ'.value v = x := by rw [rest.value_eq fresh, Valuation.value_set_self]
      refine ⟨ρ, same ▸ width, by simpa only [same] using yields, fun u ne early => ?_⟩
      have out : u ∉ vs := fun late => early ((List.singleton_sublist.2 late).cons_cons v)
      rw [rest.value_eq out, Valuation.value_set_of_ne _ ne]
    · obtain ⟨mid, width', yields', kept⟩ := ih nodup mem
      exact ⟨mid, width', yields', fun u ne early => kept u ne fun late => early (late.cons w)⟩

end Carries

/-! ### Runs -/

/-- A visit to a block, with the values that the program's values have after it. -/
structure Passage (p : Program) where
  block : BlockId
  values : Valuation p

/-- A run from an entry, the current block first. -/
inductive Trace (p : Program) (δ : ZeroDivision) (e : BlockId) : List (Passage p) → Prop
  | enter {s : Passage p} {ρ : Valuation p} (here : s.block = e)
      (body : Carries δ none ρ (p.instsOf s.block) ρ s.values) : Trace p δ e [s]
  | step {s t : Passage p} {before : List (Passage p)} {x : Block} {k : Nat} (trace : Trace p δ e (s :: before))
      (hx : p.blocks[s.block]? = some x) (takes : Takes p δ s.values.env x.term k)
      (edge : x.term.successors[k]? = some t.block)
      (body : Carries δ (some s.block) s.values (p.instsOf t.block) s.values t.values) :
      Trace p δ e (t :: s :: before)

namespace Trace
variable {p : Program} {δ : ZeroDivision} {e b d : BlockId} {now s t : Passage p}
  {before earlier later : List (Passage p)} {u v : ValueId} {op : Op}

/-- A run follows the edges of the program. -/
theorem path (trace : Trace p δ e (now :: before)) :
    Path p.targets e ((now :: before).map (·.block)) now.block := by
  generalize same : now :: before = all at trace
  induction trace generalizing now before with
  | enter here body =>
    cases same
    rw [List.map_singleton, here]
    exact .refl
  | step trace hx takes edge body ih =>
    cases same
    exact (ih rfl).step (Program.mem_targets.2 ⟨_, hx, List.mem_of_getElem? edge⟩)

/-- What has been run is a run. -/
theorem previous (trace : Trace p δ e (t :: s :: earlier)) : Trace p δ e (s :: earlier) := by
  cases trace with
  | step trace => exact trace

theorem drop (trace : Trace p δ e (later ++ s :: earlier)) : Trace p δ e (s :: earlier) := by
  induction later with
  | nil => exact trace
  | cons t later ih =>
    obtain ⟨u, rest, same⟩ := List.exists_cons_of_ne_nil (List.append_ne_nil_of_right_ne_nil later
      (List.cons_ne_nil s earlier))
    rw [List.cons_append, same] at trace
    rw [same] at ih
    exact ih trace.previous

theorem path_between {between : List (Passage p)} (trace : Trace p δ e (later ++ (between ++ s :: earlier)))
    (head : (between ++ [s]).head? = some t) : Path p.targets s.block (between.map (·.block) ++ [s.block]) t.block := by
  obtain ⟨rest, same⟩ : ∃ rest, between ++ s :: earlier = t :: rest := by
    cases between <;> cases head <;> exact ⟨_, rfl⟩
  rw [same] at trace
  have path := trace.drop.path
  rw [← same, List.map_append, List.map_cons] at path
  exact path.cut.2

/-- The current block was entered from the one before, or it is where the run starts. -/
theorem arrives (trace : Trace p δ e (t :: s :: earlier)) :
    ∃ x k, p.blocks[s.block]? = some x ∧ Takes p δ s.values.env x.term k ∧
      x.term.successors[k]? = some t.block ∧
      Carries δ (some s.block) s.values (p.instsOf t.block) s.values t.values := by
  cases trace with
  | step trace hx takes edge body => exact ⟨_, _, hx, takes, edge, body⟩

theorem carries (trace : Trace p δ e (now :: before)) :
    ∃ source ρ, Carries δ source ρ (p.instsOf now.block) ρ now.values := by
  cases trace with
  | enter here body => exact ⟨_, _, body⟩
  | step trace hx takes edge body => exact ⟨_, _, body⟩

section
variable (ssa : p.Ssa)
include ssa

theorem value_eq_previous (trace : Trace p δ e (t :: s :: earlier)) (kept : p.home? u ≠ some t.block) :
    t.values.value u = s.values.value u := by
  obtain ⟨x, k, -, -, -, body⟩ := trace.arrives
  exact body.value_eq fun mem => kept (ssa.regular.home?_eq mem)

theorem value_eq (trace : Trace p δ e (later ++ s :: earlier)) (head : (later ++ [s]).head? = some now)
    (kept : ∀ t ∈ later, p.home? u ≠ some t.block) : now.values.value u = s.values.value u := by
  induction later generalizing now with
  | nil =>
    cases head
    rfl
  | cons t later ih =>
    cases head
    obtain ⟨first, others⟩ := List.forall_mem_cons.1 kept
    obtain ⟨r, hr⟩ : ∃ r, (later ++ [s]).head? = some r := by
      cases later <;> exact ⟨_, rfl⟩
    obtain ⟨rest, same⟩ : ∃ rest, later ++ s :: earlier = r :: rest := by
      cases later <;> cases hr <;> exact ⟨_, rfl⟩
    rw [List.cons_append, same] at trace
    rw [trace.value_eq_previous ssa first]
    exact ih (same ▸ trace.previous) hr others

/-- After a visit to a block its instructions have the values that they compute. -/
theorem computes (trace : Trace p δ e (s :: earlier)) (mem : v ∈ p.instsOf s.block)
    (isOp : p.op? v = .ok (some op)) (notPhi : ∀ incoming, op ≠ .phi incoming) : s.values.Computes δ v op := by
  obtain ⟨source, ρ, body⟩ := trace.carries
  have nodup : (p.instsOf s.block).Nodup := by
    obtain ⟨x, hx, -⟩ := Program.mem_instsOf.1 mem
    exact Program.instsOf_eq hx ▸ ssa.regular.distinct _ x hx
  obtain ⟨mid, width, yields, kept⟩ := body.yields nodup mem
  cases yields with
  | phi isOp' =>
    cases isOp.symm.trans isOp'
    exact absurd rfl (notPhi _)
  | other isOp' _ agree value =>
    cases isOp.symm.trans isOp'
    refine ⟨agree, fun y result => value y ?_⟩
    rw [← result]
    refine Op.result?_congr fun u used => (Valuation.read_congr ?_).symm
    have before (late : u ∈ p.instsOf s.block) : [u, v].Sublist (p.instsOf s.block) :=
      (ssa.operands _ v op mem isOp notPhi u used).2 (ssa.regular.home?_eq late)
    refine kept u ?_ fun late => ?_
    · rintro rfl
      exact List.nodup_iff_sublist.1 nodup u (before mem)
    · exact not_sublist_swap nodup (before (late.subset (by simp))) late

/-- They keep them as long as neither they nor their operands are computed again. -/
theorem computes_kept (trace : Trace p δ e (later ++ s :: earlier)) (head : (later ++ [s]).head? = some now)
    (mem : v ∈ p.instsOf s.block) (isOp : p.op? v = .ok (some op)) (notPhi : ∀ incoming, op ≠ .phi incoming)
    (kept : ∀ u ∈ v :: op.operands, ∀ t ∈ later, p.home? u ≠ some t.block) : now.values.Computes δ v op := by
  obtain ⟨result, operands⟩ := List.forall_mem_cons.1 kept
  refine (trace.drop.computes ssa mem isOp notPhi).congr (trace.value_eq ssa head result).symm fun u used => ?_
  exact (Valuation.read_congr (trace.value_eq ssa head (operands u used))).symm

theorem reads {incoming : List (BlockId × ValueId)} (trace : Trace p δ e (t :: before))
    (mem : v ∈ p.instsOf t.block) (isPhi : p.op? v = .ok (some (.phi incoming))) :
    ∃ s earlier u, before = s :: earlier ∧ (s.block, u) ∈ incoming ∧ t.values.value v = s.values.read u := by
  have nodup : (p.instsOf t.block).Nodup := by
    obtain ⟨x, hx, -⟩ := Program.mem_instsOf.1 mem
    exact Program.instsOf_eq hx ▸ ssa.regular.distinct _ x hx
  have entered {source : Option BlockId} {ρ : Valuation p}
      (body : Carries δ source ρ (p.instsOf t.block) ρ t.values) :
      ∃ a u, source = some a ∧ (a, u) ∈ incoming ∧ t.values.value v = ρ.read u := by
    obtain ⟨mid, width, yields, -⟩ := body.yields nodup mem
    cases yields with
    | phi isOp entered edge value =>
      cases isPhi.symm.trans isOp
      exact ⟨_, _, entered, edge, value⟩
    | other isOp notPhi =>
      cases isPhi.symm.trans isOp
      exact absurd rfl (notPhi _)
  cases trace with
  | enter here body =>
    obtain ⟨a, u, none, -⟩ := entered body
    cases none
  | step trace hx takes edge body =>
    obtain ⟨a, u, same, edge, value⟩ := entered body
    cases same
    exact ⟨_, _, u, rfl, edge, value⟩

end

theorem head?_of_split (split : now :: before = later ++ s :: earlier) : (later ++ [s]).head? = some now := by
  cases later <;> cases split <;> rfl

theorem exists_last {ps : List (Passage p)} (mem : b ∈ ps.map (·.block)) :
    ∃ later s earlier, ps = later ++ s :: earlier ∧ s.block = b ∧ ∀ t ∈ later, t.block ≠ b := by
  obtain ⟨s, found⟩ := Option.isSome_iff_exists.1 (List.find?_isSome (p := fun s : Passage p => s.block = b) |>.2
    (by simpa using mem))
  obtain ⟨here, later, earlier, split, other⟩ := List.find?_eq_some_iff_append.1 found
  exact ⟨later, s, earlier, split, by simpa using here, by simpa using other⟩

/-- What strictly dominates a block is not run again after the last visit to it, where that block dominates
the current one. -/
theorem not_revisited (trace : Trace p δ e (later ++ s :: earlier)) (head : (later ++ [s]).head? = some now)
    (last : ∀ t ∈ later, t.block ≠ s.block) (dominates : Dominates p.targets e s.block now.block)
    (above : Dominates p.targets e d s.block) (ne : d ≠ s.block) : ∀ t ∈ later, t.block ≠ d := by
  rintro t mem rfl
  have reaches : Reaches p.targets e s.block := ⟨_, trace.drop.path⟩
  have first : Avoids p.targets s.block e t.block := not_dominates_iff.1 fun back =>
    ne (above.antisymm back reaches)
  obtain ⟨front, back, rfl⟩ := List.append_of_mem mem
  rw [List.append_assoc, List.cons_append] at trace
  have path : Path p.targets t.block (front.map (·.block) ++ [t.block]) now.block :=
    (show Trace p δ e ([] ++ (front ++ t :: (back ++ s :: earlier))) from trace).path_between
      (by cases front <;> exact head)
  obtain ⟨r, hr, again⟩ := List.mem_map.1 (dominates.mem_of_avoids first path)
  exact last r (List.mem_append_left _ hr) again

/-- Where the block of an instruction dominates the current one, the instruction has the value that it
computes from the current values. -/
theorem computes_of_dominates (ssa : p.Ssa) {f : FuncId} (he : p.IsEntry f e) (trace : Trace p δ e (now :: before))
    (mem : v ∈ p.instsOf b) (isOp : p.op? v = .ok (some op)) (notPhi : ∀ incoming, op ≠ .phi incoming)
    (dominates : Dominates p.targets e b now.block) : now.values.Computes δ v op := by
  obtain ⟨later, s, earlier, split, rfl, last⟩ := exists_last (dominates _ trace.path)
  have head := head?_of_split split
  rw [split] at trace
  refine trace.computes_kept ssa head mem isOp notPhi fun u used t ht home => ?_
  by_cases same : t.block = s.block
  · exact last t ht same
  rcases List.mem_cons.1 used with rfl | used
  · exact same (Option.some.inj (home.symm.trans (ssa.regular.home?_eq mem)))
  · have above := (ssa.operands _ v op mem isOp notPhi u used).1 f e _ he home
    exact trace.not_revisited head last dominates above same t ht rfl

end Trace

/-! ### Runs that are computed -/

instance Op.decidableAgree (p : Program) : (op : Op) → Decidable (op.Agree p)
  | .binary _ l r | .icmp _ l r => inferInstanceAs (Decidable (p.modelWidth l = p.modelWidth r))
  | .cast .. | .gep .. | .select .. | .phi _ | .alloca _ | .call .. | .load _ | .store .. => .isTrue trivial

namespace Program
variable {p : Program} {δ : ZeroDivision} {source : Option BlockId} {before ρ ρ' : Valuation p}

def yield? (p : Program) (δ : ZeroDivision) (source : Option BlockId) (before ρ : Valuation p) (v : ValueId) :
    Option Vec :=
  match p.op? v with
  | .ok (some (.phi incoming)) =>
    (incoming.find? fun edge => source = some edge.1).map fun edge => before.read edge.2
  | .ok (some op) =>
    if op.Agree p then some ((op.result? δ ρ (p.modelWidth v)).getD ⟨p.modelWidth v, 0⟩) else none
  | _ => none

def carry? (p : Program) (δ : ZeroDivision) (source : Option BlockId) (before : Valuation p) :
    List ValueId → Valuation p → Option (Valuation p)
  | [], ρ => some ρ
  | v :: vs, ρ =>
    match p.yield? δ source before ρ v with
    | some x => if width : x.width = p.modelWidth v then carry? p δ source before vs (ρ.set v x width) else none
    | none => none

theorem yields_of_yield? {v : ValueId} {x : Vec} (found : p.yield? δ source before ρ v = some x)
    (width : x.width = p.modelWidth v) : Yields δ source before ρ v x width := by
  unfold yield? at found
  split at found
  case h_1 incoming isPhi =>
    obtain ⟨⟨a, u⟩, edge, rfl⟩ := Option.map_eq_some_iff.1 found
    exact .phi isPhi (by simpa using List.find?_some edge) (List.mem_of_find?_eq_some edge) rfl
  case h_2 op notPhi isOp =>
    obtain ⟨agree, ⟨⟩⟩ := Option.ite_none_right_eq_some.1 found
    exact .other isOp notPhi agree fun y result => by rw [result]; rfl
  case h_3 => cases found

theorem carries_of_carry? {vs : List ValueId} (found : p.carry? δ source before vs ρ = some ρ') :
    Carries δ source before vs ρ ρ' := by
  induction vs generalizing ρ with
  | nil =>
    cases found
    exact .done
  | cons v vs ih =>
    unfold carry? at found
    split at found
    case h_2 => cases found
    case h_1 x yields =>
      split at found
      case isFalse => cases found
      case isTrue width => exact .step (yields_of_yield? yields width) (ih found)

end Program

def Terminator.choice? {p : Program} (δ : ZeroDivision) (ρ : Valuation p) : Terminator → Option Nat
  | .br _ => some 0
  | .condBr cond _ _ =>
    match p.leaf cond with
    | .ok e => some (if (e.denote δ ρ.env).bits = 0 then 1 else 0)
    | .error _ => none
  | _ => none

theorem Takes.of_choice? {p : Program} {δ : ZeroDivision} {ρ : Valuation p} {term : Terminator} {k : Nat}
    (chosen : term.choice? δ ρ = some k) : Takes p δ ρ.env term k := by
  cases term with
  | br dest => exact .free rfl
  | condBr cond t f =>
    cases leaf : p.leaf cond with
    | error fault =>
      simp only [Terminator.choice?, leaf] at chosen
      cases chosen
    | ok e =>
      simp only [Terminator.choice?, leaf] at chosen
      cases chosen
      split
      case isTrue clear => exact .ifFalse leaf clear
      case isFalse set => exact .ifTrue leaf set
  | _ => cases chosen

def Passage.next? {p : Program} (δ : ZeroDivision) (s : Passage p) : Option (Passage p) := do
  let x ← p.blocks[s.block]?
  let k ← x.term.choice? δ s.values
  let b ← x.term.successors[k]?
  return ⟨b, ← p.carry? δ (some s.block) s.values (p.instsOf b) s.values⟩

/-- The run from `e` that goes on `steps` times. -/
def Program.run? (p : Program) (δ : ZeroDivision) (e : BlockId) (ρ : Valuation p) : Nat → Option (List (Passage p))
  | 0 => (p.carry? δ none ρ (p.instsOf e) ρ).map fun values => [⟨e, values⟩]
  | steps + 1 => do
    let before ← p.run? δ e ρ steps
    let s ← before.head?
    return (← s.next? δ) :: before

theorem Trace.of_run? {p : Program} {δ : ZeroDivision} {e : BlockId} {ρ : Valuation p} {steps : Nat}
    {all : List (Passage p)} (found : p.run? δ e ρ steps = some all) : Trace p δ e all := by
  induction steps generalizing all with
  | zero =>
    obtain ⟨values, carried, rfl⟩ := Option.map_eq_some_iff.1 found
    exact .enter rfl (Program.carries_of_carry? carried)
  | succ steps ih =>
    obtain ⟨before, run, found⟩ := Option.bind_eq_some_iff.1 found
    obtain ⟨s, head, found⟩ := Option.bind_eq_some_iff.1 found
    obtain ⟨t, next, ⟨⟩⟩ := Option.bind_eq_some_iff.1 found
    obtain ⟨earlier, rfl⟩ := List.head?_eq_some_iff.1 head
    obtain ⟨x, hx, next⟩ := Option.bind_eq_some_iff.1 next
    obtain ⟨k, choice, next⟩ := Option.bind_eq_some_iff.1 next
    obtain ⟨b, edge, next⟩ := Option.bind_eq_some_iff.1 next
    obtain ⟨values, carried, ⟨⟩⟩ := Option.bind_eq_some_iff.1 next
    exact .step (ih run) hx (.of_choice? choice) edge (Program.carries_of_carry? carried)

theorem Trace.exists_of_run? {p : Program} {δ : ZeroDivision} {e : BlockId} {ρ : Valuation p} {steps : Nat} {α : Type}
    {x : α} (view : Passage p → List (Passage p) → α)
    (found : (p.run? δ e ρ steps).map (fun all => all.head?.map fun now => view now all.tail) = some (some x)) :
    ∃ now before, Trace p δ e (now :: before) ∧ view now before = x := by
  obtain ⟨all, run, found⟩ := Option.map_eq_some_iff.1 found
  obtain ⟨now, head, found⟩ := Option.map_eq_some_iff.1 found
  obtain ⟨before, rfl⟩ := List.head?_eq_some_iff.1 head
  exact ⟨now, before, .of_run? run, found⟩

end SsaFacts
