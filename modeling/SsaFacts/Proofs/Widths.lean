import SsaFacts.Proofs.ArgumentBinding
import SsaFacts.Proofs.Reduction
import SsaFacts.Proofs.Typing

/-! Stating the facts of a well-typed program never joins terms of different width and never reads a literal
whose width is out of range: the one fault that is left is a name that names nothing. Each way of stating a
fact is looked at once: what it joins has one type, or it tests the widths itself. -/
namespace SsaFacts

/-- A value, block, function or loop was named that does not exist. -/
def Fault.Dangling : Fault → Prop
  | unknownValue _ | unknownBlock _ | unknownFunction _ | unknownLoop _ => True
  | _ => False

/-! ### Computations whose only faults are dangling names -/

class Outcomes (m : Type → Type) [Monad m] [MonadAttach m] where
  Ends {α : Type} (x : m α) (r : Checked α) : Prop
  canReturn {α : Type} {x : m α} {a : α} : Ends x (.ok a) → MonadAttach.CanReturn x a
  of_pure {α : Type} {a : α} {r : Checked α} : Ends (pure a) r → r = .ok a
  of_bind {α β : Type} {x : m α} {f : α → m β} {r : Checked β} : Ends (x >>= f) r →
    (∃ e, Ends x (.error e) ∧ r = .error e) ∨ ∃ a, Ends x (.ok a) ∧ Ends (f a) r

instance Checked.outcomes : Outcomes (Except Fault) where
  Ends x r := x = r
  canReturn h := h
  of_pure h := h.symm
  of_bind {_ _ x _ _} h := by
    cases x with
    | error e => exact .inl ⟨e, rfl, h.symm⟩
    | ok a => exact .inr ⟨a, rfl, h⟩

instance Noted.outcomes : Outcomes (ExceptT Fault (StateM (List Notice))) where
  Ends x r := ∃ ns ns', x ns = (r, ns')
  canReturn h := h
  of_pure := by
    rintro α a r ⟨ns, ns', h⟩
    exact (congrArg Prod.fst h).symm
  of_bind := by
    rintro α β x f r ⟨ns, ns', h⟩
    rcases run : x ns with ⟨e | a, t⟩
    · rw [run_bind_error run] at h
      exact .inl ⟨e, ⟨ns, t, run⟩, (congrArg Prod.fst h).symm⟩
    · rw [run_bind_ok run] at h
      exact .inr ⟨a, ⟨ns, t, run⟩, t, ns', h⟩

/-- The computation runs into no fault but a dangling name, and what it returns has the property. -/
structure Fits {m : Type → Type} [Monad m] [MonadAttach m] [Outcomes m] {α : Type} (x : m α) (P : α → Prop) : Prop where
  ok : ∀ a, Outcomes.Ends x (.ok a) → P a
  error : ∀ e, Outcomes.Ends x (.error e) → e.Dangling

abbrev Safe {m : Type → Type} [Monad m] [MonadAttach m] [Outcomes m] {α : Type} (x : m α) : Prop := Fits x fun _ => True

namespace Fits
variable {m : Type → Type} [Monad m] [MonadAttach m] [Outcomes m] {α β : Type} {P : α → Prop} {Q : β → Prop} {x : m α}

protected theorem pure {a : α} (h : P a) : Fits (pure a : m α) P where
  ok b hb := by
    cases Outcomes.of_pure hb
    exact h
  error e he := by cases Outcomes.of_pure he

protected theorem bind {f : α → m β} (hx : Fits x P) (hf : ∀ a, P a → Fits (f a) Q) : Fits (x >>= f) Q where
  ok b hb := by
    rcases Outcomes.of_bind hb with ⟨e, -, ⟨⟩⟩ | ⟨a, ha, hb⟩
    exact (hf a (hx.ok a ha)).ok b hb
  error e he := by
    rcases Outcomes.of_bind he with ⟨e', he', ⟨⟩⟩ | ⟨a, ha, he⟩
    · exact hx.error e he'
    · exact (hf a (hx.ok a ha)).error e he

/-- What the first step returns does not matter. -/
theorem after {f : α → m β} (hx : Fits x P) (hf : ∀ a, Fits (f a) Q) : Fits (x >>= f) Q :=
  hx.bind fun a _ => hf a

theorem imp {P' : α → Prop} (hx : Fits x P) (h : ∀ a, P a → P' a) : Fits x P' := ⟨fun a ha => h a (hx.ok a ha), hx.error⟩

theorem safe (hx : Fits x P) : Safe x := hx.imp fun _ _ => trivial

theorem of_gives (hx : Safe x) (gives : Gives x P) : Fits x P := ⟨fun a ha => gives a (Outcomes.canReturn ha), hx.error⟩

theorem none : Fits (pure none : m (Option α)) fun o => ∀ a ∈ o, P a := .pure (by simp)

theorem some (hx : Fits x P) : Fits (do return some (← x)) fun o => ∀ a ∈ o, P a :=
  hx.bind fun a ha => .pure (by simpa using ha)

theorem filterMapM [LawfulMonad m] {f : α → m (Option β)} {xs : List α}
    (hf : ∀ a ∈ xs, Fits (f a) fun o => ∀ b ∈ o, Q b) : Fits (xs.filterMapM f) fun bs => ∀ b ∈ bs, Q b := by
  induction xs with
  | nil => exact .pure (by simp)
  | cons a rest ih =>
    obtain ⟨first, others⟩ := List.forall_mem_cons.1 hf
    rw [List.filterMapM_cons]
    refine first.bind fun o ho => ?_
    cases o with
    | none => exact ih others
    | some b => exact (ih others).bind fun bs hbs => .pure (by simpa using ⟨ho b rfl, hbs⟩)

theorem dangling {e : Fault} (h : e.Dangling) : Fits (.error e : Checked α) P where
  ok _ h := by cases h
  error _ h' := by
    cases h'
    exact h

theorem of_checked {x : Checked α} (h : ∀ e, x = .error e → e.Dangling) : Fits x (x = .ok ·) := ⟨fun _ => id, h⟩

protected theorem lift {x : Checked α} (hx : Fits x P) : Fits (liftM x : Noted α) P where
  ok a := fun ⟨_, _, h⟩ => hx.ok a (congrArg Prod.fst h)
  error e := fun ⟨_, _, h⟩ => hx.error e (congrArg Prod.fst h)

end Fits

namespace Safe
variable {m : Type → Type} [Monad m] [MonadAttach m] [Outcomes m] {α β : Type}

protected theorem pure (a : α) : Safe (pure a : m α) := Fits.pure trivial

protected theorem map {x : m α} (hx : Safe x) (f : α → β) : Safe (do return f (← x)) :=
  hx.after fun _ => Safe.pure _

theorem stepwise : Stepwise m Safe := ⟨Safe.pure, fun hx hf => hx.after hf⟩

protected theorem discard {x : Checked α} (hx : Safe x) : Safe (discard x) := stepwise.discard hx

theorem mapM [LawfulMonad m] {f : α → m β} {xs : List α} (hf : ∀ a ∈ xs, Safe (f a)) : Safe (xs.mapM f) :=
  stepwise.mapM hf

theorem filterMapM [LawfulMonad m] {f : α → m (Option β)} {xs : List α} (hf : ∀ a ∈ xs, Safe (f a)) :
    Safe (xs.filterMapM f) := stepwise.filterMapM hf

theorem forM {f : α → m PUnit} {xs : List α} (hf : ∀ a ∈ xs, Safe (f a)) : Safe (xs.forM f) := stepwise.forM hf

theorem findSomeM? [LawfulMonad m] {f : α → m (Option β)} {xs : List α} (hf : ∀ a ∈ xs, Safe (f a)) :
    Safe (xs.findSomeM? f) := stepwise.findSomeM? hf

theorem anyM {f : α → m Bool} {xs : List α} (hf : ∀ a ∈ xs, Safe (f a)) : Safe (xs.anyM f) := stepwise.anyM hf

theorem allM {f : α → m Bool} {xs : List α} (hf : ∀ a ∈ xs, Safe (f a)) : Safe (xs.allM f) := stepwise.allM hf

theorem filterM {f : α → m Bool} {xs : List α} (hf : ∀ a ∈ xs, Safe (f a)) : Safe (xs.filterM f) :=
  stepwise.filterM hf

end Safe

/-! ### Widths of terms -/

theorem Expr.combine_fits (op : BinOp) {l r : Expr} (same : l.width = r.width) :
    Fits (combine op l r) (·.width = l.width) := by
  rw [combine, if_pos same]
  exact Fits.pure rfl

theorem Clause.compare_safe (pred : Predicate) {l r : Expr} (same : l.width = r.width) :
    Safe (compare pred l r) := by
  rw [compare, if_pos same]
  exact Safe.pure _

theorem Clause.equal_bool_safe {e : Expr} (bit : e.width = boolWidth) (b : Bool) :
    Safe (Clause.equal e (.literal (.bool b))) :=
  compare_safe .eq bit

theorem Clause.compare_word_safe (pred : Predicate) {e : Expr} (word : e.width = wordWidth) (z : Int) :
    Safe (compare pred e (.ofInt wordWidth z)) :=
  compare_safe pred word

theorem Expr.WellSorted.sized {e : Expr} (sorted : e.WellSorted) : ∀ l ∈ e.literals, l.sized = true := by
  induction e with
  | literal l => exact List.forall_mem_singleton.2 sorted
  | leaf l => simp [literals]
  | unary op e ih => exact ih sorted
  | binary op l r ihl ihr => exact List.forall_mem_append.2 ⟨ihl sorted.1, ihr sorted.2.1⟩

theorem Expr.print_safe {e : Expr} (sorted : e.WellSorted) : Safe e.print := by
  refine (Safe.forM fun l hl => ?_).map _
  rw [Literal.print, if_pos (sorted.sized l hl)]
  exact Safe.pure _

theorem Clause.sort_safe {cs : List Clause} (sorted : ∀ c ∈ cs, c.WellSorted) : Safe (Clause.sort cs) := by
  refine (Safe.mapM fun c hc => ?_).map _
  refine Safe.map (Safe.map (Safe.forM fun e he => ?_) _) _
  exact (Expr.print_safe ((sorted c hc).exprs he)).discard

theorem note_safe {n : Notice} (plain : n.literals = []) : Safe (note n) where
  ok _ _ := trivial
  error e := by
    rintro ⟨ns, ns', h⟩
    rw [note_ok (by simp [plain])] at h
    cases h

namespace Program
variable (p : Program) (v : ValueId)

theorem value_fits : Fits (p.value v) (p.value v = .ok ·) := by
  refine .of_checked fun e he => ?_
  unfold value at he
  split at he <;> cases he
  trivial

theorem block_fits (b : BlockId) : Fits (p.block b) (p.block b = .ok ·) := by
  refine .of_checked fun e he => ?_
  unfold block at he
  split at he <;> cases he
  trivial

theorem function_fits (f : FuncId) : Fits (p.function f) (p.function f = .ok ·) := by
  refine .of_checked fun e he => ?_
  unfold function at he
  split at he <;> cases he
  trivial

theorem kind_fits : Fits (p.kind v) (p.kind v = .ok ·) :=
  .of_checked (((p.value_fits v).safe.map _).error)

theorem op?_fits : Fits (p.op? v) (p.op? v = .ok ·) :=
  .of_checked (((p.kind_fits v).safe.map _).error)

theorem width_fits : Fits (p.width v) (· = p.modelWidth v) :=
  ⟨p.width_gives v, ((((p.value_fits v).safe.map _).map _).error)⟩

theorem const?_safe : Safe (p.const? v) := (p.kind_fits v).safe.map _

theorem blockOf?_safe : Safe (p.blockOf? v) := (p.kind_fits v).safe.map _

theorem leaf_fits : Fits (p.leaf v) (·.width = p.modelWidth v) := by
  refine (p.width_fits v).bind fun w hw => (p.const?_safe v).after fun c => ?_
  cases c <;> exact Fits.pure hw

theorem callArgs_safe : Safe (p.callArgs v) := by
  refine (p.op?_fits v).after fun o => ?_
  split <;> exact Safe.pure _

theorem callTarget?_safe : Safe (p.callTarget? v) := by
  refine (p.op?_fits v).after fun o => ?_
  split <;> exact Safe.pure _

theorem calleeName?_fits : Fits (p.calleeName? v) (p.calleeName? v = .ok ·) := by
  refine .of_checked (?_ : Safe (p.calleeName? v)).error
  refine (p.callTarget?_safe v).after fun o => ?_
  cases o with
  | none => exact Safe.pure _
  | some f => exact (p.function_fits f).safe.map _

theorem lt_of_calleeName? {p : Program} {v : ValueId} {name : String} (found : p.calleeName? v = .ok (some name)) :
    v < p.values.size := by
  obtain ⟨target, hit, -⟩ := Checked.bind_eq_ok.1 found
  obtain ⟨o, isOp, -⟩ := Checked.bind_eq_ok.1 hit
  obtain ⟨k, kind, -⟩ := Checked.bind_eq_ok.1 isOp
  obtain ⟨x, hx, -⟩ := Option.map_eq_some_iff.1 (kind_eq_ok.1 kind)
  exact (Array.getElem?_eq_some_iff.1 hx).1

theorem spawned?_safe : Safe (p.spawned? v) := by
  refine (p.calleeName?_fits v).after fun o => ?_
  split
  · exact Safe.pure _
  refine (p.callArgs_safe v).after fun args => ?_
  split
  · exact Safe.pure _
  refine (p.kind_fits _).after fun k => ?_
  split <;> exact Safe.pure _

theorem actual?_fits (index : Nat) : Fits (p.actual? v index) (p.actual? v index = .ok ·) := by
  refine .of_checked (?_ : Safe (p.actual? v index)).error
  refine (p.callArgs_safe v).after fun args => (p.spawned?_safe v).after fun o => ?_
  split <;> exact Safe.pure _

theorem phis_fits (b : BlockId) : Fits (p.phis b) (p.phis b = .ok ·) := by
  refine .of_checked (?_ : Safe (p.phis b)).error
  refine (p.block_fits b).after fun x => ?_
  exact (Safe.mapM fun i _ => (p.op?_fits i).safe.map _).map _

end Program

/-! ### Facts -/

namespace Memory
variable (m : Memory)

theorem location_safe (v : ValueId) : Safe (m.location v) := by
  unfold location
  split
  · exact Safe.pure _
  · exact .dangling trivial

theorem mustAlias_safe (x y : ValueId) : Safe (m.mustAlias x y) := by
  unfold mustAlias
  split
  · exact Safe.pure _
  · exact (m.location_safe x).after fun _ => (m.location_safe y).map _

theorem mayHit_safe (y : ValueId) (w : Writes) : Safe (m.mayHit y w) := by
  cases w with
  | anything => exact Safe.pure _
  | through ptrs => exact Safe.anyM fun x _ => (m.location_safe x).after fun _ => (m.location_safe y).map _

theorem mayWrite_safe (calls : CallGraph) (inst y : ValueId) : Safe (m.mayWrite calls inst y) := by
  refine (m.mayHit_safe y _).after fun hit => ?_
  split
  · exact Safe.pure _
  · exact Safe.anyM fun f _ => m.mayHit_safe y _

end Memory

/-- A well-typed program and a survey that answers about memory and whose call sites start the function that they
are listed for. -/
structure Subject.Typed (s : Subject) : Prop where
  program : s.program.WellTyped
  mustAlias : ∀ x y, Safe (s.survey.mustAlias x y)
  mayWrite : ∀ i y, Safe (s.survey.mayWrite i y)
  callSites : ∀ f, ∀ site ∈ s.survey.callSites f, CallGraph.target? s.program site = .ok (some f)

namespace Subject
variable {s : Subject}

theorem observed_safe (s : Subject) (v : ValueId) : Safe (s.observed v) := by
  refine (s.program.value_fits v).after fun x => ?_
  split
  · exact Safe.pure _
  · split <;> exact Safe.pure _

theorem allObserved_safe (s : Subject) (vs : List ValueId) : Safe (s.allObserved vs) :=
  Safe.allM fun v _ => s.observed_safe v

theorem between_safe (s : Subject) (first last : ValueId) : Safe (s.between first last) := by
  refine (s.program.blockOf?_safe first).after fun o => ?_
  split
  case h_2 => exact Safe.pure _
  case h_1 =>
    refine (s.program.blockOf?_safe last).after fun o => ?_
    split
    case h_2 => exact Safe.pure _
    case h_1 => split <;> exact Safe.pure _

theorem equal_safe {a b : ValueId} (same : s.program.modelWidth a = s.program.modelWidth b) : Safe (s.equal a b) :=
  (s.program.leaf_fits a).bind fun _ ha => (s.program.leaf_fits b).bind fun _ hb =>
    Clause.compare_safe .eq (ha.trans (same.trans hb.symm))

theorem any_equal_safe {α : Type} {v : ValueId} {f : α → ValueId} {xs : List α}
    (same : ∀ x ∈ xs, s.program.modelWidth (f x) = s.program.modelWidth v) :
    Safe (do return Clause.any (← xs.mapM fun x => s.equal v (f x))) :=
  (Safe.mapM fun x hx => equal_safe (same x hx).symm).map _

theorem ofInt_fits (s : Subject) (v : ValueId) (z : Int) :
    Fits (do return Expr.ofInt (← s.program.width v) z) (·.width = s.program.modelWidth v) :=
  (s.program.width_fits v).bind fun _ hw => Fits.pure hw

theorem factor_fits (s : Subject) (v : ValueId) : Fits (s.factor v) (·.width = s.program.modelWidth v) := by
  refine (s.program.const?_safe v).after fun c => ?_
  cases c with
  | none => exact s.program.leaf_fits v
  | some z =>
    dsimp only
    split
    · exact s.ofInt_fits v _
    · exact s.program.leaf_fits v

theorem shiftAmount_fits (s : Subject) (v : ValueId) :
    Fits (s.shiftAmount v) (·.width = s.program.modelWidth v) := by
  refine (s.program.const?_safe v).after fun c => ?_
  cases c with
  | none => exact s.program.leaf_fits v
  | some z => exact s.ofInt_fits v _

theorem inBinary_safe {user l r : ValueId} (op : BinOp)
    (hl : s.program.modelWidth l = s.program.modelWidth user)
    (hr : s.program.modelWidth r = s.program.modelWidth user) : Safe (s.inBinary user op l r) := by
  have equals {x y : Checked Expr} (hx : Fits x (·.width = s.program.modelWidth l))
      (hy : Fits y (·.width = s.program.modelWidth r)) :
      Safe (do
        let rhs ← Expr.combine op (← x) (← y)
        return some (← Clause.equal (← s.program.leaf user) rhs)) := by
    refine hx.bind fun a ha => hy.bind fun b hb => ?_
    refine (Expr.combine_fits op (by omega)).bind fun e he => ?_
    exact (s.program.leaf_fits user).bind fun u hu => (Clause.compare_safe .eq (by omega)).map _
  refine (s.allObserved_safe _).after fun seen => ?_
  split
  · exact Safe.pure _
  · dsimp only
    split
    · exact equals (s.program.leaf_fits l) (s.shiftAmount_fits r)
    · exact equals (s.program.leaf_fits l) (s.shiftAmount_fits r)
    · exact equals (s.program.leaf_fits l) (s.shiftAmount_fits r)
    · exact equals (s.factor_fits l) (s.factor_fits r)
    · exact equals (s.program.leaf_fits l) (s.program.leaf_fits r)

theorem inIcmp_safe {user l r : ValueId} (pred : Predicate)
    (same : s.program.modelWidth l = s.program.modelWidth r) (bit : s.program.modelWidth user = boolWidth) :
    Safe (s.inIcmp user pred l r) := by
  refine (s.allObserved_safe _).after fun seen => ?_
  split
  · exact Safe.pure _
  · refine (s.program.leaf_fits l).bind fun a ha => (s.program.leaf_fits r).bind fun b hb => ?_
    refine (Clause.compare_safe pred (by omega)).after fun holds => ?_
    refine (s.program.leaf_fits user).bind fun u hu => ?_
    exact (Clause.equal_bool_safe (hu.trans bit) false).map _

/-- A cast joins its result with what has its width: widths are 1 and 32, and an extension or a truncation leads
to the other one. -/
theorem inCast_safe (s : Subject) (user : ValueId) (op : CastOp) (x : ValueId) : Safe (s.inCast user op x) := by
  refine (s.allObserved_safe _).after fun seen => ?_
  split
  · exact Safe.pure _
  · refine (s.program.leaf_fits user).bind fun u hu => (s.program.width_fits x).bind fun given hgiven => ?_
    refine (s.program.width_fits user).bind fun wanted hwanted => (s.program.leaf_fits x).bind fun e he => ?_
    have widths : given = boolWidth ∨ given = wordWidth := hgiven ▸ s.program.modelWidth_cases x
    have widths' : wanted = boolWidth ∨ wanted = wordWidth := hwanted ▸ s.program.modelWidth_cases user
    have equals (e : Expr) (same : u.width = e.width) : Safe (do return some (← Clause.equal u e)) :=
      (Clause.compare_safe .eq same).map _
    simp only [boolWidth, wordWidth] at widths widths'
    split
    · split
      · exact equals _ (by simp only [Expr.width, UnaryOp.resultWidth, wordWidth]; omega)
      · exact equals _ (by simp only [Expr.width, UnaryOp.resultWidth, wordWidth]; omega)
      · exact Safe.pure _
    · split
      · exact equals _ (by simp only [Expr.width, UnaryOp.resultWidth, boolWidth]; omega)
      · exact equals _ (by omega)

theorem stepExpr?_fits (s : Subject) (step : GepStep) :
    Fits (s.stepExpr? step) fun o => ∀ e ∈ o, e.width = wordWidth := by
  cases step with
  | field offset => exact Fits.pure (by simp [Expr.ofInt, Expr.width])
  | index size index =>
    refine (s.program.leaf_fits index).bind fun i hi => ?_
    by_cases word : i.width = wordWidth
    · rw [if_neg (not_not.2 word)]
      split
      · exact Fits.some ((Expr.combine_fits .shl word).imp fun _ he => he.trans word)
      · exact Fits.some (Expr.combine_fits .mul word.symm)
    · rw [if_pos word]
      exact .none

theorem address?_fits {base : Expr} (word : base.width = wordWidth) (steps : List GepStep) :
    Fits (s.address? base steps) fun o => ∀ e ∈ o, e.width = wordWidth := by
  induction steps generalizing base with
  | nil => exact Fits.pure (by simpa using word)
  | cons step rest ih =>
    refine (s.stepExpr?_fits step).bind fun o ho => ?_
    cases o with
    | none => exact .none
    | some bytes =>
      refine (Expr.combine_fits .add (word.trans (ho bytes rfl).symm)).bind fun e he => ?_
      exact ih (he.trans word)

theorem inGep_safe {user base : ValueId} (steps : List GepStep) (hbase : s.program.modelWidth base = wordWidth)
    (huser : s.program.modelWidth user = wordWidth) : Safe (s.inGep user base steps) := by
  refine (s.allObserved_safe _).after fun seen => ?_
  split
  · exact Safe.pure _
  · refine (s.program.leaf_fits base).bind fun b hb => ?_
    refine (address?_fits (hb.trans hbase) steps).bind fun o ho => ?_
    cases o with
    | none => exact Safe.pure _
    | some e =>
      refine (s.program.leaf_fits user).bind fun u hu => ?_
      exact (Clause.compare_safe .eq (hu.trans (huser.trans (ho e rfl).symm))).map _

theorem inSelect_safe {user t f : ValueId} (cond : ValueId)
    (ht : s.program.modelWidth t = s.program.modelWidth user)
    (hf : s.program.modelWidth f = s.program.modelWidth user) : Safe (s.inSelect user cond t f) := by
  refine (s.allObserved_safe _).after fun seen => ?_
  split
  · exact Safe.pure _
  refine (s.program.width_fits cond).bind fun w hw => ?_
  by_cases bit : w = boolWidth
  · rw [if_neg (not_not.2 bit)]
    refine (s.program.leaf_fits cond).bind fun c hc => (s.program.leaf_fits user).bind fun r hr => ?_
    have test := Clause.equal_bool_safe (hc.trans (hw.symm.trans bit))
    have arm {v : ValueId} (same : s.program.modelWidth v = s.program.modelWidth user) {e : Expr}
        (he : e.width = s.program.modelWidth v) : Safe (Clause.equal r e) :=
      Clause.compare_safe .eq (by omega)
    refine (test false).after fun _ => (s.program.leaf_fits t).bind fun e he => (arm ht he).after fun _ => ?_
    exact (test true).after fun _ => (s.program.leaf_fits f).bind fun e he => (arm hf he).map _
  · rw [if_pos bit]
    exact Safe.pure _

theorem inPhi_safe {user : ValueId} {incoming : List (BlockId × ValueId)}
    (same : ∀ edge ∈ incoming, s.program.modelWidth edge.2 = s.program.modelWidth user) :
    Safe (s.inPhi user incoming) := by
  refine (s.program.blockOf?_safe user).after fun o => ?_
  split
  · split
    · exact any_equal_safe same
    · exact Safe.pure _
  · exact Safe.pure _

theorem avoidBranch_safe (typed : s.program.WellTyped) (b : BlockId) (i : Nat) : Safe (s.avoidBranch b i) := by
  refine (s.program.block_fits b).bind fun x found => ?_
  have wellTyped := typed.of_block found
  split
  case h_1 cond t f term =>
    refine (s.observed_safe cond).after fun seen => ?_
    split
    · exact Safe.pure _
    refine (s.program.width_fits cond).bind fun w hw => ?_
    by_cases bit : w = boolWidth
    · rw [if_neg (not_not.2 bit)]
      have test (b : Bool) : Safe (do return some (← Clause.equal (← s.program.leaf cond) (.literal (.bool b)))) :=
        (s.program.leaf_fits cond).bind fun c hc => (Clause.equal_bool_safe (hc.trans (hw.symm.trans bit)) b).map _
      split
      · exact test false
      · exact test true
      · exact Safe.pure _
    · rw [if_pos bit]
      exact Safe.pure _
  case h_2 cond default cases term =>
    rw [term] at wellTyped
    have same : ∀ c ∈ cases, s.program.modelWidth c.1 = s.program.modelWidth cond :=
      fun c hc => Program.modelWidth_congr (wellTyped c hc)
    refine (s.observed_safe cond).after fun seen => ?_
    split
    · exact Safe.pure _
    split
    · exact any_equal_safe same
    · split
      · exact Safe.pure _
      · rename_i value dest listed
        have width := same _ (List.mem_of_getElem? listed)
        refine (s.program.leaf_fits cond).bind fun c hc => (s.program.leaf_fits value).bind fun e he => ?_
        exact (Clause.compare_safe .ne (hc.trans (width.symm.trans he.symm))).map _
  case h_3 => exact Safe.pure _

namespace Typed
variable (typed : s.Typed)
include typed

/-- Defining an instruction joins what the typing rule of its operation joins. -/
theorem inUser_safe (user : ValueId) : Safe (s.inUser user) := by
  refine (s.program.op?_fits user).bind fun o found => ?_
  have congr {a b : ValueId} := Program.modelWidth_congr (p := s.program) (u := a) (v := b)
  cases o with
  | none => exact Safe.pure _
  | some op =>
    have wellTyped := typed.program.of_op? found
    cases op with
    | binary op l r => exact inBinary_safe op (congr wellTyped.1) (congr wellTyped.2)
    | icmp pred l r => exact inIcmp_safe pred (congr wellTyped.1) (Program.modelWidth_of_ty? wellTyped.2)
    | cast op x => exact s.inCast_safe user op x
    | gep base steps =>
      exact inGep_safe steps (Program.modelWidth_of_ty? wellTyped.1) (Program.modelWidth_of_ty? wellTyped.2)
    | select c t f => exact inSelect_safe c (congr wellTyped.1) (congr wellTyped.2)
    | phi incoming => exact inPhi_safe fun edge mem => congr (wellTyped edge mem)
    | alloca _ | call _ _ | load _ | store _ _ => exact Safe.pure _

theorem inArgument_safe (formal : ValueId) : Safe (s.inArgument formal) := by
  refine (s.program.kind_fits formal).bind fun k isParam => ?_
  split
  case h_2 => exact Safe.pure _
  case h_1 f index =>
    refine (s.program.function_fits f).after fun fn => ?_
    split
    · exact Safe.pure _
    -- What is passed has the type of the parameter, and sorting and filtering keep that.
    have passed : Fits (((s.survey.callSites f).filter (!s.survey.instDead ·)).filterMapM fun site =>
        s.program.actual? site index) fun as => ∀ a ∈ as, s.program.ty? a = s.program.ty? formal := by
      refine Fits.filterMapM fun site hsite => (s.program.actual?_fits site index).imp fun o actual a ha => ?_
      have starts := typed.callSites f site (List.mem_filter.1 hsite).1
      exact typed.program.ty?_of_actual? starts isParam (actual.trans (congrArg _ ha))
    refine passed.bind fun actuals alike => ?_
    have kept : Fits ((ascending actuals).filterM s.observed) fun as =>
        ∀ a ∈ as, s.program.ty? a = s.program.ty? formal := by
      refine ⟨fun as found a ha => ?_, (Safe.filterM fun a _ => s.observed_safe a).error⟩
      exact alike a (mem_ascending.1 ((Checked.mem_of_filterM found).1 ha).1)
    exact kept.bind fun actuals alike => any_equal_safe fun a ha => Program.modelWidth_congr (alike a ha)

theorem excludeEdge_safe (b : BlockId) (i : Nat) : Safe (s.excludeEdge b i) := by
  have avoided := (avoidBranch_safe typed.program b i).lift
  refine (s.program.block_fits b).lift.after fun x => ?_
  dsimp only
  split
  · exact (note_safe rfl).after fun _ => avoided
  · exact avoided

theorem edgeExclusions_safe (f : FuncId) : Safe (s.edgeExclusions f) := by
  refine (s.program.function_fits f).lift.after fun fn => ?_
  split
  · refine (Safe.mapM fun b _ => (s.program.block_fits b).lift.after fun x => ?_).map _
    dsimp only
    split
    · exact Safe.filterMapM fun e _ => typed.excludeEdge_safe b e.2
    · exact Safe.pure _
  · exact Safe.pure _

end Typed

theorem marker?_fits (s : Subject) (inst : ValueId) : Fits (s.marker? inst) fun o =>
    ∀ pair ∈ o, s.program.modelWidth pair.1 = s.program.modelWidth pair.2 := by
  have malformed : Fits (do
      note (.malformedMarker inst)
      return none) fun o : Option (ValueId × ValueId) =>
        ∀ pair ∈ o, s.program.modelWidth pair.1 = s.program.modelWidth pair.2 :=
    (note_safe rfl).after fun _ => .none
  refine (s.program.calleeName?_fits inst).lift.after fun name => ?_
  split
  case h_2 => exact .none
  case h_1 =>
    split
    · exact .none
    refine (s.program.callArgs_safe inst).lift.after fun args => ?_
    split
    case h_1 a b =>
      refine (s.program.width_fits a).lift.bind fun w hw => (s.program.width_fits b).lift.bind fun w' hw' => ?_
      split
      · exact Fits.pure (by simp; omega)
      · exact malformed
    case h_2 => exact malformed

theorem markerFacts_safe (s : Subject) (f : FuncId) : Safe (s.markerFacts f) := by
  refine Safe.filterMapM fun i _ => (s.marker?_fits i).bind fun o same => ?_
  cases o with
  | none => exact Safe.pure _
  | some pair => exact (equal_safe (same pair rfl)).lift.safe.map _

theorem Typed.unreachableFacts_safe (typed : s.Typed) (f : FuncId) : Safe (s.unreachableFacts f) :=
  (typed.edgeExclusions_safe f).after fun _ => (s.markerFacts_safe f).map _

theorem wordArg?_fits (s : Subject) (v : ValueId) : Fits (s.wordArg? v) fun o => ∀ e ∈ o, e.width = wordWidth := by
  refine (s.program.leaf_fits v).after fun e => (s.observed_safe v).after fun seen => Fits.pure ?_
  split <;> simp_all

theorem lengthFact?_safe {call : ValueId} (word : s.program.modelWidth call = wordWidth) (len : ValueId) :
    Safe (s.lengthFact? call len) := by
  refine (s.wordArg?_fits len).bind fun o ho => ?_
  cases o with
  | none => exact Safe.pure _
  | some n =>
    have hn := ho n rfl
    refine (Clause.compare_word_safe .slt hn 0).after fun _ => (s.program.leaf_fits call).bind fun e he => ?_
    exact (Clause.compare_safe .sle (he.trans (word.trans hn.symm))).map _

theorem inLibraryCall_safe (s : Subject) (call : ValueId) : Safe (s.inLibraryCall call) := by
  refine (s.program.calleeName?_fits call).after fun name => ?_
  split
  · exact Safe.pure _
  refine (s.observed_safe call).after fun seen => ?_
  split
  · exact Safe.pure _
  refine (s.program.width_fits call).bind fun w hw => ?_
  by_cases word : w = wordWidth
  · rw [if_neg (not_not.2 word)]
    have word := hw.symm.trans word
    refine (s.program.leaf_fits call).bind fun e he => (Clause.compare_word_safe .sge (he.trans word) _).after
      fun _ => ?_
    refine (s.program.callArgs_safe call).after fun args => ?_
    split
    · exact Safe.pure _
    · exact (lengthFact?_safe word _).map _
  · rw [if_pos word]
    exact Safe.pure _

def Extent.OfWords (x : Extent) : Prop := x.start.width = wordWidth ∧ x.size.width = wordWidth

theorem extentFacts_safe {xs : List Extent} (words : ∀ x ∈ xs, x.OfWords) : Safe (extentFacts xs) := by
  refine (Safe.mapM fun x hx => ?_).after fun ranges => (Safe.mapM fun pair hpair => ?_).map _
  · obtain ⟨start, size⟩ := words x hx
    refine (Expr.combine_fits .sub (l := .ofInt wordWidth wordMax) size.symm).bind fun e he => ?_
    exact Clause.compare_safe .sle (start.trans he.symm)
  · obtain ⟨start, size⟩ := words pair.1 (List.of_mem_zip hpair).1
    obtain ⟨next, -⟩ := words pair.2 (List.mem_of_mem_tail (List.of_mem_zip hpair).2)
    refine (Expr.combine_fits .add (start.trans size.symm)).bind fun e he => ?_
    exact Clause.compare_safe .sle (he.trans (start.trans next.symm))

/-! ### Loads -/

namespace Typed
variable (typed : s.Typed)
include typed

theorem lastAccess?_safe (q : ValueId) (insts : List ValueId) : Safe (s.lastAccess? q insts) := by
  refine Safe.findSomeM? fun i _ => (?_ : Safe (s.accessValue? q i)).map _
  refine (s.program.op?_fits i).after fun o => ?_
  split
  · exact (typed.mustAlias _ q).map _
  · exact (typed.mustAlias _ q).map _
  · exact Safe.pure _

theorem accessAbove?_safe (q : ValueId) (steps : Nat) (b : BlockId) : Safe (s.accessAbove? q steps b) := by
  induction steps generalizing b with
  | zero => exact Safe.pure _
  | succ steps ih =>
    unfold accessAbove?
    split
    · exact Safe.pure _
    · refine (typed.lastAccess?_safe q _).after fun o => ?_
      cases o with
      | none => exact ih _
      | some found => exact Safe.pure _

theorem source?_safe (load q : ValueId) : Safe (s.source? load q) := by
  refine (s.program.blockOf?_safe load).after fun o => ?_
  split
  · refine (typed.lastAccess?_safe q _).after fun o => ?_
    cases o with
    | none => exact typed.accessAbove?_safe q _ _
    | some found => exact Safe.pure _
  · exact Safe.pure _

theorem mustAssign_safe (isFixed : ValueId → Bool) (load : ValueId) : Safe (s.mustAssign isFixed load) := by
  refine (s.program.op?_fits load).after fun o => ?_
  split
  case h_2 => exact Safe.pure _
  case h_1 q =>
    split
    · exact Safe.pure _
    refine (typed.source?_safe load q).after fun o => ?_
    split
    case h_2 => exact Safe.pure _
    case h_1 source value =>
      split
      · exact Safe.pure _
      refine (s.observed_safe value).after fun seen => ?_
      split
      · exact Safe.pure _
      split
      · exact Safe.pure _
      refine (s.program.width_fits value).bind fun w hw => (s.program.width_fits load).bind fun w' hw' => ?_
      split
      · exact Safe.pure _
      rename_i same
      refine (s.between_safe source load).after fun path => ?_
      refine (Safe.anyM fun i _ => typed.mayWrite i q).after fun written => ?_
      split
      · exact Safe.pure _
      · exact (equal_safe (by omega)).map _

theorem unwrittenLoads?_safe (g : ValueId) : Safe (s.unwrittenLoads? g) := by
  refine ((s.program.kind_fits g).safe.map _).after fun isGlobal => ?_
  split
  · exact Safe.pure _
  refine (Safe.anyM fun i _ => typed.mayWrite i g).after fun written => ?_
  split
  · exact Safe.pure _
  refine (Safe.filterM fun i _ => (s.program.op?_fits i).after fun o => ?_).map _
  split
  · refine (typed.mustAlias _ g).after fun same => ?_
    split
    · exact s.observed_safe i
    · exact Safe.pure _
  · exact Safe.pure _

theorem inGlobal_safe (g : ValueId) : Safe (s.inGlobal g) := by
  refine (typed.unwrittenLoads?_safe g).after fun loads => (s.program.kind_fits g).after fun kind => ?_
  split
  · refine Safe.mapM fun l _ => (s.program.leaf_fits l).bind fun e he => ?_
    exact (s.program.width_fits l).bind fun w hw => Clause.compare_safe .eq (he.trans hw.symm)
  · refine Safe.filterMapM fun pair _ => (s.program.width_fits pair.1).bind fun w hw => ?_
    refine (s.program.width_fits pair.2).bind fun w' hw' => ?_
    split
    · exact (equal_safe (by omega)).map _
    · exact Safe.pure _
  · exact Safe.pure _

/-! ### All facts -/

theorem fixedValues_safe : Safe s.fixedValues :=
  (Safe.mapM fun g _ => (typed.unwrittenLoads?_safe g).map _).map _

theorem topLevelFacts_safe (fixed : List ValueId) : Safe (s.topLevelFacts fixed) := by
  refine (Safe.filterMapM fun v _ => typed.inUser_safe v).after fun defined => ?_
  refine (Safe.filterMapM fun v _ => (s.observed_safe v).after fun seen => ?_).map _
  split
  · exact typed.inArgument_safe v
  · exact Safe.pure _

theorem loadFacts_safe (isFixed : ValueId → Bool) : Safe (s.loadFacts isFixed) := by
  refine (Safe.filterM fun v _ => (s.program.op?_fits v).after fun o => ?_).after fun loads => ?_
  · split
    · exact s.observed_safe v
    · exact Safe.pure _
  · refine (Safe.filterMapM fun l _ => typed.mustAssign_safe isFixed l).after fun assigned => ?_
    exact (Safe.mapM fun g _ => typed.inGlobal_safe g).map _

theorem onceEdgeFacts_safe : Safe s.onceEdgeFacts :=
  (Safe.mapM fun f _ => typed.unreachableFacts_safe f).map _

/-- An instruction that allocates gives a block that starts at a word and counts its bytes in one. -/
theorem allocated?_fits (allocates : s.program.AllocatesWords) (inst : ValueId) :
    Fits (s.allocated? inst) fun o => ∀ e ∈ o, e.width = wordWidth ∧ s.program.modelWidth inst = wordWidth := by
  refine (s.program.op?_fits inst).bind fun o found => ?_
  split
  case h_1 bytes =>
    have pointer : s.program.modelWidth inst = wordWidth :=
      Program.modelWidth_of_ty? (typed.program.of_op? found)
    exact Fits.pure (by simpa [Expr.ofInt, Expr.width] using pointer)
  case h_2 =>
    refine (s.program.calleeName?_fits inst).bind fun o named => (s.program.callArgs_safe inst).after fun args => ?_
    have word (name : String) (isName : o = some name) (known : name ∈ Routine.allocators) :
        s.program.modelWidth inst = wordWidth := by
      refine allocates inst ?_ name known (by rw [named, isName])
      simpa [Program.valueIds] using Program.lt_of_calleeName? (named.trans (by rw [isName]))
    split
    case h_1 size =>
      exact (s.wordArg?_fits size).imp fun o ho e he => ⟨ho e he, word "malloc" rfl (by simp [Routine.allocators])⟩
    case h_2 size =>
      exact (s.wordArg?_fits size).imp fun o ho e he => ⟨ho e he, word "valloc" rfl (by simp [Routine.allocators])⟩
    case h_3 count size =>
      refine (s.wordArg?_fits count).bind fun o ho => ?_
      cases o with
      | none => exact .none
      | some n =>
        refine (s.wordArg?_fits size).bind fun o' ho' => ?_
        cases o' with
        | none => exact .none
        | some k =>
          have hn := ho n rfl
          refine Fits.some ((Expr.combine_fits .mul (hn.trans (ho' k rfl).symm)).imp fun e he => ?_)
          exact ⟨he.trans hn, word "calloc" rfl (by simp [Routine.allocators])⟩
    case h_4 => exact .none

theorem extent?_fits (allocates : s.program.AllocatesWords) (isFixed : ValueId → Bool) (inst : ValueId) :
    Fits (s.extent? isFixed inst) fun o => ∀ x ∈ o, x.OfWords := by
  unfold extent?
  split
  · exact .none
  refine (s.observed_safe inst).after fun seen => ?_
  split
  · exact .none
  refine (typed.allocated?_fits allocates inst).bind fun o ho => ?_
  cases o with
  | none => exact .none
  | some size =>
    obtain ⟨word, start⟩ := ho size rfl
    exact (s.program.leaf_fits inst).bind fun e he => Fits.pure (by simpa using ⟨he.trans start, word⟩)

theorem libraryFacts_safe (allocates : s.program.AllocatesWords) (isFixed : ValueId → Bool) :
    Safe (s.libraryFacts isFixed) := by
  refine (Safe.mapM fun i _ => s.inLibraryCall_safe i).after fun results => ?_
  refine (Fits.filterMapM fun i _ => typed.extent?_fits allocates isFixed i).bind fun extents words => ?_
  exact (extentFacts_safe words).map _

/-- The facts of a well-typed program are captured without a fault but a dangling name. What is sorted can be
written, since its literals are bits and words. -/
theorem capture_safe (allocates : s.program.AllocatesWords) (disable : Bool) : Safe (s.capture disable) := by
  refine typed.fixedValues_safe.lift.after fun fixed => ?_
  refine (Fits.of_gives (typed.topLevelFacts_safe fixed) (s.topLevelFacts_stated fixed)).lift.bind fun top htop => ?_
  refine (Fits.of_gives (typed.loadFacts_safe _) (s.loadFacts_stated _)).lift.bind fun loads hloads => ?_
  refine (Fits.of_gives typed.onceEdgeFacts_safe s.onceEdgeFacts_stated).bind fun edges hedges => ?_
  refine (Fits.of_gives (typed.libraryFacts_safe allocates _) (s.libraryFacts_stated _)).lift.bind
    fun library hlibrary => ?_
  have all := List.forall_mem_append.2 ⟨List.forall_mem_append.2 ⟨List.forall_mem_append.2
    ⟨htop, hloads⟩, hedges⟩, hlibrary⟩
  exact (Clause.sort_safe fun c hc => (all c hc).wellSorted).lift.safe.map _

end Typed
end Subject

theorem Survey.typed_ofProgram {p : Program} {marked : List BlockId} {survey : Survey} (typed : p.WellTyped)
    (made : Survey.ofProgram p marked = .ok survey) : Subject.Typed { program := p, survey } where
  program := typed
  mustAlias x y := by
    obtain ⟨calls, memory, shared⟩ := Survey.exists_memory made
    rw [shared.mustAlias_eq]
    exact memory.mustAlias_safe x y
  mayWrite i y := by
    obtain ⟨calls, memory, shared⟩ := Survey.exists_memory made
    rw [shared.mayWrite_eq]
    exact memory.mayWrite_safe calls i y
  callSites f site mem := Survey.target?_of_mem_callSites made mem

/-- Capturing the facts of a well-typed program and reducing them never joins terms of different width and never
reads a literal whose width is not between 1 and 64. There is an engine, or the program names something that does
not exist and its facts cannot be captured; what has been captured is reduced without any fault. -/
theorem Engine.ofSubject_safe {p : Program} {marked : List BlockId} {survey : Survey} (typed : p.WellTyped)
    (allocates : p.AllocatesWords) (made : Survey.ofProgram p marked = .ok survey) (config : Config)
    (ns : List Notice) :
    (∃ e ns', Engine.ofSubject { program := p, survey } config ns = (.ok e, ns')) ∨
      ∃ fault ns', Subject.capture { program := p, survey } config.disable ns = (.error fault, ns') ∧
        Engine.ofSubject { program := p, survey } config ns = (.error fault, ns') ∧ fault.Dangling := by
  have safe := (Survey.typed_ofProgram typed made).capture_safe allocates config.disable
  rcases captured : Subject.capture { program := p, survey } config.disable ns with ⟨fault | capture, ns'⟩
  · exact .inr ⟨fault, ns', rfl, run_bind_error captured, safe.error fault ⟨ns, ns', captured⟩⟩
  · obtain ⟨e, ns₂, made, -⟩ := Engine.ofSubject_ok captured
    exact .inl ⟨e, ns₂, made⟩

/-- A function is called and started as a thread with one sum, and a block of memory is allocated. -/
def Program.assorted : Program where
  values := #[
    { ty := .int 1, kind := .param 0 0 },
    { ty := .int 32, kind := .const 4 },
    { ty := .int 32, kind := .param 1 0 },
    { ty := .ptr, kind := .function 1 },
    { ty := .ptr, kind := .inst 0 (.call (.direct 2) [1]) },
    { ty := .ptr, kind := .inst 0 (.gep 4 []) },
    { ty := .int 1, kind := .inst 0 (.icmp .eq 1 1) },
    { ty := .int 32, kind := .inst 0 (.select 0 1 1) },
    { ty := .int 32, kind := .inst 0 (.binary .add 7 1) },
    { ty := .void, kind := .inst 0 (.call (.direct 1) [8]) },
    { ty := .int 32, kind := .inst 0 (.call (.direct 3) [5, 5, 3, 8]) },
    { ty := .int 32, kind := .inst 1 (.phi [(0, 8)]) }]
  blocks := #[
    { func := 0, name := "entry", insts := [4, 5, 6, 7, 8, 9, 10], term := .switch 8 1 [(1, 1)] },
    { func := 0, name := "exit", insts := [11], term := .ret none },
    { func := 1, name := "body", term := .ret none }]
  functions := #[
    { name := "main", params := [0], ret := .void, blocks := [0, 1] },
    { name := "helper", params := [2], ret := .void, blocks := [2] },
    { name := "malloc", params := [], ret := .ptr },
    { name := Routine.threadSpawn, params := [], ret := .int 32 }]

theorem Engine.ofSubject_safe_assorted : ∃ survey, Survey.ofProgram .assorted [] = .ok survey ∧
    ∀ (config : Config) (ns : List Notice),
      (∃ e ns', Engine.ofSubject { program := .assorted, survey } config ns = (.ok e, ns')) ∨
        ∃ fault ns', Subject.capture { program := .assorted, survey } config.disable ns = (.error fault, ns') ∧
          Engine.ofSubject { program := .assorted, survey } config ns = (.error fault, ns') ∧ fault.Dangling := by
  have located : Program.assorted.Located := by
    intro v hv
    have inside : v < 12 := by simpa [Program.valueIds, Program.assorted] using hv
    interval_cases v <;> exact ⟨_, rfl⟩
  obtain ⟨survey, made⟩ := Survey.returns_ofProgram (by decide) (by decide) (by decide) located []
  exact ⟨survey, made, Engine.ofSubject_safe (by decide) (by decide) made⟩

end SsaFacts
