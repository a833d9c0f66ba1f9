import SsaFacts.Capture
import SsaFacts.Proofs.Returns
import SsaFacts.Proofs.Translation

/-! The captured facts speak of the results of program values at their model widths and of literals of
those widths, and the sides of every operator and comparison agree in width. -/
namespace SsaFacts

/-- Width of a value in the model; one that does not exist counts as a word. -/
def Program.modelWidth (p : Program) (v : ValueId) : Nat :=
  match p.values[v]? with
  | some x => x.ty.modelWidth
  | none => wordWidth

theorem Ty.modelWidth_cases (t : Ty) : t.modelWidth = boolWidth ∨ t.modelWidth = wordWidth := by
  unfold modelWidth
  split <;> simp

theorem Program.modelWidth_cases (p : Program) (v : ValueId) :
    p.modelWidth v = boolWidth ∨ p.modelWidth v = wordWidth := by
  unfold modelWidth
  split
  · exact Ty.modelWidth_cases _
  · exact .inr rfl

/-- The result of a value in the default activation. -/
def Program.plainLeaf (p : Program) (v : ValueId) : Leaf :=
  { ref := .result v [], width := p.modelWidth v, context := 0 }

/-- A term over results of program values in the default activation; constants stand as literals. -/
def Expr.Stated (p : Program) : Expr → Prop
  | literal l => l.width = boolWidth ∨ l.width = wordWidth
  | leaf l => ∃ v, p.isConstant v = false ∧ l = p.plainLeaf v
  | unary _ e => e.Stated p
  | binary _ l r => l.Stated p ∧ r.Stated p ∧ l.width = r.width

def Clause.Stated (p : Program) : Clause → Prop
  | atom _ l r => l.Stated p ∧ r.Stated p ∧ l.width = r.width
  | not c => c.Stated p
  | and a b | or a b | xor a b => a.Stated p ∧ b.Stated p

namespace Expr
variable {p : Program} {e : Expr}

theorem stated_ofInt {w : Nat} (h : w = boolWidth ∨ w = wordWidth) (z : Int) :
    (Expr.ofInt w z).Stated p := h

theorem stated_word (z : Int) : (Expr.ofInt wordWidth z).Stated p := .inr rfl

theorem stated_bool (b : Bool) : (Expr.literal (.bool b)).Stated p := .inl rfl

theorem Stated.width_cases (h : e.Stated p) : e.width = boolWidth ∨ e.width = wordWidth := by
  induction e with
  | literal l => exact h
  | leaf l =>
    obtain ⟨v, -, rfl⟩ := h
    exact p.modelWidth_cases v
  | unary op e ih => cases op <;> simp [width, UnaryOp.resultWidth]
  | binary op l r ihl ihr => exact ihl h.1

theorem Stated.wellSorted (h : e.Stated p) : e.WellSorted := by
  induction e with
  | literal l =>
    refine Literal.sized_iff.2 ?_
    rcases h with h | h <;> rw [h] <;> decide
  | leaf l => trivial
  | unary op e ih => exact ih h
  | binary op l r ihl ihr => exact ⟨ihl h.1, ihr h.2.1, h.2.2⟩

theorem Stated.extensionsFit (h : e.Stated p) : e.ExtensionsFit := by
  induction e with
  | literal l => trivial
  | leaf l => trivial
  | unary op e ih =>
    have fits : e.width ≤ wordWidth := by
      rcases Stated.width_cases (e := e) h with h | h <;> simp [h, boolWidth, wordWidth]
    cases op with
    | trunc => exact ih h
    | zext | sext => exact ⟨ih h, fits⟩
  | binary op l r ihl ihr => exact ⟨ihl h.1, ihr h.2.1⟩

theorem Stated.leaf_eq (h : e.Stated p) {l : Leaf} (hl : l ∈ e.leaves) :
    ∃ v, p.isConstant v = false ∧ l = p.plainLeaf v := by
  induction e with
  | literal k => simp [leaves] at hl
  | leaf k =>
    obtain rfl : l = k := by simpa [leaves] using hl
    exact h
  | unary op e ih => exact ih h hl
  | binary op a b iha ihb =>
    rcases List.mem_append.1 hl with hl | hl
    · exact iha h.1 hl
    · exact ihb h.2.1 hl

theorem combine_stated (op : BinOp) {l r : Expr} (hl : l.Stated p) (hr : r.Stated p) :
    Gives (combine op l r) (Stated p) := by
  intro e he
  unfold combine at he
  split at he
  · cases he
    exact ⟨hl, hr, ‹_›⟩
  · cases he

end Expr

namespace Clause
variable {p : Program} {c : Clause}

theorem Stated.exprs (h : c.Stated p) {e : Expr} (he : e ∈ c.exprs) : e.Stated p := by
  induction c with
  | atom pred l r =>
    rcases List.mem_pair.1 he with rfl | rfl
    · exact h.1
    · exact h.2.1
  | not c ih => exact ih h he
  | and a b iha ihb | or a b iha ihb | xor a b iha ihb =>
    rcases List.mem_append.1 he with he | he
    · exact iha h.1 he
    · exact ihb h.2 he

theorem Stated.wellSorted (h : c.Stated p) : c.WellSorted := by
  induction c with
  | atom pred l r => exact ⟨h.1.wellSorted, h.2.1.wellSorted, h.2.2⟩
  | not c ih => exact ih h
  | and a b iha ihb | or a b iha ihb | xor a b iha ihb => exact ⟨iha h.1, ihb h.2⟩

theorem Stated.leaf_eq (h : c.Stated p) {l : Leaf} (hl : l ∈ c.leaves) :
    ∃ v, p.isConstant v = false ∧ l = p.plainLeaf v := by
  obtain ⟨e, he, hl⟩ := List.mem_flatMap.1 hl
  exact (h.exprs he).leaf_eq hl

theorem compare_stated (pred : Predicate) {l r : Expr} (hl : l.Stated p) (hr : r.Stated p) :
    Gives (compare pred l r) (Stated p) := by
  intro c hc
  unfold compare at hc
  split at hc
  · cases hc
    exact ⟨hl, hr, ‹_›⟩
  · cases hc

theorem any_stated {cs : List Clause} (h : ∀ c ∈ cs, c.Stated p) : ∀ c ∈ any cs, c.Stated p := by
  cases cs with
  | nil => simp [any]
  | cons c rest =>
    have all : ∀ (rest : List Clause) (c : Clause), c.Stated p → (∀ d ∈ rest, d.Stated p) →
        (rest.foldl .or c).Stated p := by
      intro rest
      induction rest with
      | nil => exact fun c hc _ => hc
      | cons d rest ih =>
        intro c hc hrest
        exact ih (.or c d) ⟨hc, hrest d (by simp)⟩ fun x hx => hrest x (by simp [hx])
    simp only [any, Option.mem_def, Option.some.injEq, forall_eq']
    exact all rest c (h c (by simp)) fun d hd => h d (by simp [hd])

end Clause

namespace Program
variable (p : Program)

theorem width_gives (v : ValueId) : Gives (p.width v) (· = p.modelWidth v) := by
  intro w hw
  unfold width ty value at hw
  unfold modelWidth
  cases h : p.values[v]? with
  | none =>
    rw [h] at hw
    cases hw
  | some x =>
    rw [h] at hw
    cases hw
    rfl

theorem const?_gives (v : ValueId) : Gives (p.const? v) (fun c => p.isConstant v = c.isSome) := by
  intro c hc
  unfold const? kind value at hc
  unfold isConstant kind?
  cases h : p.values[v]? with
  | none =>
    rw [h] at hc
    cases hc
  | some x =>
    rw [h] at hc
    cases hc
    rfl

theorem leaf_stated (v : ValueId) : Gives (p.leaf v) (Expr.Stated p) := by
  refine (p.width_gives v).bind fun w hw => (p.const?_gives v).bind fun c hc => ?_
  subst hw
  cases c with
  | some z => exact .pure (Expr.stated_ofInt (p.modelWidth_cases v) z)
  | none => exact .pure ⟨v, hc, rfl⟩

end Program

namespace Subject
variable (s : Subject)

theorem equal_stated (a b : ValueId) : Gives (s.equal a b) (Clause.Stated s.program) :=
  (s.program.leaf_stated a).bind fun _ ha => (s.program.leaf_stated b).bind fun _ hb =>
    Clause.compare_stated .eq ha hb

theorem ofInt_stated (v : ValueId) (z : Int) :
    Gives (do return Expr.ofInt (← s.program.width v) z) (Expr.Stated s.program) :=
  (s.program.width_gives v).bind fun _ hw =>
    .pure (Expr.stated_ofInt (hw ▸ s.program.modelWidth_cases v) z)

theorem factor_stated (v : ValueId) : Gives (s.factor v) (Expr.Stated s.program) := by
  unfold factor
  refine .after fun c => ?_
  cases c with
  | none => exact s.program.leaf_stated v
  | some z =>
    dsimp only
    split
    · exact s.ofInt_stated v _
    · exact s.program.leaf_stated v

theorem shiftAmount_stated (v : ValueId) : Gives (s.shiftAmount v) (Expr.Stated s.program) := by
  unfold shiftAmount
  refine .after fun c => ?_
  cases c with
  | none => exact s.program.leaf_stated v
  | some z => exact s.ofInt_stated v _

theorem inBinary_stated (user : ValueId) (op : BinOp) (l r : ValueId) :
    Gives (s.inBinary user op l r) fun o => ∀ c ∈ o, c.Stated s.program := by
  have equals {x y : Checked Expr} (hx : Gives x (Expr.Stated s.program))
      (hy : Gives y (Expr.Stated s.program)) :
      Gives (do
        let rhs ← Expr.combine op (← x) (← y)
        return some (← Clause.equal (← s.program.leaf user) rhs)) fun o => ∀ c ∈ o, c.Stated s.program :=
    hx.bind fun a ha => hy.bind fun b hb => (Expr.combine_stated op ha hb).bind fun e he =>
      (s.program.leaf_stated user).bind fun u hu => (Clause.compare_stated .eq hu he).some
  unfold inBinary
  refine .after fun seen => ?_
  split
  · exact .none
  · dsimp only
    split
    · exact equals (s.program.leaf_stated l) (s.shiftAmount_stated r)
    · exact equals (s.program.leaf_stated l) (s.shiftAmount_stated r)
    · exact equals (s.program.leaf_stated l) (s.shiftAmount_stated r)
    · exact equals (s.factor_stated l) (s.factor_stated r)
    · exact equals (s.program.leaf_stated l) (s.program.leaf_stated r)

theorem inIcmp_stated (user : ValueId) (pred : Predicate) (l r : ValueId) :
    Gives (s.inIcmp user pred l r) fun o => ∀ c ∈ o, c.Stated s.program := by
  unfold inIcmp
  refine .after fun seen => ?_
  split
  · exact .none
  · refine (s.program.leaf_stated l).bind fun a ha => (s.program.leaf_stated r).bind fun b hb => ?_
    refine (Clause.compare_stated pred ha hb).bind fun holds hholds => ?_
    refine (s.program.leaf_stated user).bind fun u hu => ?_
    refine (Clause.compare_stated .eq hu (Expr.stated_bool false)).bind fun isFalse hfalse => .pure ?_
    simpa using ⟨hfalse, hholds⟩

theorem inCast_stated (user : ValueId) (op : CastOp) (x : ValueId) :
    Gives (s.inCast user op x) fun o => ∀ c ∈ o, c.Stated s.program := by
  unfold inCast
  refine .after fun seen => ?_
  split
  · exact .none
  · refine (s.program.leaf_stated user).bind fun u hu => .after fun given => .after fun wanted => ?_
    refine (s.program.leaf_stated x).bind fun e he => ?_
    have cast (op : UnaryOp) : (Expr.unary op e).Stated s.program := he
    split
    · split
      · exact (Clause.compare_stated .eq hu (cast .zext)).some
      · exact (Clause.compare_stated .eq hu (cast .sext)).some
      · exact .none
    · split
      · exact (Clause.compare_stated .eq hu (cast .trunc)).some
      · exact (Clause.compare_stated .eq hu he).some

theorem stepExpr?_stated (step : GepStep) :
    Gives (s.stepExpr? step) fun o => ∀ e ∈ o, e.Stated s.program := by
  cases step with
  | field offset => exact .pure (by simpa using Expr.stated_word _)
  | index size index =>
    refine (s.program.leaf_stated index).bind fun i hi => ?_
    split
    · exact .none
    · split
      · exact (Expr.combine_stated .shl hi (Expr.stated_word _)).some
      · exact (Expr.combine_stated .mul (Expr.stated_word _) hi).some

theorem address?_stated {base : Expr} (hbase : base.Stated s.program) (steps : List GepStep) :
    Gives (s.address? base steps) fun o => ∀ e ∈ o, e.Stated s.program := by
  induction steps generalizing base with
  | nil => exact .pure (by simpa using hbase)
  | cons step rest ih =>
    refine (s.stepExpr?_stated step).bind fun o ho => ?_
    cases o with
    | none => exact .none
    | some bytes => exact (Expr.combine_stated .add hbase (ho bytes rfl)).bind fun e he => ih he

theorem inGep_stated (user base : ValueId) (steps : List GepStep) :
    Gives (s.inGep user base steps) fun o => ∀ c ∈ o, c.Stated s.program := by
  unfold inGep
  refine .after fun seen => ?_
  split
  · exact .none
  · refine (s.program.leaf_stated base).bind fun b hb => ?_
    refine (s.address?_stated hb steps).bind fun o ho => ?_
    cases o with
    | none => exact .none
    | some e =>
      refine (s.program.leaf_stated user).bind fun u hu => ?_
      exact (Clause.compare_stated .eq hu (ho e rfl)).some

theorem inSelect_stated (user cond ifTrue ifFalse : ValueId) :
    Gives (s.inSelect user cond ifTrue ifFalse) fun o => ∀ c ∈ o, c.Stated s.program := by
  unfold inSelect
  refine .after fun seen => ?_
  split
  · exact .none
  · refine .after fun w => ?_
    split
    · exact .none
    · refine (s.program.leaf_stated cond).bind fun c hc => ?_
      refine (s.program.leaf_stated user).bind fun r hr => ?_
      refine (Clause.compare_stated .eq hc (Expr.stated_bool false)).bind fun isFalse hfalse => ?_
      refine (s.program.leaf_stated ifTrue).bind fun t ht => ?_
      refine (Clause.compare_stated .eq hr ht).bind fun first hfirst => ?_
      refine (Clause.compare_stated .eq hc (Expr.stated_bool true)).bind fun isTrue htrue => ?_
      refine (s.program.leaf_stated ifFalse).bind fun f hf => ?_
      refine (Clause.compare_stated .eq hr hf).bind fun second hsecond => .pure ?_
      simpa using ⟨⟨hfalse, hfirst⟩, htrue, hsecond⟩

theorem any_equal_stated {α : Type} (v : ValueId) (f : α → ValueId) (xs : List α) :
    Gives (do return Clause.any (← xs.mapM fun x => s.equal v (f x)))
      fun o => ∀ c ∈ o, c.Stated s.program :=
  (Gives.mapM fun x _ => s.equal_stated v (f x)).bind fun _ hcs => .pure (Clause.any_stated hcs)

theorem inPhi_stated (user : ValueId) (incoming : List (BlockId × ValueId)) :
    Gives (s.inPhi user incoming) fun o => ∀ c ∈ o, c.Stated s.program := by
  unfold inPhi
  refine .after fun b => ?_
  split
  · split
    · exact s.any_equal_stated user _ incoming
    · exact .none
  · exact .none

theorem inUser_stated (user : ValueId) : Gives (s.inUser user) fun o => ∀ c ∈ o, c.Stated s.program := by
  unfold inUser
  refine .after fun op => ?_
  split
  · exact s.inBinary_stated user _ _ _
  · exact s.inIcmp_stated user _ _ _
  · exact s.inCast_stated user _ _
  · exact s.inGep_stated user _ _
  · exact s.inSelect_stated user _ _ _
  · exact s.inPhi_stated user _
  · exact .none

theorem inArgument_stated (formal : ValueId) :
    Gives (s.inArgument formal) fun o => ∀ c ∈ o, c.Stated s.program := by
  unfold inArgument
  refine .after fun kind => ?_
  split
  · refine .after fun f => ?_
    split
    · exact .none
    · refine .after fun actuals => .after fun actuals => ?_
      exact s.any_equal_stated formal id actuals
  · exact .none

theorem topLevelFacts_stated (fixed : List ValueId) :
    Gives (s.topLevelFacts fixed) fun cs => ∀ c ∈ cs, c.Stated s.program := by
  unfold topLevelFacts
  refine (Gives.filterMapM fun v _ => s.inUser_stated v).bind fun defined hdefined => ?_
  refine (Gives.filterMapM (Q := Clause.Stated s.program) fun v _ => .after fun seen => ?_).bind
    fun bound hbound => .pure ?_
  · split
    · exact s.inArgument_stated v
    · exact .none
  · intro c hc
    rcases List.mem_append.1 hc with hc | hc
    · exact hdefined c hc
    · exact hbound c hc

theorem mustAssign_stated (isFixed : ValueId → Bool) (load : ValueId) :
    Gives (s.mustAssign isFixed load) fun o => ∀ c ∈ o, c.Stated s.program := by
  unfold mustAssign
  refine .after fun op => ?_
  split
  · split
    · exact .none
    · refine .after fun source => ?_
      split
      · split
        · exact .none
        · refine .after fun seen => ?_
          split
          · exact .none
          · split
            · exact .none
            · refine .after fun w => .after fun w' => ?_
              split
              · exact .none
              · refine .after fun path => .after fun written => ?_
                split
                · exact .none
                · exact (s.equal_stated load _).some
      · exact .none
  · exact .none

theorem inGlobal_stated (g : ValueId) :
    Gives (s.inGlobal g) fun cs => ∀ c ∈ cs, c.Stated s.program := by
  unfold inGlobal
  refine .after fun loads => .after fun kind => ?_
  split
  · refine Gives.mapM fun l _ => (s.program.leaf_stated l).bind fun e he => ?_
    refine (s.program.width_gives l).bind fun w hw => ?_
    exact Clause.compare_stated .eq he (Expr.stated_ofInt (hw ▸ s.program.modelWidth_cases l) _)
  · refine Gives.filterMapM fun pair _ => .after fun w => .after fun w' => ?_
    split
    · exact (s.equal_stated pair.1 pair.2).some
    · exact .none
  · exact .pure (by simp)

theorem flatten_stated {css : List (List Clause)} (h : ∀ cs ∈ css, ∀ c ∈ cs, c.Stated s.program) :
    ∀ c ∈ css.flatten, c.Stated s.program := by
  intro c hc
  obtain ⟨cs, hcs, hc⟩ := List.mem_flatten.1 hc
  exact h cs hcs c hc

theorem loadFacts_stated (isFixed : ValueId → Bool) :
    Gives (s.loadFacts isFixed) fun cs => ∀ c ∈ cs, c.Stated s.program := by
  unfold loadFacts
  refine .after fun loads => ?_
  refine (Gives.filterMapM fun l _ => s.mustAssign_stated isFixed l).bind fun assigned hassigned => ?_
  refine (Gives.mapM fun g _ => s.inGlobal_stated g).bind fun shared hshared => .pure ?_
  exact List.forall_mem_append.2 ⟨hassigned, s.flatten_stated hshared⟩

theorem avoidBranch_stated (b : BlockId) (i : Nat) :
    Gives (s.avoidBranch b i) fun o => ∀ c ∈ o, c.Stated s.program := by
  have isBool (cond : ValueId) (t : Bool) :
      Gives (do return some (← Clause.equal (← s.program.leaf cond) (.literal (.bool t))))
        fun o => ∀ c ∈ o, c.Stated s.program :=
    (s.program.leaf_stated cond).bind fun e he =>
      (Clause.compare_stated .eq he (Expr.stated_bool t)).some
  unfold avoidBranch
  refine .after fun block => ?_
  split
  · refine .after fun seen => ?_
    split
    · exact .none
    · refine .after fun w => ?_
      split
      · exact .none
      · split
        · exact isBool _ false
        · exact isBool _ true
        · exact .none
  · refine .after fun seen => ?_
    split
    · exact .none
    · split
      · exact s.any_equal_stated _ _ _
      · split
        · exact .none
        · refine (s.program.leaf_stated _).bind fun e he => ?_
          refine (s.program.leaf_stated _).bind fun e' he' => ?_
          exact (Clause.compare_stated .ne he he').some
  · exact .none

theorem excludeEdge_stated (b : BlockId) (i : Nat) :
    Gives (s.excludeEdge b i) fun o => ∀ c ∈ o, c.Stated s.program := by
  unfold excludeEdge
  refine .after fun block => ?_
  dsimp only
  split
  · exact .after fun _ => (s.avoidBranch_stated b i).lift
  · exact (s.avoidBranch_stated b i).lift

theorem edgeExclusions_stated (f : FuncId) :
    Gives (s.edgeExclusions f) fun cs => ∀ c ∈ cs, c.Stated s.program := by
  unfold edgeExclusions
  refine .after fun function => ?_
  split
  · refine (Gives.mapM (Q := fun cs => ∀ c ∈ cs, c.Stated s.program) fun b _ => .after fun block => ?_).bind
      fun facts hfacts => .pure (s.flatten_stated hfacts)
    dsimp only
    split
    · exact Gives.filterMapM fun e _ => s.excludeEdge_stated b e.2
    · exact .pure (by simp)
  · exact .pure (by simp)

theorem markerFacts_stated (f : FuncId) :
    Gives (s.markerFacts f) fun cs => ∀ c ∈ cs, c.Stated s.program := by
  refine Gives.filterMapM fun i _ => .after fun o => ?_
  cases o with
  | none => exact .none
  | some pair => exact Gives.some (s.equal_stated pair.1 pair.2).lift

theorem onceEdgeFacts_stated : Gives s.onceEdgeFacts fun cs => ∀ c ∈ cs, c.Stated s.program := by
  unfold onceEdgeFacts
  refine (Gives.mapM (Q := fun cs => ∀ c ∈ cs, c.Stated s.program) fun f _ => ?_).bind
    fun css hcss => .pure (s.flatten_stated hcss)
  refine (s.edgeExclusions_stated f).bind fun edges hedges => ?_
  refine (s.markerFacts_stated f).bind fun markers hmarkers => .pure ?_
  exact List.forall_mem_append.2 ⟨hedges, hmarkers⟩

theorem wordArg?_stated (v : ValueId) :
    Gives (s.wordArg? v) fun o => ∀ e ∈ o, e.Stated s.program := by
  refine (s.program.leaf_stated v).bind fun e he => .after fun seen => .pure ?_
  split
  · simpa using he
  · simp

theorem lengthFact?_stated (call len : ValueId) :
    Gives (s.lengthFact? call len) fun o => ∀ c ∈ o, c.Stated s.program := by
  refine (s.wordArg?_stated len).bind fun o ho => ?_
  cases o with
  | none => exact .none
  | some n =>
    have hn := ho n rfl
    refine (Clause.compare_stated .slt hn (Expr.stated_word 0)).bind fun negative hnegative => ?_
    refine (s.program.leaf_stated call).bind fun result hresult => ?_
    refine (Clause.compare_stated .sle hresult hn).bind fun bounded hbounded => .pure ?_
    simpa using ⟨hnegative, hbounded⟩

theorem inLibraryCall_stated (call : ValueId) :
    Gives (s.inLibraryCall call) fun cs => ∀ c ∈ cs, c.Stated s.program := by
  unfold inLibraryCall
  refine .after fun name => ?_
  split
  · exact .pure (by simp)
  · refine .after fun seen => ?_
    split
    · exact .pure (by simp)
    · refine .after fun w => ?_
      split
      · exact .pure (by simp)
      · refine (s.program.leaf_stated call).bind fun result hresult => ?_
        refine (Clause.compare_stated .sge hresult (Expr.stated_word _)).bind fun least hleast => ?_
        refine .after fun args => ?_
        split
        · exact .pure (by simpa using hleast)
        · refine (s.lengthFact?_stated call _).bind fun o ho => .pure ?_
          simpa using ⟨hleast, ho⟩

structure Extent.Stated (p : Program) (x : Extent) : Prop where
  start : x.start.Stated p
  size : x.size.Stated p

theorem allocated?_stated (inst : ValueId) :
    Gives (s.allocated? inst) fun o => ∀ e ∈ o, e.Stated s.program := by
  unfold allocated?
  refine .after fun op => ?_
  split
  · exact .pure (by simpa using Expr.stated_word _)
  · refine .after fun name => .after fun args => ?_
    split
    · exact s.wordArg?_stated _
    · exact s.wordArg?_stated _
    · refine (s.wordArg?_stated _).bind fun count hcount => ?_
      split
      · exact .none
      · rename_i n
        refine (s.wordArg?_stated _).bind fun size hsize => ?_
        split
        · exact .none
        · rename_i m
          exact (Expr.combine_stated .mul (hcount n rfl) (hsize m rfl)).some
    · exact .none

theorem extent?_stated (isFixed : ValueId → Bool) (inst : ValueId) :
    Gives (s.extent? isFixed inst) fun o => ∀ x ∈ o, x.Stated s.program := by
  unfold extent?
  split
  · exact .none
  · refine .after fun seen => ?_
    split
    · exact .none
    · refine (s.allocated?_stated inst).bind fun o ho => ?_
      split
      · exact .none
      · rename_i size
        refine (s.program.leaf_stated inst).bind fun start hstart => .pure ?_
        simpa using ⟨hstart, ho size rfl⟩

theorem extentFacts_stated {xs : List Extent} (h : ∀ x ∈ xs, x.Stated s.program) :
    Gives (extentFacts xs) fun cs => ∀ c ∈ cs, c.Stated s.program := by
  unfold extentFacts
  refine (Gives.mapM (Q := Clause.Stated s.program) fun x hx => ?_).bind fun ranges hranges => ?_
  · refine (Expr.combine_stated .sub (Expr.stated_word _) (h x hx).size).bind fun e he => ?_
    exact Clause.compare_stated .sle (h x hx).start he
  · refine (Gives.mapM (Q := Clause.Stated s.program) fun pair hpair => ?_).bind fun orders horders => .pure ?_
    · have first := h pair.1 (List.of_mem_zip hpair).1
      have second := h pair.2 (List.mem_of_mem_tail (List.of_mem_zip hpair).2)
      refine (Expr.combine_stated .add first.start first.size).bind fun e he => ?_
      exact Clause.compare_stated .sle he second.start
    · exact List.forall_mem_append.2 ⟨hranges, horders⟩

theorem libraryFacts_stated (isFixed : ValueId → Bool) :
    Gives (s.libraryFacts isFixed) fun cs => ∀ c ∈ cs, c.Stated s.program := by
  unfold libraryFacts
  refine (Gives.mapM fun i _ => s.inLibraryCall_stated i).bind fun results hresults => ?_
  refine (Gives.filterMapM fun i _ => s.extent?_stated isFixed i).bind fun extents hextents => ?_
  refine (s.extentFacts_stated hextents).bind fun facts hfacts => .pure ?_
  exact List.forall_mem_append.2 ⟨s.flatten_stated hresults, hfacts⟩

theorem dropRepeats_subset {α : Type} [DecidableEq α] (xs : List α) : dropRepeats xs ⊆ xs := by
  fun_induction dropRepeats xs with
  | case1 => simp
  | case2 a => simp
  | case3 a rest ih => exact List.subset_cons_of_subset a ih
  | case4 a b rest ne ih => exact List.cons_subset_cons a ih

theorem sort_stated {p : Program} {cs : List Clause} (h : ∀ c ∈ cs, c.Stated p) :
    Gives (Clause.sort cs) fun ds => ∀ c ∈ ds, c.Stated p := by
  refine (Gives.mapM (Q := fun k => k.2.Stated p) fun c hc => .after fun _ => .pure (h c hc)).bind
    fun keyed hkeyed => .pure ?_
  intro c hc
  obtain ⟨k, hk, rfl⟩ := List.mem_map.1 hc
  exact hkeyed k (List.mem_mergeSort.1 hk)

theorem capture_stated (disable : Bool) :
    Gives (s.capture disable) fun c => ∀ f ∈ c.facts, f.Stated s.program := by
  unfold capture
  refine .after fun fixed => ?_
  refine Gives.bind (s.topLevelFacts_stated fixed).lift fun top htop => ?_
  refine Gives.bind (s.loadFacts_stated _).lift fun loads hloads => ?_
  refine s.onceEdgeFacts_stated.bind fun edges hedges => ?_
  refine Gives.bind (s.libraryFacts_stated _).lift fun library hlibrary => ?_
  have all := List.forall_mem_append.2 ⟨List.forall_mem_append.2 ⟨List.forall_mem_append.2
    ⟨htop, hloads⟩, hedges⟩, hlibrary⟩
  refine Gives.bind (sort_stated all).lift fun sorted hsorted => .pure ?_
  cases disable with
  | true => simp
  | false => exact fun f hf => hsorted f (dropRepeats_subset sorted hf)

end Subject
end SsaFacts
