import SsaFacts.Proofs.Holding
import SsaFacts.Proofs.Substitution

/-! Clauses under other names. A renaming of leaves changes nothing that folding can tell and nothing but the
names in what is asserted, so a renamed clause is accepted where the clause is, with the values moved along.
The same goes for a clause whose comparisons are all turned around. -/
namespace SsaFacts

open Smt

namespace Smt

def Term.rename (ρ : String → String) : Term → Term
  | name n => name (ρ n)
  | const l => const l
  | neg t => neg (t.rename ρ)
  | extract high low t => extract high low (t.rename ρ)
  | zeroExtend n t => zeroExtend n (t.rename ρ)
  | signExtend n t => signExtend n (t.rename ρ)
  | app f a b => app f (a.rename ρ) (b.rename ρ)

def Formula.rename (ρ : String → String) : Formula → Formula
  | rel r a b => rel r (a.rename ρ) (b.rename ρ)
  | not f => not (f.rename ρ)
  | and f g => and (f.rename ρ) (g.rename ρ)
  | or f g => or (f.rename ρ) (g.rename ρ)
  | xor f g => xor (f.rename ρ) (g.rename ρ)

/-- Every name is assigned what its new name is. -/
def Assignment.through (ν : Assignment) (ρ : String → String) : Assignment where
  value n := ν.value (ρ n)
  nonempty n := ν.nonempty (ρ n)

variable {ν : Assignment} {ρ : String → String}

@[simp] theorem Term.eval_rename (t : Term) : (t.rename ρ).eval ν = t.eval (ν.through ρ) := by
  induction t with
  | name n => rfl
  | const l => rfl
  | neg t ih | extract high low t ih | zeroExtend n t ih | signExtend n t ih => simp only [rename, eval, ih]
  | app f a b iha ihb => simp only [rename, eval, iha, ihb]

@[simp] theorem Formula.eval_rename (f : Formula) : (f.rename ρ).eval ν = f.eval (ν.through ρ) := by
  induction f with
  | rel r a b => simp only [rename, eval, Term.eval_rename]
  | not f ih => simp only [rename, eval, ih]
  | and f g ihf ihg | or f g ihf ihg | xor f g ihf ihg => simp only [rename, eval, ihf, ihg]

theorem rename_guard? (g : Guards) (op : BinOp) (a b r : Term) :
    guard? g op (a.rename ρ) (b.rename ρ) (r.rename ρ) = (guard? g op a b r).map (Formula.rename ρ) := by
  unfold guard?
  split
  · split <;> rfl
  · split
    · cases op <;> rfl
    · rfl

theorem rename_comparison (p : Predicate) (a b : Term) :
    comparison p (a.rename ρ) (b.rename ρ) = (comparison p a b).rename ρ := by
  cases p <;> rfl

def Mention.map (f : Leaf → Leaf) : Mention → Mention
  | leaf l => leaf (f l)
  | const k => const k

end Smt

/-- A way to rename leaves that keeps their widths and keeps them apart. Leaves that a solver cannot tell
apart are not told apart after it. -/
structure Renaming where
  leaf : Leaf → Leaf
  width_eq : ∀ l, (leaf l).width = l.width
  injective : Function.Injective leaf
  name_eq : ∀ l m : Leaf, l.solverName = m.solverName → (leaf l).solverName = (leaf m).solverName

namespace Renaming

/-- What becomes of a name. -/
noncomputable def name (τ : Renaming) : String → String :=
  Function.extend Leaf.solverName (fun l => (τ.leaf l).solverName) id

@[simp] theorem name_solverName (τ : Renaming) (l : Leaf) : τ.name l.solverName = (τ.leaf l).solverName :=
  Function.FactorsThrough.extend_apply (fun l m => τ.name_eq l m) id l

end Renaming

namespace Expr
variable (τ : Renaming) (g : Guards)

@[simp] theorem width_renamed (e : Expr) : (e.mapLeaves τ.leaf).width = e.width := by
  unfold mapLeaves
  induction e with
  | literal l => rfl
  | leaf l => exact τ.width_eq l
  | unary op e ih => rfl
  | binary op l r ihl ihr => exact ihl

@[simp] theorem literal?_mapLeaves (f : Leaf → Leaf) (e : Expr) : (e.mapLeaves f).literal? = e.literal? := by
  cases e <;> rfl

theorem mapLeaves_injective : Function.Injective (mapLeaves τ.leaf) := by
  have : Nonempty Leaf := ⟨⟨.previous 0, 0, 0⟩⟩
  obtain ⟨back, undo⟩ := τ.injective.hasLeftInverse
  have undone : Function.LeftInverse (mapLeaves back) (mapLeaves τ.leaf) := by
    intro e
    rw [mapLeaves, mapLeaves, subst_subst]
    refine (subst_congr fun l _ => ?_).trans e.subst_leaf
    exact congrArg Expr.leaf (undo l)
  exact undone.injective

@[simp] theorem shape_renamed (op : BinOp) (l r : Expr) :
    shape g op (l.mapLeaves τ.leaf) (r.mapLeaves τ.leaf) = shape g op l r := by
  simp only [shape, scale?, literal?_mapLeaves]

theorem amount_renamed (op : BinOp) (w : Nat) (r : Expr) (b : Term) :
    amount op w (r.mapLeaves τ.leaf) (b.rename τ.name) = (amount op w r b).rename τ.name := by
  rw [amount, amount, modulus?, modulus?, literal?_mapLeaves]
  split <;> rfl

theorem encode_renamed (e : Expr) : (e.mapLeaves τ.leaf).encode g = (e.encode g).rename τ.name := by
  induction e with
  | literal l => rfl
  | leaf l => exact congrArg Term.name (τ.name_solverName l).symm
  | unary op e ih =>
    show (unary op (e.mapLeaves τ.leaf)).encode g = _
    cases op with
    | trunc => rw [encode, encode, ih, Term.rename]
    | zext | sext =>
      rw [encode, encode, ih, width_renamed]
      split <;> rfl
  | binary op l r ihl ihr =>
    show (binary op (l.mapLeaves τ.leaf) (r.mapLeaves τ.leaf)).encode g = _
    rw [encode, encode, shape_renamed, ihl, ihr]
    split
    · rfl
    · rfl
    · rw [width_renamed, Term.rename, Term.rename]
    · rw [width_renamed, Term.rename, Term.rename]
    · rw [amount_renamed, width_renamed, Term.rename]

theorem mentions_renamed (e : Expr) :
    (e.mapLeaves τ.leaf).mentions g = (e.mentions g).map (Mention.map τ.leaf) := by
  induction e with
  | literal l => rfl
  | leaf l => rfl
  | unary op e ih => exact ih
  | binary op l r ihl ihr =>
    show (binary op (l.mapLeaves τ.leaf) (r.mapLeaves τ.leaf)).mentions g = _
    rw [mentions, mentions, shape_renamed, ihl, ihr, width_renamed]
    split
    · rfl
    · rfl
    · rw [List.map_append]
      rfl
    · rw [List.map_append]
      rfl
    · rw [modulus?, modulus?, literal?_mapLeaves, List.map_append, List.map_append]
      split <;> rfl

theorem guards_renamed (e : Expr) :
    (e.mapLeaves τ.leaf).guards g = (e.guards g).map (Formula.rename τ.name) := by
  induction e with
  | literal l => rfl
  | leaf l => rfl
  | unary op e ih => exact ih
  | binary op l r ihl ihr =>
    show (binary op (l.mapLeaves τ.leaf) (r.mapLeaves τ.leaf)).guards g = _
    rw [guards, guards, shape_renamed, ihl, ihr, width_renamed]
    split
    · rfl
    · rfl
    · rfl
    · rfl
    · dsimp only
      rw [encode_renamed, encode_renamed, amount_renamed, List.map_append, List.map_append]
      split
      · rw [← Option.toList_map, ← rename_guard?, Term.rename]
      · rfl

theorem fold_renamed (e : Expr) : (e.mapLeaves τ.leaf).fold = e.fold.map (mapLeaves τ.leaf) := by
  induction e with
  | literal l => rfl
  | leaf l => rfl
  | unary op e ih =>
    show (unary op (e.mapLeaves τ.leaf)).fold = _
    rw [fold, fold, ih]
    cases e.fold with
    | error f => rfl
    | ok d =>
      cases d with
      | literal l =>
        show (do return Expr.literal (← op.eval l) : Checked Expr) =
          (do return Expr.literal (← op.eval l) : Checked Expr).map (mapLeaves τ.leaf)
        cases op.eval l <;> rfl
      | leaf | unary | binary => rfl
  | binary op l r ihl ihr =>
    show (binary op (l.mapLeaves τ.leaf) (r.mapLeaves τ.leaf)).fold = _
    have combined (a b : Expr) : combine op (a.mapLeaves τ.leaf) (b.mapLeaves τ.leaf) =
        (combine op a b).map (mapLeaves τ.leaf) := by
      rw [combine, combine, width_renamed, width_renamed]
      split <;> rfl
    rw [fold, fold, ihl, ihr]
    cases l.fold with
    | error f => rfl
    | ok a =>
      cases r.fold with
      | error f => rfl
      | ok b =>
        cases a with
        | leaf | unary | binary => exact combined _ _
        | literal k =>
          cases b with
          | leaf | unary | binary => exact combined _ _
          | literal m =>
            have same (n : Literal) : (literal n).mapLeaves τ.leaf = literal n := rfl
            simp only [Except.map, same, Checked.ok_bind]
            rcases op.eval k m with f | _ | c
            · rfl
            · exact combined (literal k) (literal m)
            · rfl

end Expr

namespace Clause
variable (τ : Renaming) (g : Guards) {c : Clause} {ν : Assignment}

theorem exprs_mapLeaves (f : Leaf → Leaf) (c : Clause) : (c.mapLeaves f).exprs = c.exprs.map (Expr.mapLeaves f) :=
  exprs_subst _ c

theorem encode_renamed (c : Clause) : (c.mapLeaves τ.leaf).encode g = (c.encode g).rename τ.name := by
  unfold mapLeaves
  induction c with
  | atom pred l r =>
    rw [encode, ← rename_comparison, ← Expr.encode_renamed, ← Expr.encode_renamed]
    rfl
  | not c ih => rw [subst, encode, encode, ih, Formula.rename]
  | and a b iha ihb | or a b iha ihb | xor a b iha ihb =>
    rw [subst, encode, encode, iha, ihb, Formula.rename]

theorem formulas_renamed (c : Clause) :
    (c.mapLeaves τ.leaf).formulas g = (c.formulas g).map (Formula.rename τ.name) := by
  have each (e : Expr) : (e.mapLeaves τ.leaf).guards g = (e.guards g).map (Formula.rename τ.name) :=
    e.guards_renamed τ g
  rw [formulas, formulas, List.map_cons, encode_renamed, guards, guards, exprs_mapLeaves, List.flatMap_map,
    List.map_flatMap]
  simp only [each]

theorem const_mem_mentions_renamed {k : Literal} :
    .const k ∈ (c.mapLeaves τ.leaf).mentions g ↔ .const k ∈ c.mentions g := by
  have each (e : Expr) : .const k ∈ (e.mapLeaves τ.leaf).mentions g ↔ .const k ∈ e.mentions g := by
    rw [Expr.mentions_renamed, List.mem_map]
    constructor
    · rintro ⟨m | m, hm, same⟩ <;> cases same
      exact hm
    · exact fun hk => ⟨_, hk, rfl⟩
  rw [mentions, mentions, exprs_mapLeaves, List.flatMap_map]
  simp only [List.mem_flatMap, each]

/-- A renamed clause is accepted where the clause is, with the values moved along. -/
theorem accepts_renamed : ν.Accepts g (c.mapLeaves τ.leaf) ↔ (ν.through τ.name).Accepts g c := by
  have env (l : Leaf) : (ν.through τ.name).env l = ν.env (τ.leaf l) :=
    congrArg ν.value (τ.name_solverName l)
  constructor
  · rintro ⟨widths, holds⟩
    rw [leaves_mapLeaves, List.forall_mem_map] at widths
    rw [formulas_renamed, List.forall_mem_map] at holds
    refine ⟨fun l hl => ?_, fun f hf => ?_⟩
    · rw [env, widths l hl, τ.width_eq]
    · rw [← Formula.eval_rename, holds f hf]
  · rintro ⟨widths, holds⟩
    refine ⟨?_, ?_⟩
    · rw [leaves_mapLeaves, List.forall_mem_map]
      intro l hl
      rw [← env, widths l hl, τ.width_eq]
    · rw [formulas_renamed, List.forall_mem_map]
      intro f hf
      rw [Formula.eval_rename, holds f hf]

theorem simplify_renamed (c : Clause) : (c.mapLeaves τ.leaf).simplify = c.simplify := by
  unfold mapLeaves
  induction c with
  | atom pred l r =>
    show (atom pred (l.mapLeaves τ.leaf) (r.mapLeaves τ.leaf)).simplify = _
    rw [simplify, simplify, Expr.fold_renamed, Expr.fold_renamed]
    cases l.fold with
    | error f => rfl
    | ok a =>
      cases r.fold with
      | error f => rfl
      | ok b =>
        have same : a.mapLeaves τ.leaf = b.mapLeaves τ.leaf ↔ a = b := (Expr.mapLeaves_injective τ).eq_iff
        simp only [Except.map, Checked.ok_bind, same]
        cases a with
        | leaf | unary | binary => rfl
        | literal k => cases b <;> rfl
  | not c ih => rw [subst, simplify, simplify, ih]
  | and a b iha ihb | or a b iha ihb | xor a b iha ihb => rw [subst, simplify, simplify, iha, ihb]

theorem isTautology_renamed (c : Clause) : (c.mapLeaves τ.leaf).isTautology = c.isTautology := by
  cases c with
  | not c | and a b | or a b | xor a b => rfl
  | atom pred l r =>
    have same : l.mapLeaves τ.leaf = r.mapLeaves τ.leaf ↔ l = r := (Expr.mapLeaves_injective τ).eq_iff
    show (pred.isReflexive && decide (l.mapLeaves τ.leaf = r.mapLeaves τ.leaf)) = _
    simp only [same, isTautology]

end Clause

def Predicate.mirrored : Predicate → Predicate
  | eq => eq
  | ne => ne
  | ugt => ult
  | uge => ule
  | ult => ugt
  | ule => uge
  | sgt => slt
  | sge => sle
  | slt => sgt
  | sle => sge

namespace Predicate

theorem mirrored_mirrored (p : Predicate) : p.mirrored.mirrored = p := by
  cases p <;> rfl

theorem isReflexive_mirrored (p : Predicate) : p.mirrored.isReflexive = p.isReflexive := by
  cases p <;> rfl

theorem holds_mirrored (p : Predicate) (l r : Literal) : p.mirrored.holds r l = p.holds l r := by
  cases p <;> simp [mirrored, holds, eq_comm]

theorem eval_mirrored {p : Predicate} {l r : Literal} {b : Bool} (h : p.eval l r = .ok b) :
    p.mirrored.eval r l = .ok b := by
  obtain ⟨_, sized, same⟩ := Checked.bind_eq_ok.1 h
  have swapped : requireSized r l = .ok () := by
    rw [requireSized] at sized ⊢
    cases hl : l.sized <;> cases hr : r.sized <;> simp_all
  rw [eval, swapped, Checked.ok_bind, holds_mirrored]
  exact same

end Predicate

theorem Smt.eval_rel_mirrored {r q : Rel} (same : ∀ {w : Nat} (x y : BitVec w), q.test y x = r.test x y)
    (ν : Assignment) (a b : Term) : (Formula.rel q b a).eval ν = (Formula.rel r a b).eval ν := by
  rw [Formula.eval, Formula.eval]
  cases a.eval ν with
  | none => cases b.eval ν <;> rfl
  | some x =>
    cases b.eval ν with
    | none => rfl
    | some y =>
      obtain ⟨w, x⟩ := x
      obtain ⟨w', y⟩ := y
      by_cases width : w = w'
      · subst width
        simp [same]
      · simp [Rel.truth?, width, Ne.symm width]

theorem Smt.eval_comparison_mirrored (p : Predicate) (ν : Assignment) (a b : Term) :
    (comparison p.mirrored b a).eval ν = (comparison p a b).eval ν := by
  have equal : (Formula.rel .eq b a).eval ν = (Formula.rel .eq a b).eval ν :=
    eval_rel_mirrored (fun x y => by simp [Rel.test, eq_comm]) ν a b
  cases p with
  | eq => exact equal
  | ne => exact congrArg (Option.map (!·)) equal
  | ugt | uge | ult | ule | sgt | sge | slt | sle => exact eval_rel_mirrored (fun x y => rfl) ν a b

namespace Clause

def mirrored : Clause → Clause
  | atom pred l r => atom pred.mirrored r l
  | not c => not c.mirrored
  | and a b => and a.mirrored b.mirrored
  | or a b => or a.mirrored b.mirrored
  | xor a b => xor a.mirrored b.mirrored

variable {c : Clause} {g : Guards} {ν : Assignment}

theorem mirrored_mirrored (c : Clause) : c.mirrored.mirrored = c := by
  induction c with
  | atom pred l r => rw [mirrored, mirrored, Predicate.mirrored_mirrored]
  | not c ih => rw [mirrored, mirrored, ih]
  | and a b iha ihb | or a b iha ihb | xor a b iha ihb => rw [mirrored, mirrored, iha, ihb]

theorem subst_mirrored (f : Leaf → Expr) (c : Clause) : c.mirrored.subst f = (c.subst f).mirrored := by
  induction c with
  | atom pred l r => rfl
  | not c ih => rw [mirrored, subst, subst, mirrored, ih]
  | and a b iha ihb | or a b iha ihb | xor a b iha ihb => rw [mirrored, subst, subst, mirrored, iha, ihb]

theorem mem_exprs_mirrored {e : Expr} : e ∈ c.mirrored.exprs ↔ e ∈ c.exprs := by
  induction c with
  | atom pred l r => simp [mirrored, exprs, or_comm]
  | not c ih => exact ih
  | and a b iha ihb | or a b iha ihb | xor a b iha ihb => simp [mirrored, exprs, iha, ihb]

theorem mem_leaves_mirrored {l : Leaf} : l ∈ c.mirrored.leaves ↔ l ∈ c.leaves := by
  simp only [leaves, List.mem_flatMap, mem_exprs_mirrored]

theorem mem_mentions_mirrored {m : Mention} : m ∈ c.mirrored.mentions g ↔ m ∈ c.mentions g := by
  simp only [mentions, List.mem_flatMap, mem_exprs_mirrored]

theorem eval_encode_mirrored (c : Clause) : (c.mirrored.encode g).eval ν = (c.encode g).eval ν := by
  induction c with
  | atom pred l r => exact eval_comparison_mirrored pred ν _ _
  | not c ih => rw [mirrored, encode, encode, Formula.eval, Formula.eval, ih]
  | and a b iha ihb | or a b iha ihb | xor a b iha ihb =>
    rw [mirrored, encode, encode, Formula.eval, Formula.eval, iha, ihb]

theorem accepts_mirrored : ν.Accepts g c.mirrored ↔ ν.Accepts g c := by
  have guards (f : Formula) : f ∈ c.mirrored.guards g ↔ f ∈ c.guards g := by
    simp only [Clause.guards, List.mem_flatMap, mem_exprs_mirrored]
  have accepts (c : Clause) : ν.Accepts g c ↔ (∀ l ∈ c.leaves, (ν.env l).width = l.width) ∧
      (c.encode g).eval ν = some true ∧ ∀ f ∈ c.guards g, f.eval ν = some true :=
    ⟨fun h => ⟨h.width_eq, List.forall_mem_cons.1 h.eval_eq⟩, fun h => ⟨h.1, List.forall_mem_cons.2 h.2⟩⟩
  simp only [accepts, mem_leaves_mirrored, eval_encode_mirrored, guards]

theorem isTautology_mirrored (c : Clause) : c.mirrored.isTautology = c.isTautology := by
  cases c with
  | not c | and a b | or a b | xor a b => rfl
  | atom pred l r => simp [mirrored, isTautology, Predicate.isReflexive_mirrored, eq_comm]

theorem simplify_mirrored {o : Option Bool} (h : c.simplify = .ok o) : c.mirrored.simplify = .ok o := by
  induction c generalizing o with
  | atom pred l r =>
    obtain ⟨a, ha, h⟩ := Checked.bind_eq_ok.1 h
    obtain ⟨b, hb, h⟩ := Checked.bind_eq_ok.1 h
    rw [mirrored, simplify, hb, ha, Checked.ok_bind, Checked.ok_bind]
    have undecided (same : (.ok (if a = b then some pred.isReflexive else none) : Checked _) = .ok o) :
        (.ok (if b = a then some pred.mirrored.isReflexive else none) : Checked _) = .ok o := by
      simpa [Predicate.isReflexive_mirrored, eq_comm] using same
    cases a with
    | leaf | unary | binary => cases b <;> exact undecided h
    | literal k =>
      cases b with
      | leaf | unary | binary => exact undecided h
      | literal m =>
        obtain ⟨t, ht, h⟩ := Checked.bind_eq_ok.1 h
        show (do return some (← pred.mirrored.eval m k)) = _
        rw [Predicate.eval_mirrored ht]
        exact h
  | not c ih =>
    obtain ⟨x, hx, h⟩ := Checked.bind_eq_ok.1 h
    rw [mirrored, simplify, ih hx, Checked.ok_bind]
    exact h
  | and a b iha ihb | or a b iha ihb | xor a b iha ihb =>
    obtain ⟨x, hx, h⟩ := Checked.bind_eq_ok.1 h
    obtain ⟨y, hy, h⟩ := Checked.bind_eq_ok.1 h
    rw [mirrored, simplify, iha hx, ihb hy, Checked.ok_bind, Checked.ok_bind]
    exact h

end Clause

def Ref.letters : Ref → String
  | result .. | operand .. => "x"
  | previous _ => "lb"

theorem Leaf.solverName_eq (l : Leaf) : l.solverName = taggedName l.ref.letters l.value l.context := by
  obtain ⟨ref, width, context⟩ := l
  cases ref <;> rfl

theorem toList_taggedName (tag : String) (v : ValueId) (c : Context) :
    (taggedName tag v c).toList =
      tag.toList ++ (Nat.toDigits 10 v ++ if c = 0 then [] else '_' :: Nat.toDigits 10 c) := by
  unfold taggedName
  split <;> simp

theorem toDigits_context_inj {v u : ValueId} {c d : Context}
    (h : Nat.toDigits 10 v ++ (if c = 0 then [] else '_' :: Nat.toDigits 10 c) =
      Nat.toDigits 10 u ++ (if d = 0 then [] else '_' :: Nat.toDigits 10 d)) : v = u ∧ c = d := by
  have read {m n : Nat} (same : Nat.toDigits 10 m = Nat.toDigits 10 n) : m = n := by
    rw [← Nat.ofDigitChars_ten_toDigits (n := m), same, Nat.ofDigitChars_ten_toDigits]
  have cut (v : ValueId) (c : Context) :
      (Nat.toDigits 10 v ++ (if c = 0 then [] else '_' :: Nat.toDigits 10 c)).takeWhile (· ≠ '_') =
        Nat.toDigits 10 v := by
    have digits : ∀ x ∈ Nat.toDigits 10 v, decide (x ≠ '_') = true := by
      intro x hx
      simpa using fun same => Nat.underscore_not_in_toDigits (same ▸ hx)
    rw [List.takeWhile_append_of_pos digits]
    split <;> simp
  obtain rfl : v = u := by
    refine read ?_
    rw [← cut v c, h, cut u d]
  refine ⟨rfl, ?_⟩
  have rest := List.append_cancel_left h
  by_cases hc : c = 0 <;> by_cases hd : d = 0 <;> simp [hc, hd] at rest
  · rw [hc, hd]
  · exact read rest

theorem taggedName_inj {tag tag' : String} {v u : ValueId} {c d : Context} (plain : ∀ x ∈ tag.toList, x.isDigit = false)
    (plain' : ∀ x ∈ tag'.toList, x.isDigit = false) (h : taggedName tag v c = taggedName tag' u d) :
    tag = tag' ∧ v = u ∧ c = d := by
  have cut {tag : String} (plain : ∀ x ∈ tag.toList, x.isDigit = false) (v : ValueId) (rest : List Char) :
      (tag.toList ++ (Nat.toDigits 10 v ++ rest)).takeWhile (!·.isDigit) = tag.toList := by
    rw [List.takeWhile_append_of_pos (by simpa using plain)]
    have digit {x : Char} : x ∈ Nat.toDigits 10 v → x.isDigit := Nat.isDigit_of_mem_toDigits (by decide) (by decide)
    cases digits : Nat.toDigits 10 v with
    | nil => exact absurd digits Nat.toDigits_ne_nil
    | cons x xs => simp [digit (x := x) (by simp [digits])]
  have lists := congrArg String.toList h
  rw [toList_taggedName, toList_taggedName] at lists
  obtain rfl : tag = tag' := by
    rw [← String.toList_inj, ← cut plain v _, lists, cut plain' u _]
  exact ⟨rfl, toDigits_context_inj (List.append_cancel_left lists)⟩

theorem Ref.letters_plain (r : Ref) : ∀ x ∈ r.letters.toList, x.isDigit = false := by
  cases r <;> simp [letters]

theorem Leaf.solverName_inj {l m : Leaf} (h : l.solverName = m.solverName) :
    l.ref.letters = m.ref.letters ∧ l.value = m.value ∧ l.context = m.context := by
  rw [solverName_eq, solverName_eq] at h
  exact taggedName_inj l.ref.letters_plain m.ref.letters_plain h

def Renaming.exchange : Renaming where
  leaf l := l.withContext (Equiv.swap 1 2 l.context)
  width_eq _ := rfl
  injective := by
    rintro ⟨r, w, c⟩ ⟨q, v, d⟩ h
    simpa [Leaf.withContext] using h
  name_eq l m h := by
    obtain ⟨letters, value, context⟩ := Leaf.solverName_inj h
    rw [Leaf.solverName_eq, Leaf.solverName_eq]
    exact congr (congr (congrArg taggedName letters) value) (congrArg (Equiv.swap 1 2) context)

namespace Renaming

theorem exchange_exchange (l : Leaf) : exchange.leaf (exchange.leaf l) = l := by
  obtain ⟨ref, width, context⟩ := l
  simp [exchange, Leaf.withContext]

theorem involutive_exchange : Function.Involutive (Clause.mapLeaves exchange.leaf) := by
  intro c
  rw [Clause.mapLeaves, Clause.mapLeaves, Clause.subst_subst]
  refine (Clause.subst_congr fun l _ => ?_).trans c.subst_leaf
  exact congrArg Expr.leaf (exchange_exchange l)

end Renaming
end SsaFacts
