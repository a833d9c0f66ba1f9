import SsaFacts.Proofs.BranchFacts
import SsaFacts.Proofs.Reduction

/-! What instructions compute from their operands. The fact that defines an instruction is true exactly where
its result is what the instruction computes. -/
namespace SsaFacts

namespace Valuation
variable {p : Program} (ρ : Valuation p) {v : ValueId} {e : Expr}

/-- What is read from a value; a constant always reads the same. -/
def read (v : ValueId) : Vec :=
  match (p.kind? v).bind Kind.const? with
  | some c => ⟨p.modelWidth v, .ofInt _ c⟩
  | none => ρ.value v

@[simp] theorem width_read (v : ValueId) : (ρ.read v).width = p.modelWidth v := by
  unfold read
  split
  · rfl
  · exact ρ.width_value v

theorem read_const {c : Int} (const : p.const? v = .ok (some c)) :
    ρ.read v = ⟨p.modelWidth v, .ofInt _ c⟩ := by
  obtain ⟨k, hk, hc⟩ := Checked.bind_eq_ok.1 const
  rw [read, Program.kind_eq_ok.1 hk, Option.bind_some, Except.ok.inj hc]

theorem read_eq_value (named : (p.kind? v).bind Kind.const? = none) : ρ.read v = ρ.value v := by
  rw [read, named]

theorem read_inst {b : BlockId} (inst : (p.kind? v).bind Kind.block? = some b) : ρ.read v = ρ.value v := by
  obtain ⟨k, hk, block⟩ := Option.bind_eq_some_iff.1 inst
  refine ρ.read_eq_value ?_
  rw [hk, Option.bind_some]
  cases k <;> simp_all [Kind.block?, Kind.const?]

theorem read_congr {ρ σ : Valuation p} (same : ρ.value v = σ.value v) : ρ.read v = σ.read v := by
  unfold read
  split
  · rfl
  · exact same

theorem denote_ofInt (δ : ZeroDivision) (v : ValueId) (z : Int) :
    (Expr.ofInt (p.modelWidth v) z).denote δ ρ.env = ⟨p.modelWidth v, .ofInt _ z⟩ := by
  refine Literal.vec_ofInt ?_ z
  rcases p.modelWidth_cases v with same | same <;> rw [same] <;> decide

theorem denote_leaf (δ : ZeroDivision) (leaf : p.leaf v = .ok e) :
    e.denote δ ρ.env = ρ.read v ∧ e.width = p.modelWidth v := by
  obtain ⟨w, hw, leaf⟩ := Checked.bind_eq_ok.1 leaf
  obtain ⟨c, hc, leaf⟩ := Checked.bind_eq_ok.1 leaf
  cases p.width_gives v w hw
  cases c with
  | some c =>
    cases leaf
    rw [ρ.read_const hc]
    exact ⟨ρ.denote_ofInt δ v c, rfl⟩
  | none =>
    cases leaf
    obtain ⟨k, hk, hc⟩ := Checked.bind_eq_ok.1 hc
    have named : (p.kind? v).bind Kind.const? = none := by
      rw [Program.kind_eq_ok.1 hk, Option.bind_some, Except.ok.inj hc]
    exact ⟨(ρ.read_eq_value named).symm, rfl⟩

end Valuation

namespace Program
variable {p : Program} {v : ValueId} {e : Expr}

theorem width_leaf (leaf : p.leaf v = .ok e) : e.width = p.modelWidth v :=
  ((default : Valuation p).denote_leaf (fun _ _ x => x) leaf).2

theorem exists_leaf {c : Option Int} (const : p.const? v = .ok c) : ∃ e, p.leaf v = .ok e := by
  obtain ⟨k, kind, -⟩ := Checked.bind_eq_ok.1 const
  obtain ⟨x, hx, -⟩ := Checked.bind_eq_ok.1 kind
  unfold leaf width ty
  rw [hx, const]
  cases c <;> exact ⟨_, rfl⟩

theorem exists_leaf_of_op {op : Op} (isOp : p.op? v = .ok (some op)) : ∃ e, p.leaf v = .ok e := by
  obtain ⟨k, kind, -⟩ := Checked.bind_eq_ok.1 isOp
  exact exists_leaf (c := k.const?) (by rw [const?, kind]; rfl)

end Program

structure Clause.Fixes {p : Program} (c : Clause) (δ : ZeroDivision) (ρ : Valuation p) (v : ValueId) (x : Vec) :
    Prop where
  width_eq : x.width = p.modelWidth v
  denote_iff : c.denote δ ρ.env = true ↔ ρ.read v = x

section
variable {p : Program} {δ : ZeroDivision} {ρ : Valuation p} {v : ValueId} {c : Clause} {e : Expr} {x : Vec}

theorem Clause.Fixes.of_equal (found : (do Clause.equal (← p.leaf v) e) = .ok c) (value : e.denote δ ρ.env = x)
    (width : x.width = e.width) : c.Fixes δ ρ v x := by
  obtain ⟨u, leaf, equal⟩ := Checked.bind_eq_ok.1 found
  obtain ⟨read, same⟩ := ρ.denote_leaf δ leaf
  obtain ⟨widths, rfl⟩ := Clause.compare_eq_ok.1 equal
  have width_eq : x.width = p.modelWidth v := by rw [width, ← widths, same]
  refine ⟨width_eq, ?_⟩
  rw [Clause.denote, read, value]
  exact Predicate.truth_eq_iff (by rw [ρ.width_read, width_eq])

theorem Subject.fixes_of_equal {s : Subject} {ρ : Valuation s.program} {a b : ValueId} (found : s.equal a b = .ok c) :
    c.Fixes δ ρ a (ρ.read b) := by
  obtain ⟨u, leaf, found⟩ := Checked.bind_eq_ok.1 found
  obtain ⟨e, leaf', found⟩ := Checked.bind_eq_ok.1 found
  obtain ⟨read, width⟩ := ρ.denote_leaf δ leaf'
  refine .of_equal (e := e) ?_ read ?_
  · rw [leaf]
    exact found
  · rw [ρ.width_read, width]

theorem Subject.denote_any_equal {s : Subject} {ρ : Valuation s.program} {α : Type} {f : α → ValueId} {xs : List α}
    {cs : List Clause} (mapped : (xs.mapM fun x => s.equal v (f x)) = .ok cs) (any : Clause.any cs = some c) :
    (∀ x ∈ xs, s.program.modelWidth (f x) = s.program.modelWidth v) ∧
      (c.denote δ ρ.env = true ↔ ∃ x ∈ xs, ρ.read v = ρ.read (f x)) := by
  have each := forall₂_of_mapM_eq_ok mapped
  rw [Clause.denote_any any]
  clear any mapped
  induction each with
  | nil => simp
  | cons equal _ ih =>
    have fixes := fixes_of_equal (δ := δ) (ρ := ρ) equal
    have width := fixes.width_eq
    rw [ρ.width_read] at width
    simp only [List.forall_mem_cons, List.any_cons, Bool.or_eq_true, fixes.denote_iff, ih.2, List.exists_mem_cons_iff]
    exact ⟨⟨width, ih.1⟩, trivial⟩

end

def Vec.ofBool (b : Bool) : Vec := ⟨boolWidth, .ofBool b⟩

theorem Vec.exists_bool {x : Vec} (width : x.width = boolWidth) : ∃ b, x = ofBool b := by
  obtain ⟨x, rfl⟩ := exists_bits width
  have one : ∀ x : BitVec boolWidth, x ≠ 0 → x = 1 := by decide
  by_cases zero : x = 0
  · exact ⟨false, by rw [zero]; rfl⟩
  · exact ⟨true, by rw [one x zero]; rfl⟩

@[simp] theorem Vec.ofBool_inj {a b : Bool} : ofBool a = ofBool b ↔ a = b := by
  cases a <;> cases b <;> decide

theorem Vec.bits_ofBool {b : Bool} : (ofBool b).bits = 0 ↔ b = false := by
  cases b <;> decide

theorem Literal.vec_bool (b : Bool) : (Literal.bool b).vec = .ofBool b := by
  cases b <;> rfl

/-! ### The operations -/

def CastOp.result? (w : Nat) (op : CastOp) (x : Vec) : Option Vec :=
  if x.width < w then
    match op with
    | .zext => some (UnaryOp.zext.value x)
    | .sext => some (UnaryOp.sext.value x)
    | _ => none
  else if w < x.width then some (UnaryOp.trunc.value x)
  else some x

/-- The bytes that a step of an address computation adds, where its index is a word. -/
def GepStep.bytes? {p : Program} (ρ : Valuation p) : GepStep → Option Vec
  | .field offset => some ⟨wordWidth, .ofNat _ offset⟩
  | .index size i =>
    if (ρ.read i).width = wordWidth then some ⟨wordWidth, .ofNat _ size * (ρ.read i).fit _⟩ else none

def GepStep.advance? {p : Program} (δ : ZeroDivision) (ρ : Valuation p) (total : Vec) : List GepStep → Option Vec
  | [] => some total
  | step :: rest =>
    match step.bytes? ρ with
    | some bytes => advance? δ ρ (BinOp.add.value δ total bytes) rest
    | none => none

/-- What an instruction of `w` bits computes from its operands. What memory holds and what a call returns is
left open, and a φ reads what the edge into its block carries. -/
def Op.result? {p : Program} (δ : ZeroDivision) (ρ : Valuation p) (w : Nat) : Op → Option Vec
  | .binary op l r => some (op.value δ (ρ.read l) (ρ.read r))
  | .icmp pred l r => some (.ofBool (pred.truth (ρ.read l) (ρ.read r)))
  | .cast op x => op.result? w (ρ.read x)
  | .gep base steps => GepStep.advance? δ ρ (ρ.read base) steps
  | .select c t f => some (if (ρ.read c).bits = 0 then ρ.read f else ρ.read t)
  | .phi _ | .alloca _ | .call .. | .load _ | .store .. => none

/-- The constants of an instruction fit into a word: a factor that is a multiple of `2 ^ 32` is zero, and an
element whose size is a power of two has fewer than `2 ^ 32` bytes. -/
def Op.Sized (p : Program) : Op → Prop
  | .binary .mul l r => ∀ v ∈ [l, r], ∀ c, p.const? v = .ok (some c) → c % twoPow 32 = 0 → c = 0
  | .gep _ steps => ∀ size i k, .index size i ∈ steps → exponent? size = some k → k < wordWidth
  | _ => True

section
variable {p : Program} {δ : ZeroDivision} {ρ σ : Valuation p} {w : Nat}

theorem GepStep.advance?_congr {steps : List GepStep} (same : ∀ i ∈ steps.filterMap index?, ρ.read i = σ.read i)
    (total : Vec) : advance? δ ρ total steps = advance? δ σ total steps := by
  induction steps generalizing total with
  | nil => rfl
  | cons step rest ih =>
    cases step with
    | field offset => exact ih same _
    | index size i =>
      have bytes : bytes? ρ (index size i) = bytes? σ (index size i) := by
        rw [bytes?, bytes?, same i (by simp [index?])]
      have later := ih fun i mem => same i (by simp_all [index?])
      simp only [advance?, bytes, later]

theorem Op.result?_congr {op : Op} (same : ∀ v ∈ op.operands, ρ.read v = σ.read v) :
    op.result? δ ρ w = op.result? δ σ w := by
  cases op with
  | binary op l r | icmp pred l r => rw [result?, result?, same l (by simp [operands]), same r (by simp [operands])]
  | cast op x => rw [result?, result?, same x (by simp [operands])]
  | select c t f =>
    rw [result?, result?, same c (by simp [operands]), same t (by simp [operands]), same f (by simp [operands])]
  | gep base steps =>
    rw [result?, result?, same base (by simp [operands])]
    exact GepStep.advance?_congr (fun i mem => same i (List.mem_cons_of_mem _ mem)) _
  | phi incoming | alloca bytes | call callee args | load ptr | store value ptr => rfl

end

/-! ### The facts that define instructions -/

theorem Expr.combine_eq_ok {op : BinOp} {l r e : Expr} :
    combine op l r = .ok e ↔ l.width = r.width ∧ e = .binary op l r := by
  rw [combine]
  split <;> simp_all [eq_comm]

namespace Subject
variable {s : Subject} {δ : ZeroDivision} {ρ : Valuation s.program} {v l r : ValueId} {c : Clause} {e : Expr}

theorem denote_factor (found : s.factor v = .ok e)
    (sized : ∀ c, s.program.const? v = .ok (some c) → c % twoPow 32 = 0 → c = 0) :
    e.denote δ ρ.env = ρ.read v ∧ e.width = s.program.modelWidth v := by
  obtain ⟨const, hc, found⟩ := Checked.bind_eq_ok.1 found
  cases const with
  | none => exact ρ.denote_leaf δ found
  | some c =>
    dsimp only at found
    split at found
    case isTrue zero =>
      obtain rfl := sized c hc zero
      obtain ⟨w, hw, found⟩ := Checked.bind_eq_ok.1 found
      cases s.program.width_gives v w hw
      cases found
      rw [ρ.read_const hc, Int.zero_ediv]
      exact ⟨ρ.denote_ofInt δ v 0, rfl⟩
    case isFalse => exact ρ.denote_leaf δ found

theorem value_shiftAmount {op : BinOp} (shift : op = .shl ∨ op = .lshr ∨ op = .ashr)
    (found : s.shiftAmount r = .ok e) : e.width = s.program.modelWidth r ∧
      (s.program.modelWidth l = s.program.modelWidth r →
        op.value δ (ρ.read l) (e.denote δ ρ.env) = op.value δ (ρ.read l) (ρ.read r)) := by
  obtain ⟨const, hc, found⟩ := Checked.bind_eq_ok.1 found
  cases const with
  | none =>
    obtain ⟨read, width⟩ := ρ.denote_leaf δ found
    exact ⟨width, fun _ => by rw [read]⟩
  | some c =>
    obtain ⟨w, hw, found⟩ := Checked.bind_eq_ok.1 found
    cases s.program.width_gives r w hw
    cases found
    refine ⟨rfl, fun same => ?_⟩
    rw [ρ.denote_ofInt, ρ.read_const hc]
    obtain ⟨x, hx⟩ := Vec.exists_bits ((ρ.width_read l).trans same)
    rw [hx, BinOp.value_mk, BinOp.value_mk]
    have amount : (BitVec.ofInt (s.program.modelWidth r) (c % wordWidth)).toNat % s.program.modelWidth r =
        (BitVec.ofInt (s.program.modelWidth r) c).toNat % s.program.modelWidth r := by
      rcases s.program.modelWidth_cases r with one | word
      · rw [one, boolWidth, Nat.mod_one, Nat.mod_one]
      · rw [word, wordWidth, BitVec.toNat_ofInt, BitVec.toNat_ofInt]
        omega
    rcases shift with rfl | rfl | rfl <;> simp only [BinOp.apply, amount]

theorem fixes_of_combine {op : BinOp} {x y : Checked Expr}
    (found : (do
      let rhs ← Expr.combine op (← x) (← y)
      return some (← Clause.equal (← s.program.leaf v) rhs)) = Except.ok (some c))
    (left : ∀ e, x = .ok e → e.denote δ ρ.env = ρ.read l ∧ e.width = s.program.modelWidth l)
    (right : ∀ e, y = .ok e → e.width = s.program.modelWidth r ∧
      (s.program.modelWidth l = s.program.modelWidth r →
        op.value δ (ρ.read l) (e.denote δ ρ.env) = op.value δ (ρ.read l) (ρ.read r))) :
    c.Fixes δ ρ v (op.value δ (ρ.read l) (ρ.read r)) := by
  obtain ⟨a, ha, found⟩ := Checked.bind_eq_ok.1 found
  obtain ⟨b, hb, found⟩ := Checked.bind_eq_ok.1 found
  obtain ⟨rhs, combined, found⟩ := Checked.bind_eq_ok.1 found
  obtain ⟨u, leaf, found⟩ := Checked.bind_eq_ok.1 found
  obtain ⟨d, equal, ⟨⟩⟩ := Checked.bind_eq_ok.1 found
  obtain ⟨value, width⟩ := left a ha
  obtain ⟨width', value'⟩ := right b hb
  obtain ⟨agree, rfl⟩ := Expr.combine_eq_ok.1 combined
  refine .of_equal (e := .binary op a b) (by rw [leaf]; exact equal) ?_ ?_
  · rw [Expr.denote, value, value' (by rw [← width, agree, width'])]
  · exact (ρ.width_read l).trans width.symm

theorem inBinary_fixes {op : BinOp} (found : s.inBinary v op l r = .ok (some c))
    (sized : (Op.binary op l r).Sized s.program) : c.Fixes δ ρ v (op.value δ (ρ.read l) (ρ.read r)) := by
  have leaf (u : ValueId) : ∀ e, s.program.leaf u = .ok e →
      e.denote δ ρ.env = ρ.read u ∧ e.width = s.program.modelWidth u := fun _ => ρ.denote_leaf δ
  obtain ⟨seen, -, found⟩ := Checked.bind_eq_ok.1 found
  split at found
  · cases found
  dsimp only at found
  split at found
  · exact fixes_of_combine found (leaf l) fun e => value_shiftAmount (.inl rfl)
  · exact fixes_of_combine found (leaf l) fun e => value_shiftAmount (.inr (.inl rfl))
  · exact fixes_of_combine found (leaf l) fun e => value_shiftAmount (.inr (.inr rfl))
  · refine fixes_of_combine found (fun e he => denote_factor he (sized l (by simp))) fun e he => ?_
    obtain ⟨value, width⟩ := denote_factor he (sized r (by simp))
    exact ⟨width, fun _ => by rw [value]⟩
  · refine fixes_of_combine found (leaf l) fun e he => ?_
    obtain ⟨value, width⟩ := leaf r e he
    exact ⟨width, fun _ => by rw [value]⟩

theorem fixes_of_equal_bool {b : Bool}
    (found : (do Clause.equal (← s.program.leaf v) (.literal (.bool b))) = .ok c) : c.Fixes δ ρ v (.ofBool b) :=
  .of_equal found (Literal.vec_bool b) rfl

theorem inIcmp_fixes {pred : Predicate} (found : s.inIcmp v pred l r = .ok (some c)) :
    c.Fixes δ ρ v (.ofBool (pred.truth (ρ.read l) (ρ.read r))) := by
  obtain ⟨seen, -, found⟩ := Checked.bind_eq_ok.1 found
  split at found
  · cases found
  obtain ⟨a, ha, found⟩ := Checked.bind_eq_ok.1 found
  obtain ⟨b, hb, found⟩ := Checked.bind_eq_ok.1 found
  obtain ⟨holds, compared, found⟩ := Checked.bind_eq_ok.1 found
  obtain ⟨u, leaf, found⟩ := Checked.bind_eq_ok.1 found
  obtain ⟨isFalse, equal, ⟨⟩⟩ := Checked.bind_eq_ok.1 found
  obtain ⟨-, rfl⟩ := Clause.compare_eq_ok.1 compared
  have fixes : isFalse.Fixes δ ρ v (.ofBool false) := fixes_of_equal_bool (by rw [leaf]; exact equal)
  refine ⟨fixes.width_eq, ?_⟩
  obtain ⟨t, value⟩ := Vec.exists_bool ((ρ.width_read v).trans fixes.width_eq.symm)
  have iff := fixes.denote_iff
  rw [value, Vec.ofBool_inj] at iff ⊢
  rw [Clause.denote, Clause.denote, (ρ.denote_leaf δ ha).1, (ρ.denote_leaf δ hb).1]
  grind

/-- The fact of a cast equates the result with the operand, extended or cut where the widths differ. -/
theorem exists_of_inCast {op : CastOp} {x : ValueId} (found : s.inCast v op x = .ok (some c)) : ∃ a e,
    s.program.leaf v = .ok a ∧ s.program.leaf x = .ok e ∧
      ((s.program.modelWidth x < s.program.modelWidth v ∧ (op = .zext ∧ Clause.equal a (.unary .zext e) = .ok c ∨
          op = .sext ∧ Clause.equal a (.unary .sext e) = .ok c)) ∨
        (s.program.modelWidth v < s.program.modelWidth x ∧ Clause.equal a (.unary .trunc e) = .ok c) ∨
        (s.program.modelWidth v = s.program.modelWidth x ∧ Clause.equal a e = .ok c)) := by
  obtain ⟨seen, -, found⟩ := Checked.bind_eq_ok.1 found
  split at found
  · cases found
  obtain ⟨a, ha, found⟩ := Checked.bind_eq_ok.1 found
  obtain ⟨given, hgiven, found⟩ := Checked.bind_eq_ok.1 found
  obtain ⟨wanted, hwanted, found⟩ := Checked.bind_eq_ok.1 found
  obtain ⟨e, he, found⟩ := Checked.bind_eq_ok.1 found
  cases s.program.width_gives x given hgiven
  cases s.program.width_gives v wanted hwanted
  refine ⟨a, e, ha, he, ?_⟩
  split at found
  case isTrue wider =>
    split at found
    · exact .inl ⟨wider, .inl ⟨rfl, Checked.eq_ok_of_some found⟩⟩
    · exact .inl ⟨wider, .inr ⟨rfl, Checked.eq_ok_of_some found⟩⟩
    · cases found
  case isFalse not_wider =>
    split at found
    case isTrue narrower => exact .inr (.inl ⟨narrower, Checked.eq_ok_of_some found⟩)
    case isFalse not_narrower => exact .inr (.inr ⟨by omega, Checked.eq_ok_of_some found⟩)

theorem inCast_fixes {op : CastOp} {x : ValueId} (found : s.inCast v op x = .ok (some c)) :
    ∃ y, op.result? (s.program.modelWidth v) (ρ.read x) = some y ∧ c.Fixes δ ρ v y := by
  obtain ⟨a, e, leaf, he, cases⟩ := exists_of_inCast found
  obtain ⟨value, width⟩ := ρ.denote_leaf δ he
  have cast (op : UnaryOp) (equal : Clause.equal a (.unary op e) = .ok c) : c.Fixes δ ρ v (op.value (ρ.read x)) :=
    .of_equal (e := .unary op e) (by rw [leaf]; exact equal) (by rw [Expr.denote, value]) rfl
  unfold CastOp.result?
  rw [ρ.width_read]
  rcases cases with ⟨wider, ⟨rfl, equal⟩ | ⟨rfl, equal⟩⟩ | ⟨narrower, equal⟩ | ⟨same, equal⟩
  · exact ⟨_, if_pos wider, cast .zext equal⟩
  · exact ⟨_, if_pos wider, cast .sext equal⟩
  · exact ⟨_, by rw [if_neg narrower.not_gt, if_pos narrower], cast .trunc equal⟩
  · refine ⟨_, by rw [same, if_neg (lt_irrefl _), if_neg (lt_irrefl _)], ?_⟩
    exact .of_equal (e := e) (by rw [leaf]; exact equal) value (by rw [ρ.width_read, width])

/-- The bytes of an index are a shift where the size is a power of two, else a product. -/
theorem exists_of_stepExpr? {size : Nat} {i : ValueId} (found : s.stepExpr? (.index size i) = .ok (some e)) : ∃ a,
    s.program.leaf i = .ok a ∧ a.width = wordWidth ∧
      ((∃ k, exponent? size = some k ∧ e = .binary .shl a (.ofInt wordWidth k)) ∨
        e = .binary .mul (.ofInt wordWidth size) a) := by
  obtain ⟨a, ha, found⟩ := Checked.bind_eq_ok.1 found
  refine ⟨a, ha, ?_⟩
  split at found
  · cases found
  case isFalse isWord =>
    refine ⟨not_not.1 isWord, ?_⟩
    split at found
    case h_1 k power =>
      obtain ⟨b, combined, ⟨⟩⟩ := Checked.bind_eq_ok.1 found
      exact .inl ⟨k, power, (Expr.combine_eq_ok.1 combined).2⟩
    case h_2 other =>
      obtain ⟨b, combined, ⟨⟩⟩ := Checked.bind_eq_ok.1 found
      exact .inr (Expr.combine_eq_ok.1 combined).2

theorem bytes_of_stepExpr? {step : GepStep} (found : s.stepExpr? step = .ok (some e))
    (sized : ∀ size i k, step = .index size i → exponent? size = some k → k < wordWidth) :
    ∃ x, step.bytes? ρ = some x ∧ e.denote δ ρ.env = x ∧ x.width = wordWidth ∧ e.width = wordWidth := by
  cases step with
  | field offset =>
    cases found
    refine ⟨_, rfl, ?_, rfl, rfl⟩
    rw [Expr.ofInt, Expr.denote, Literal.vec_ofInt (by decide), BitVec.ofInt_natCast]
  | index size i =>
    obtain ⟨a, ha, isWord, bytes⟩ := exists_of_stepExpr? found
    obtain ⟨value, width⟩ := ρ.denote_leaf δ ha
    have word : (ρ.read i).width = wordWidth := by rw [ρ.width_read, ← width, isWord]
    obtain ⟨x, hx⟩ := Vec.exists_bits word
    have read : GepStep.bytes? ρ (.index size i) = some ⟨wordWidth, .ofNat _ size * x⟩ := by
      rw [GepStep.bytes?, if_pos word, hx, Vec.fit_mk]
    rw [hx] at value
    refine ⟨_, read, ?_⟩
    rcases bytes with ⟨k, power, rfl⟩ | rfl
    · have small := sized size i k rfl power
      refine ⟨?_, rfl, isWord⟩
      rw [Expr.denote, value, Expr.ofInt, Expr.denote, Literal.vec_ofInt (by decide), BinOp.value_mk, BinOp.apply,
        BitVec.ofInt_natCast, ← exponent?_eq_some power, BitVec.toNat_ofNat, twoPow_eq]
      rw [Nat.mod_mod_of_dvd _ (by decide), Nat.mod_eq_of_lt small, BitVec.shiftLeft_eq_mul_twoPow, BitVec.mul_comm]
      congr 2
      exact BitVec.eq_of_toNat_eq (by rw [BitVec.toNat_twoPow, BitVec.toNat_ofNat])
    · refine ⟨?_, rfl, rfl⟩
      rw [Expr.denote, value, Expr.ofInt, Expr.denote, Literal.vec_ofInt (by decide), BinOp.value_mk, BinOp.apply,
        BitVec.ofInt_natCast]

theorem address?_cons {base : Expr} {step : GepStep} {rest : List GepStep}
    (found : s.address? base (step :: rest) = .ok (some e)) : ∃ bytes, s.stepExpr? step = .ok (some bytes) ∧
      base.width = bytes.width ∧ s.address? (.binary .add base bytes) rest = .ok (some e) := by
  obtain ⟨bytes, hbytes, found⟩ := Checked.bind_eq_ok.1 found
  cases bytes with
  | none => cases found
  | some bytes =>
    obtain ⟨sum, combined, found⟩ := Checked.bind_eq_ok.1 found
    obtain ⟨width, rfl⟩ := Expr.combine_eq_ok.1 combined
    exact ⟨bytes, hbytes, width, found⟩

theorem advance_of_address? {base : Expr} {total : Vec} {steps : List GepStep}
    (found : s.address? base steps = .ok (some e))
    (sized : ∀ size i k, .index size i ∈ steps → exponent? size = some k → k < wordWidth)
    (value : base.denote δ ρ.env = total) (width : total.width = base.width) :
    ∃ x, GepStep.advance? δ ρ total steps = some x ∧ e.denote δ ρ.env = x ∧ x.width = e.width := by
  induction steps generalizing base total with
  | nil =>
    cases found
    exact ⟨total, rfl, value, width⟩
  | cons step rest ih =>
    obtain ⟨bytes, hbytes, -, found⟩ := address?_cons found
    obtain ⟨x, hx, value', -, -⟩ := bytes_of_stepExpr? (ρ := ρ) (δ := δ) hbytes fun size i k same =>
      sized size i k (by simp [same])
    have later := ih found (fun size i k mem => sized size i k (List.mem_cons_of_mem _ mem))
      (show _ = BinOp.add.value δ total x by rw [Expr.denote, value, value']) width
    rwa [GepStep.advance?, hx]

/-- The fact of an address computation equates the result with the address. -/
theorem exists_of_inGep {base : ValueId} {steps : List GepStep} (found : s.inGep v base steps = .ok (some c)) :
    ∃ a b e, s.program.leaf v = .ok a ∧ s.program.leaf base = .ok b ∧ s.address? b steps = .ok (some e) ∧
      Clause.equal a e = .ok c := by
  obtain ⟨seen, -, found⟩ := Checked.bind_eq_ok.1 found
  split at found
  · cases found
  obtain ⟨b, hb, found⟩ := Checked.bind_eq_ok.1 found
  obtain ⟨e, he, found⟩ := Checked.bind_eq_ok.1 found
  cases e with
  | none => cases found
  | some e =>
    obtain ⟨a, ha, found⟩ := Checked.bind_eq_ok.1 found
    obtain ⟨_, equal, ⟨⟩⟩ := Checked.bind_eq_ok.1 found
    exact ⟨a, b, e, ha, hb, he, equal⟩

theorem inGep_fixes {base : ValueId} {steps : List GepStep} (found : s.inGep v base steps = .ok (some c))
    (sized : (Op.gep base steps).Sized s.program) :
    ∃ x, GepStep.advance? δ ρ (ρ.read base) steps = some x ∧ c.Fixes δ ρ v x := by
  obtain ⟨a, b, e, leaf, hb, he, equal⟩ := exists_of_inGep found
  obtain ⟨value, width⟩ := ρ.denote_leaf δ hb
  obtain ⟨x, hx, value', width'⟩ := advance_of_address? he sized value (by rw [ρ.width_read, width])
  exact ⟨x, hx, .of_equal (e := e) (by rw [leaf]; exact equal) value' width'⟩

theorem inSelect_fixes {cond t f : ValueId} (found : s.inSelect v cond t f = .ok (some c)) :
    c.Fixes δ ρ v (if (ρ.read cond).bits = 0 then ρ.read f else ρ.read t) := by
  obtain ⟨seen, -, found⟩ := Checked.bind_eq_ok.1 found
  split at found
  · cases found
  obtain ⟨w, -, found⟩ := Checked.bind_eq_ok.1 found
  split at found
  · cases found
  obtain ⟨a, ha, found⟩ := Checked.bind_eq_ok.1 found
  obtain ⟨u, leaf, found⟩ := Checked.bind_eq_ok.1 found
  obtain ⟨isFalse, hfalse, found⟩ := Checked.bind_eq_ok.1 found
  obtain ⟨x, hx, found⟩ := Checked.bind_eq_ok.1 found
  obtain ⟨first, hfirst, found⟩ := Checked.bind_eq_ok.1 found
  obtain ⟨isTrue, htrue, found⟩ := Checked.bind_eq_ok.1 found
  obtain ⟨y, hy, found⟩ := Checked.bind_eq_ok.1 found
  obtain ⟨second, hsecond, ⟨⟩⟩ := Checked.bind_eq_ok.1 found
  have no : isFalse.Fixes δ ρ cond (.ofBool false) := fixes_of_equal_bool (by rw [ha]; exact hfalse)
  have yes : isTrue.Fixes δ ρ cond (.ofBool true) := fixes_of_equal_bool (by rw [ha]; exact htrue)
  have left : first.Fixes δ ρ v (ρ.read t) := fixes_of_equal (by unfold equal; rw [leaf, hx]; exact hfirst)
  have right : second.Fixes δ ρ v (ρ.read f) := fixes_of_equal (by unfold equal; rw [leaf, hy]; exact hsecond)
  obtain ⟨b, value⟩ := Vec.exists_bool ((ρ.width_read cond).trans no.width_eq.symm)
  refine ⟨?_, ?_⟩
  · split
    · exact right.width_eq
    · exact left.width_eq
  · have isNo := no.denote_iff
    have isYes := yes.denote_iff
    simp only [value, Vec.ofBool_inj] at isNo isYes
    rw [Clause.denote, Clause.denote, Clause.denote, value, Bool.and_eq_true, Bool.or_eq_true, Bool.or_eq_true, isNo,
      isYes, left.denote_iff, right.denote_iff]
    cases b with
    | false =>
      rw [if_pos (Vec.bits_ofBool.2 rfl)]
      simp
    | true =>
      rw [if_neg (Vec.bits_ofBool.not.2 (by decide))]
      simp

/-- The fact that defines an instruction is true exactly where its result is what it computes. -/
theorem inUser_fixes {op : Op} (isOp : s.program.op? v = .ok (some op)) (notPhi : ∀ incoming, op ≠ .phi incoming)
    (sized : op.Sized s.program) (found : s.inUser v = .ok (some c)) :
    ∃ x, op.result? δ ρ (s.program.modelWidth v) = some x ∧ c.Fixes δ ρ v x := by
  unfold inUser at found
  rw [isOp, Checked.ok_bind] at found
  cases op with
  | binary op l r => exact ⟨_, rfl, inBinary_fixes found sized⟩
  | icmp pred l r => exact ⟨_, rfl, inIcmp_fixes found⟩
  | cast op x => exact inCast_fixes found
  | gep base steps => exact inGep_fixes found sized
  | select cond t f => exact ⟨_, rfl, inSelect_fixes found⟩
  | phi incoming => exact absurd rfl (notPhi incoming)
  | alloca bytes | call callee args | load ptr | store value ptr => cases found

/-- The fact that defines a φ is true exactly where it is one of the values that may flow in. -/
theorem inPhi_iff {incoming : List (BlockId × ValueId)} (isPhi : s.program.op? v = .ok (some (.phi incoming)))
    (found : s.inUser v = .ok (some c)) :
    (∀ edge ∈ incoming, s.program.modelWidth edge.2 = s.program.modelWidth v) ∧
      (c.denote δ ρ.env = true ↔ ∃ edge ∈ incoming, ρ.read v = ρ.read edge.2) := by
  unfold inUser at found
  rw [isPhi, Checked.ok_bind] at found
  obtain ⟨b, -, found⟩ := Checked.bind_eq_ok.1 found
  cases b with
  | none => cases found
  | some b =>
    dsimp only at found
    split at found
    case isFalse => cases found
    obtain ⟨cs, mapped, any⟩ := Checked.bind_eq_ok.1 found
    exact denote_any_equal mapped (Except.ok.inj any)

end Subject
end SsaFacts
