import SsaFacts.Proofs.Meaning
import SsaFacts.Smt.Encode

/-! What the terms and formulas spoken to a solver mean in the SMT-LIB theory of bit-vectors. A term that
is not well-sorted has no value. -/
namespace SsaFacts.Smt

structure Assignment where
  value : String → Vec
  nonempty : ∀ n, 0 < (value n).width

/-- The standard's functions; all of them are total. -/
def Fn.apply (f : Fn) {w : Nat} (x y : BitVec w) : BitVec w :=
  match f with
  | bvadd => x + y
  | bvsub => x - y
  | bvmul => x * y
  | bvudiv => x.smtUDiv y
  | bvsdiv => x.smtSDiv y
  | bvurem => x % y
  | bvsrem => x.srem y
  | bvshl => x <<< y
  | bvlshr => x >>> y
  | bvashr => x.sshiftRight' y
  | bvand => x &&& y
  | bvor => x ||| y
  | bvxor => x ^^^ y

def Fn.value? (f : Fn) (x y : Vec) : Option Vec :=
  if x.width = y.width then some ⟨x.width, f.apply x.bits (y.fit x.width)⟩ else none

def Rel.test (r : Rel) {w : Nat} (x y : BitVec w) : Bool :=
  match r with
  | eq => x = y
  | bvugt => y.ult x
  | bvuge => y.ule x
  | bvult => x.ult y
  | bvule => x.ule y
  | bvsgt => y.slt x
  | bvsge => y.sle x
  | bvslt => x.slt y
  | bvsle => x.sle y

def Rel.truth? (r : Rel) (x y : Vec) : Option Bool :=
  if x.width = y.width then some (r.test x.bits (y.fit x.width)) else none

def extract? (high low : Nat) (x : Vec) : Option Vec :=
  if low ≤ high ∧ high < x.width then
    some ⟨high - low + 1, x.bits.extractLsb' low (high - low + 1)⟩
  else none

/-- The value of a term, if it is well-sorted. -/
def Term.eval (ν : Assignment) : Term → Option Vec
  | name n => some (ν.value n)
  | const l => some l.vec
  | neg t => (t.eval ν).map fun x => ⟨x.width, -x.bits⟩
  | extract high low t => (t.eval ν).bind (extract? high low)
  | zeroExtend n t => (t.eval ν).map fun x => ⟨x.width + n, x.bits.setWidth _⟩
  | signExtend n t => (t.eval ν).map fun x => ⟨x.width + n, x.bits.signExtend _⟩
  | app f a b => (a.eval ν).bind fun x => (b.eval ν).bind fun y => f.value? x y

/-- The truth value of a formula, if it is well-sorted. -/
def Formula.eval (ν : Assignment) : Formula → Option Bool
  | rel r a b => (a.eval ν).bind fun x => (b.eval ν).bind fun y => r.truth? x y
  | not f => (f.eval ν).map (!·)
  | and f g => (f.eval ν).bind fun p => (g.eval ν).map fun q => p && q
  | or f g => (f.eval ν).bind fun p => (g.eval ν).map fun q => p || q
  | xor f g => (f.eval ν).bind fun p => (g.eval ν).map fun q => p ^^ q

def zeroDivision : ZeroDivision
  | .udiv, w, _ => BitVec.allOnes w
  | .sdiv, w, x => if x.slt 0#w then 1#w else BitVec.allOnes w
  | _, _, x => x

def Assignment.env (ν : Assignment) (l : Leaf) : Vec := ν.value l.solverName

@[simp] theorem Fn.value?_mk (f : Fn) {w : Nat} (x y : BitVec w) :
    f.value? ⟨w, x⟩ ⟨w, y⟩ = some ⟨w, f.apply x y⟩ := by
  simp [value?]

@[simp] theorem Rel.truth?_mk (r : Rel) {w : Nat} (x y : BitVec w) :
    r.truth? ⟨w, x⟩ ⟨w, y⟩ = some (r.test x y) := by
  simp [truth?]

theorem Rel.truth?_eq_true {x y : Vec} : Rel.eq.truth? x y = some true ↔ x = y := by
  obtain ⟨w, x⟩ := x
  obtain ⟨v, y⟩ := y
  by_cases width : w = v
  · subst width
    simp [test]
  · simp [truth?, width]

section
variable {ν : Assignment} {a b : Term} {w : Nat} {x y : BitVec w} {f f' : Formula} {p q : Bool}

theorem eval_rel (r : Rel) (ha : a.eval ν = some ⟨w, x⟩)
    (hb : b.eval ν = some ⟨w, y⟩) : (Formula.rel r a b).eval ν = some (r.test x y) := by
  simp only [Formula.eval, ha, hb, Option.bind_some, Rel.truth?_mk]

theorem eval_app (h : Fn) (ha : a.eval ν = some ⟨w, x⟩)
    (hb : b.eval ν = some ⟨w, y⟩) : (Term.app h a b).eval ν = some ⟨w, h.apply x y⟩ := by
  simp only [Term.eval, ha, hb, Option.bind_some, Fn.value?_mk]

theorem eval_not (hf : f.eval ν = some p) : f.not.eval ν = some !p := by
  simp only [Formula.eval, hf, Option.map_some]

theorem eval_and (hf : f.eval ν = some p) (hf' : f'.eval ν = some q) :
    (f.and f').eval ν = some (p && q) := by
  simp only [Formula.eval, hf, hf', Option.bind_some, Option.map_some]

theorem eval_or (hf : f.eval ν = some p) (hf' : f'.eval ν = some q) :
    (f.or f').eval ν = some (p || q) := by
  simp only [Formula.eval, hf, hf', Option.bind_some, Option.map_some]

end

/-- The names in a term. -/
def Term.names : Term → List String
  | name n => [n]
  | const _ => []
  | neg t | extract _ _ t | zeroExtend _ t | signExtend _ t => t.names
  | app _ a b => a.names ++ b.names

/-- The names in a formula. -/
def Formula.names : Formula → List String
  | rel _ a b => a.names ++ b.names
  | not f => f.names
  | and f g | or f g | xor f g => f.names ++ g.names

theorem Term.eval_congr {ν μ : Assignment} {t : Term}
    (h : ∀ n ∈ t.names, ν.value n = μ.value n) : t.eval ν = t.eval μ := by
  induction t with
  | name n => exact congrArg some (h n (by simp [names]))
  | const l => rfl
  | neg t ih | extract high low t ih | zeroExtend n t ih | signExtend n t ih =>
    simp only [eval, ih h]
  | app f a b iha ihb =>
    have ha := iha fun n hn => h n (by simp [names, hn])
    have hb := ihb fun n hn => h n (by simp [names, hn])
    simp only [eval, ha, hb]

theorem Formula.eval_congr {ν μ : Assignment} {f : Formula}
    (h : ∀ n ∈ f.names, ν.value n = μ.value n) : f.eval ν = f.eval μ := by
  induction f with
  | rel r a b =>
    have ha := Term.eval_congr (t := a) fun n hn => h n (by simp [names, hn])
    have hb := Term.eval_congr (t := b) fun n hn => h n (by simp [names, hn])
    simp only [eval, ha, hb]
  | not f ih => simp only [eval, ih h]
  | and f g ihf ihg | or f g ihf ihg | xor f g ihf ihg =>
    have hf := ihf fun n hn => h n (by simp [names, hn])
    have hg := ihg fun n hn => h n (by simp [names, hn])
    simp only [eval, hf, hg]

end SsaFacts.Smt
