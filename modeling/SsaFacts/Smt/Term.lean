import SsaFacts.Literal

/-! The part of the SMT-LIB language of bit-vectors that is spoken to a solver: terms, formulas and
commands, with their concrete syntax. -/
namespace SsaFacts.Smt

inductive Fn
  | bvadd | bvsub | bvmul | bvudiv | bvsdiv | bvurem | bvsrem | bvshl | bvlshr | bvashr
  | bvand | bvor | bvxor
  deriving DecidableEq, Repr

inductive Rel
  | eq | bvugt | bvuge | bvult | bvule | bvsgt | bvsge | bvslt | bvsle
  deriving DecidableEq, Repr

inductive Term
  | name (n : String)
  | const (l : Literal)
  | neg (t : Term)
  | extract (high low : Nat) (t : Term)
  | zeroExtend (amount : Nat) (t : Term)
  | signExtend (amount : Nat) (t : Term)
  | app (f : Fn) (a b : Term)
  deriving DecidableEq

inductive Formula
  | rel (r : Rel) (a b : Term)
  | not (f : Formula)
  | and (f g : Formula)
  | or (f g : Formula)
  | xor (f g : Formula)
  deriving DecidableEq

inductive Command
  /-- Sets an option to true. -/
  | enable (option : String)
  | declare (name : String) (width : Nat)
  | assert (f : Formula)
  | checkSat
  | push
  | pop
  | getValue (terms : List Term)
  deriving DecidableEq

def Fn.text : Fn → String
  | bvadd => "bvadd"
  | bvsub => "bvsub"
  | bvmul => "bvmul"
  | bvudiv => "bvudiv"
  | bvsdiv => "bvsdiv"
  | bvurem => "bvurem"
  | bvsrem => "bvsrem"
  | bvshl => "bvshl"
  | bvlshr => "bvlshr"
  | bvashr => "bvashr"
  | bvand => "bvand"
  | bvor => "bvor"
  | bvxor => "bvxor"

def Rel.text : Rel → String
  | eq => "="
  | bvugt => "bvugt"
  | bvuge => "bvuge"
  | bvult => "bvult"
  | bvule => "bvule"
  | bvsgt => "bvsgt"
  | bvsge => "bvsge"
  | bvslt => "bvslt"
  | bvsle => "bvsle"

/-- Digits of `n` in the given base, filled up with zeros to at least `width`. -/
def paddedDigits (base width n : Nat) : List Char :=
  let digits := Nat.toDigits base n
  List.replicate (width - digits.length) '0' ++ digits

def widestConstant : Nat := 65535

/-- A constant as a binary numeral with one digit per bit. -/
def constText (l : Literal) : String := "#b" ++ String.ofList (paddedDigits 2 l.width l.bits)

def Term.text : Term → String
  | name n => n
  | const l => constText l
  | neg t => "(bvneg " ++ t.text ++ ")"
  | extract high low t =>
    "((_ extract " ++ toString high ++ " " ++ toString low ++ ") " ++ t.text ++ ")"
  | zeroExtend n t => "((_ zero_extend " ++ toString n ++ ") " ++ t.text ++ ")"
  | signExtend n t => "((_ sign_extend " ++ toString n ++ ") " ++ t.text ++ ")"
  | app f a b => "(" ++ f.text ++ " " ++ a.text ++ " " ++ b.text ++ ")"

def Formula.text : Formula → String
  | rel r a b => "(" ++ r.text ++ " " ++ a.text ++ " " ++ b.text ++ ")"
  | not f => "(not " ++ f.text ++ ")"
  | and f g => "(and " ++ f.text ++ " " ++ g.text ++ ")"
  | or f g => "(or " ++ f.text ++ " " ++ g.text ++ ")"
  | xor f g => "(xor " ++ f.text ++ " " ++ g.text ++ ")"

def Command.text : Command → String
  | enable option => "(set-option :" ++ option ++ " true)"
  | declare name width => "(declare-const " ++ name ++ " (_ BitVec " ++ toString width ++ "))"
  | assert f => "(assert " ++ f.text ++ ")"
  | checkSat => "(check-sat)"
  | push => "(push)"
  | pop => "(pop)"
  | getValue terms => "(get-value (" ++ " ".intercalate (terms.map Term.text) ++ "))"

end SsaFacts.Smt
