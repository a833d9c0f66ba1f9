import SsaFacts.Bits
import SsaFacts.Fault

/-! Bit-vector constants. A literal keeps at most 64 bits whatever its nominal width, so the invariant
bounds the bits by the smaller of the two. -/
namespace SsaFacts

def boolWidth : Nat := 1

/-- Width at which every other integer and pointer is modelled. -/
def wordWidth : Nat := 32

def wordMin : Int := -twoPow 31

def wordMax : Int := twoPow 31 - 1

structure Literal where
  width : Nat
  bits : Nat
  bits_lt : bits < twoPow (min width 64)
  deriving DecidableEq

namespace Literal

/-- The integer `value` reduced to the bits that a literal of this width keeps. -/
def ofInt (width : Nat) (value : Int) : Literal where
  width := width
  bits := (value % twoPow (min width 64)).toNat
  bits_lt := by
    have pos := twoPow_pos (min width 64)
    have upper := Int.emod_lt_of_pos value (b := (twoPow (min width 64) : Int)) (by omega)
    omega

@[simp] theorem width_ofInt (width : Nat) (value : Int) : (ofInt width value).width = width := rfl

@[simp] theorem bits_ofInt (width : Nat) (value : Int) :
    (ofInt width value).bits = (value % twoPow (min width 64)).toNat := rfl

@[ext] theorem ext {l r : Literal} (hw : l.width = r.width) (hb : l.bits = r.bits) : l = r := by
  cases l; cases r; simp_all

def bool (b : Bool) : Literal := ofInt boolWidth (if b then 1 else 0)

def word (value : Int) : Literal := ofInt wordWidth value

/-- Whether the literal can be read as a signed 64-bit number. -/
def sized (l : Literal) : Bool := 1 ≤ l.width && l.width ≤ 64

def signed (l : Literal) : Int := (l.bits : Int).bmod (twoPow l.width)

def readSigned (l : Literal) : Checked Int :=
  if l.sized then .ok l.signed else .error (.widthOutOfRange l.width)

/-- Truth values are written as their bit, every other literal as a signed number. -/
def text (l : Literal) : String :=
  if l.width = boolWidth then toString l.bits else toString l.signed

/-- The faults of `text`: it reads the sign. -/
def print (l : Literal) : Checked String :=
  if l.sized then .ok l.text else .error (.widthOutOfRange l.width)

end Literal
end SsaFacts
