/-! Powers of two. -/
namespace SsaFacts

def twoPow (n : Nat) : Nat := Nat.pow 2 n

theorem twoPow_pos (n : Nat) : 0 < twoPow n := Nat.two_pow_pos n

@[simp] theorem twoPow_zero : twoPow 0 = 1 := rfl

/-- The exponent of a number that is a power of two. -/
def exponent? (n : Nat) : Option Nat :=
  if n ≠ 0 && twoPow n.log2 = n then some n.log2 else none

end SsaFacts
