import SsaFacts.Clause
import SsaFacts.SipHash

/-! A digest of a set of facts. It does not depend on their order, so that captures can be repeated until
nothing changes. -/
namespace SsaFacts

/-- The hash of a text, whose end is marked by a byte that no text contains. -/
def textHash (text : String) : UInt64 := SipHash.hash 0 0 (text.toUTF8.toList ++ [0xff])

def fingerprint (facts : List Clause) : UInt64 :=
  facts.foldl (fun sum c => sum + textHash c.text) 0

def hexDigits (n : UInt64) : String :=
  let digits := Nat.toDigits 16 n.toNat
  String.ofList (List.replicate (16 - digits.length) '0' ++ digits)

end SsaFacts
