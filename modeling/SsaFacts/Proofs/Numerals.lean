import SsaFacts.Proofs.Answers

/-! Constants in the language of the solver. A literal is written with one binary digit for each bit; what is written
is read back as the same literal, and so is its hexadecimal form where the width has one. -/
namespace SsaFacts.Smt
variable {base : Nat} {digits : List Char} {n d : Nat}

namespace Spells

theorem singleton (lt : d < base) : Spells base [d.digitChar] d :=
  ⟨[d], .cons ⟨lt, .inl rfl⟩ .nil, by simp⟩

theorem append_digit (spells : Spells base digits n) (lt : d < base) :
    Spells base (digits ++ [d.digitChar]) (n * base + d) := by
  obtain ⟨ds, spelled, rfl⟩ := spells
  exact ⟨ds ++ [d], List.rel_append spelled (.cons ⟨lt, .inl rfl⟩ .nil), by simp⟩

theorem cons_zero (spells : Spells base digits n) (pos : 0 < base) : Spells base ('0' :: digits) n := by
  obtain ⟨ds, spelled, rfl⟩ := spells
  exact ⟨0 :: ds, .cons ⟨pos, .inl rfl⟩ spelled, by simp⟩

/-- The digits of a number spell it: the last one is its remainder, those before it spell the quotient. -/
theorem toDigits (hbase : 1 < base) (n : Nat) : Spells base (Nat.toDigits base n) n := by
  induction n using Nat.strongRecOn with
  | ind n ih =>
    rw [Nat.toDigits_eq_if hbase]
    split
    case isTrue lt => exact singleton lt
    case isFalse ge =>
      have quotient := ih (n / base) (Nat.div_lt_self (by omega) hbase)
      have spells := quotient.append_digit (Nat.mod_lt n (by omega))
      rwa [Nat.div_add_mod'] at spells

theorem paddedDigits (hbase : 1 < base) (width n : Nat) : Spells base (paddedDigits base width n) n := by
  dsimp only [Smt.paddedDigits]
  induction width - (Nat.toDigits base n).length with
  | zero => exact toDigits hbase n
  | succ k ih => exact ih.cons_zero (by omega)

end Spells

/-- A number below a power of the base takes no more digits than the exponent says. -/
theorem length_paddedDigits {width : Nat} (hbase : 1 < base) (pos : 0 < width) (lt : n < base ^ width) :
    (paddedDigits base width n).length = width := by
  have short : (Nat.toDigits base n).length ≤ width := (Nat.length_toDigits_le_iff hbase pos).2 lt
  simp only [paddedDigits, List.length_append, List.length_replicate]
  omega

theorem mem_toDigits (hbase : 1 < base) {c : Char} (mem : c ∈ Nat.toDigits base n) : ∃ d < base, c = d.digitChar := by
  induction n using Nat.strongRecOn with
  | ind n ih =>
    rw [Nat.toDigits_eq_if hbase] at mem
    split at mem
    case isTrue lt => exact ⟨n, lt, List.mem_singleton.1 mem⟩
    case isFalse ge =>
      rcases List.mem_append.1 mem with front | last
      · exact ih (n / base) (Nat.div_lt_self (by omega) hbase) front
      · exact ⟨n % base, Nat.mod_lt n (by omega), List.mem_singleton.1 last⟩

theorem mem_paddedDigits (hbase : 1 < base) {width : Nat} {c : Char} (mem : c ∈ paddedDigits base width n) :
    ∃ d < base, c = d.digitChar := by
  rcases List.mem_append.1 mem with zero | digit
  · exact ⟨0, by omega, List.eq_of_mem_replicate zero⟩
  · exact mem_toDigits hbase digit

end SsaFacts.Smt

namespace SsaFacts.Literal
open Smt
variable {l : Literal} {digits : List Char}

theorem ofInt_bits (l : Literal) : ofInt l.width l.bits = l := by
  have lt := l.bits_lt
  ext
  · rfl
  · rw [bits_ofInt, Int.emod_eq_of_lt (by omega) (by omega), Int.toNat_natCast]

/-- Digits that spell the bits of a literal are read as the literal, in both bases. -/
theorem numeral?_bits {base : Nat} (hbase : base = 2 ∨ base = 16) (spells : Spells base digits l.bits)
    (written : digits ≠ []) : numeral? base digits = some l.bits := by
  have small : l.bits < twoPow 64 := l.bits_lt.trans_le (twoPow_le_twoPow (Nat.min_le_right _ _))
  rw [numeral?_spelled hbase spells written, if_pos small]

theorem readLiteral_binary (spells : Spells 2 digits l.bits) (written : digits ≠ []) :
    readLiteral l.width (.atom ("#b" ++ String.ofList digits)) = .ok l := by
  simp [readLiteral, numeral?_bits (.inl rfl) spells written, ofInt_bits]

theorem readLiteral_hexadecimal (spells : Spells 16 digits l.bits) (written : digits ≠ []) :
    readLiteral l.width (.atom ("#x" ++ String.ofList digits)) = .ok l := by
  simp [readLiteral, numeral?_bits (.inr rfl) spells written, ofInt_bits]

/-- The hexadecimal form, with one digit for every four bits. -/
def hexText (l : Literal) : String := "#x" ++ String.ofList (paddedDigits 16 (l.width / 4) l.bits)

/-- A literal is written with as many binary digits as its width says, and what is written is read back as the
literal. The same goes for a quarter as many hexadecimal digits, where that is a whole number. -/
theorem readLiteral_constText (pos : 1 ≤ l.width) :
    (∃ digits, constText l = "#b" ++ String.ofList digits ∧ digits.length = l.width ∧
      ∀ c ∈ digits, c = '0' ∨ c = '1') ∧
    readLiteral l.width (.atom (constText l)) = .ok l ∧
    (4 ∣ l.width → (∃ digits, l.hexText = "#x" ++ String.ofList digits ∧ 4 * digits.length = l.width ∧
        ∀ c ∈ digits, c ∈ "0123456789abcdef".toList) ∧
      readLiteral l.width (.atom l.hexText) = .ok l) := by
  have binary : (paddedDigits 2 l.width l.bits).length = l.width :=
    length_paddedDigits (by decide) pos l.bits_lt_twoPow_width
  refine ⟨⟨_, rfl, binary, fun c mem => ?_⟩, ?_, fun whole => ?_⟩
  · obtain ⟨d, lt, rfl⟩ := mem_paddedDigits (by decide) mem
    interval_cases d <;> decide
  · exact readLiteral_binary (.paddedDigits (by decide) _ _) (List.length_pos_iff.1 (by omega))
  · obtain ⟨k, width⟩ := whole
    have quarter : l.width / 4 = k := by omega
    have hexadecimal : (paddedDigits 16 k l.bits).length = k := by
      refine length_paddedDigits (by decide) (by omega) ?_
      have lt := l.bits_lt_twoPow_width
      rwa [width, twoPow_eq, Nat.pow_mul] at lt
    rw [hexText, quarter]
    refine ⟨⟨_, rfl, by omega, fun c mem => ?_⟩, ?_⟩
    · obtain ⟨d, lt, rfl⟩ := mem_paddedDigits (by decide) mem
      interval_cases d <;> decide
    · exact readLiteral_hexadecimal (.paddedDigits (by decide) _ _) (List.length_pos_iff.1 (by omega))

/-- The least number of 64 bits has its top bit set; five bits are written with zeros in front. -/
theorem readLiteral_constText_minimum :
    readLiteral 64 (.atom (constText (.ofInt 64 (-(twoPow 63 : Int))))) = .ok (.ofInt 64 (-(twoPow 63 : Int))) ∧
    readLiteral 64 (.atom (hexText (.ofInt 64 (-(twoPow 63 : Int))))) = .ok (.ofInt 64 (-(twoPow 63 : Int))) ∧
    ∃ digits, constText (.ofInt 5 3) = "#b" ++ String.ofList digits ∧ digits.length = 5 := by
  obtain ⟨-, binary, hexadecimal⟩ := readLiteral_constText (l := .ofInt 64 (-(twoPow 63 : Int))) (by decide)
  obtain ⟨⟨digits, written, length, -⟩, -⟩ := readLiteral_constText (l := .ofInt 5 3) (by decide)
  exact ⟨binary, (hexadecimal (by decide)).2, digits, written, length⟩

end SsaFacts.Literal
