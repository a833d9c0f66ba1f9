import SsaFacts.Fingerprint
import SsaFacts.Proofs.Renaming

/-! What is written tells what was meant. Leaves have one name for the solver only if they refer to the same value, in
the same activation and in the same iteration. The text of a clause has one reading: it gives back the shape of the
clause, every operator and comparison, every number, and the kind, value and context of every leaf. So facts that
differ in one of these differ in their sort keys and in what is hashed for a fingerprint. -/
namespace SsaFacts

/-! ### Names for the solver -/

theorem Ref.letters_eq_iff (r q : Ref) :
    r.letters = q.letters ↔ ((∃ v, r = .previous v) ↔ ∃ v, q = .previous v) := by
  cases r <;> cases q <;> simp [letters]

/-- Two leaves have one name just if both or neither are of an earlier iteration and they refer to the same value in
the same context. -/
theorem Leaf.solverName_eq_iff (l m : Leaf) : l.solverName = m.solverName ↔
    ((∃ v, l.ref = .previous v) ↔ ∃ v, m.ref = .previous v) ∧ l.value = m.value ∧ l.context = m.context := by
  rw [← Ref.letters_eq_iff]
  constructor
  · exact solverName_inj
  · rintro ⟨letters, value, context⟩
    rw [solverName_eq, solverName_eq, letters, value, context]

/-! ### Words and groups -/

def isPlain (c : Char) : Bool := c ≠ ' ' && c ≠ '(' && c ≠ ')'

theorem isPlain_of_isDigit {c : Char} (digit : c.isDigit) : isPlain c := by
  have ne {d : Char} (hd : d.isDigit = false) : c ≠ d := by
    rintro rfl
    simp [hd] at digit
  simp [isPlain, ne]

@[ext] structure Word where
  chars : List Char
  nonempty : chars ≠ []
  plain : ∀ c ∈ chars, isPlain c = true

def EndsWord (s : List Char) : Prop := ∀ c ∈ s.head?, isPlain c = false

/-- A written form: a word, or a group that starts with a word or has one in its middle. -/
inductive Phrase
  | word (w : Word)
  | lead (w : Word) (p : Phrase)
  | join (l : Phrase) (w : Word) (r : Phrase)

namespace Phrase

def chars : Phrase → List Char
  | word w => w.chars
  | lead w p => '(' :: (w.chars ++ ' ' :: (p.chars ++ [')']))
  | join l w r => '(' :: (l.chars ++ ' ' :: (w.chars ++ ' ' :: (r.chars ++ [')'])))

end Phrase

section
variable {s t : List Char} {w v : Word} {p q l r : Phrase}

theorem endsWord_nil : EndsWord [] := by simp [EndsWord]

theorem endsWord_blank : EndsWord (' ' :: s) := by simp [EndsWord, isPlain]

theorem endsWord_closing : EndsWord (')' :: s) := by simp [EndsWord, isPlain]

namespace Word

theorem takeWhile_append (w : Word) (hs : EndsWord s) : (w.chars ++ s).takeWhile isPlain = w.chars := by
  rw [List.takeWhile_append_of_pos w.plain]
  cases s with
  | nil => simp
  | cons c s => simp [hs c rfl]

theorem append_inj (hs : EndsWord s) (ht : EndsWord t) (h : w.chars ++ s = v.chars ++ t) : w = v ∧ s = t := by
  have same : w.chars = v.chars := by rw [← w.takeWhile_append hs, h, v.takeWhile_append ht]
  refine ⟨Word.ext same, ?_⟩
  rw [same] at h
  exact List.append_cancel_left h

theorem append_ne_opening (w : Word) : w.chars ++ s ≠ '(' :: t := by
  intro h
  cases chars : w.chars with
  | nil => exact w.nonempty chars
  | cons c cs =>
    rw [chars, List.cons_append, List.cons.injEq] at h
    have plain := w.plain c (by simp [chars])
    simp [h.1, isPlain] at plain

theorem injective_of_nodup {α : Type} {written : α → Word} (all : List α) (listed : ∀ a, a ∈ all)
    (distinct : (all.map fun a => (written a).chars).Nodup) : Function.Injective written := by
  intro a b h
  exact List.inj_on_of_nodup_map distinct (listed a) (listed b) (congrArg chars h)

end Word

namespace Phrase

theorem eq_word (hs : EndsWord s) (ht : EndsWord t) (h : w.chars ++ s = q.chars ++ t) : q = word w ∧ s = t := by
  cases q with
  | word v =>
    obtain ⟨rfl, rest⟩ := Word.append_inj hs ht h
    exact ⟨rfl, rest⟩
  | lead | join => exact absurd h w.append_ne_opening

/-- A group that starts with a word is closed where one with a word in its middle goes on. -/
theorem lead_append_ne_join : (lead w p).chars ++ s ≠ (join l v r).chars ++ t := by
  intro h
  have inner : w.chars ++ ' ' :: (p.chars ++ ')' :: s) =
      l.chars ++ ' ' :: (v.chars ++ ' ' :: (r.chars ++ ')' :: t)) := by simpa [chars] using h
  obtain ⟨-, rest⟩ := eq_word endsWord_blank endsWord_blank inner
  obtain ⟨-, rest⟩ := eq_word endsWord_blank endsWord_closing (List.cons.inj rest).2.symm
  simp at rest

theorem append_inj (hs : EndsWord s) (ht : EndsWord t) (h : p.chars ++ s = q.chars ++ t) : p = q ∧ s = t := by
  -- a part of a group is read in front of the blank or the parenthesis behind it, so what follows is left open
  induction p generalizing q s t with
  | word w =>
    obtain ⟨rfl, rest⟩ := eq_word hs ht h
    exact ⟨rfl, rest⟩
  | lead w p ih =>
    cases q with
    | word v => exact absurd h.symm v.append_ne_opening
    | join l v r => exact absurd h lead_append_ne_join
    | lead v q =>
      have inner : w.chars ++ ' ' :: (p.chars ++ ')' :: s) = v.chars ++ ' ' :: (q.chars ++ ')' :: t) := by
        simpa [chars] using h
      obtain ⟨rfl, body⟩ := Word.append_inj endsWord_blank endsWord_blank inner
      obtain ⟨rfl, closed⟩ := ih endsWord_closing endsWord_closing (List.cons.inj body).2
      exact ⟨rfl, (List.cons.inj closed).2⟩
  | join l w r ihl ihr =>
    cases q with
    | word v => exact absurd h.symm v.append_ne_opening
    | lead v q => exact absurd h.symm lead_append_ne_join
    | join l' v r' =>
      have inner : l.chars ++ ' ' :: (w.chars ++ ' ' :: (r.chars ++ ')' :: s)) =
          l'.chars ++ ' ' :: (v.chars ++ ' ' :: (r'.chars ++ ')' :: t)) := by simpa [chars] using h
      obtain ⟨rfl, middle⟩ := ihl endsWord_blank endsWord_blank inner
      obtain ⟨rfl, body⟩ := Word.append_inj endsWord_blank endsWord_blank (List.cons.inj middle).2
      obtain ⟨rfl, closed⟩ := ihr endsWord_closing endsWord_closing (List.cons.inj body).2
      exact ⟨rfl, (List.cons.inj closed).2⟩

theorem chars_injective : Function.Injective chars := by
  intro p q h
  exact (append_inj endsWord_nil endsWord_nil (by simpa using h)).1

end Phrase
end

/-! ### The words of terms -/

namespace Literal

/-- The number that is written for a literal. -/
def number (l : Literal) : Int := if l.width = boolWidth then l.bits else l.signed

theorem text_eq (l : Literal) : l.text = toString l.number := by
  unfold text number
  split <;> rfl

theorem text_inj {k l : Literal} : k.text = l.text ↔ k.number = l.number := by
  rw [text_eq, text_eq, Int.toString_eq_repr, Int.toString_eq_repr, Int.repr_inj]

theorem mem_text {l : Literal} {c : Char} (mem : c ∈ l.text.toList) : c = '-' ∨ c.isDigit := by
  have digit {n : Nat} : c ∈ Nat.toDigits 10 n → c.isDigit := Nat.isDigit_of_mem_toDigits (by decide) (by decide)
  rw [text_eq, Int.toString_eq_repr, Int.repr_eq_if] at mem
  split at mem
  · exact .inr (digit (by simpa using mem))
  · have signed : c = '-' ∨ c ∈ Nat.toDigits 10 (-l.number).toNat := by simpa using mem
    exact signed.imp id digit

theorem text_ne_nil (l : Literal) : l.text.toList ≠ [] := by
  rw [text_eq, Int.toString_eq_repr, Int.repr_eq_if]
  split <;> simp

theorem number_bounds {l : Literal} (le : l.width ≤ 64) : -2 ^ 63 ≤ l.number ∧ l.number < 2 ^ 63 := by
  have modulus : ((twoPow 64 : Nat) : Int) = 2 ^ 64 := rfl
  have smaller : (twoPow l.width : Int) ≤ twoPow 64 := Int.ofNat_le.2 (twoPow_le_twoPow le)
  have positive := twoPow_pos l.width
  unfold number
  split
  case isTrue bit =>
    have bits : (l.bits : Int) < twoPow l.width := Int.ofNat_lt.2 l.bits_lt_twoPow_width
    have two : ((twoPow boolWidth : Nat) : Int) = 2 := rfl
    rw [bit, two] at bits
    omega
  case isFalse =>
    have upper : l.signed < ((twoPow l.width : Int) + 1) / 2 := Int.bmod_lt positive
    have lower : -((twoPow l.width : Int) / 2) ≤ l.signed := Int.le_bmod positive
    omega

/-- The literal of 64 bits for which the same number is written. -/
def erased (l : Literal) : Literal := ofInt 64 l.number

theorem number_erased {l : Literal} (sized : l.sized) : l.erased.number = l.number := by
  have signed : (ofInt 64 l.number).signed = l.number.bmod (2 ^ 64) := by
    rw [signed_of_vec_eq (vec_ofInt le_rfl _), BitVec.toInt_ofInt]
  obtain ⟨lower, upper⟩ := number_bounds (sized_iff.1 sized).2
  rw [erased, number, if_neg (by simp [boolWidth]), signed]
  exact Int.bmod_eq_of_le (by omega) (by omega)

def written (l : Literal) : Word where
  chars := l.text.toList
  nonempty := l.text_ne_nil
  plain c mem := by
    rcases mem_text mem with rfl | digit
    · rfl
    · exact isPlain_of_isDigit digit

end Literal

theorem Ref.tag_plain (r : Ref) : ∀ x ∈ r.tag.toList, x.isDigit = false ∧ isPlain x = true := by
  cases r <;> simp [tag, isPlain]

namespace Leaf

theorem toList_text (l : Leaf) : l.text.toList = l.ref.tag.toList ++
    (Nat.toDigits 10 l.value ++ if l.context = 0 then [] else '_' :: Nat.toDigits 10 l.context) :=
  toList_taggedName _ _ _

def written (l : Leaf) : Word where
  chars := l.text.toList
  nonempty := by simp [toList_text]
  plain c mem := by
    have digits {n : Nat} (mem : c ∈ Nat.toDigits 10 n) : isPlain c :=
      isPlain_of_isDigit (Nat.isDigit_of_mem_toDigits (by decide) (by decide) mem)
    rw [toList_text] at mem
    rcases List.mem_append.1 mem with tag | mem
    · exact (l.ref.tag_plain c tag).2
    rcases List.mem_append.1 mem with id | mem
    · exact digits id
    split at mem
    · cases mem
    · rcases List.mem_cons.1 mem with rfl | context
      · rfl
      · exact digits context

/-- A leaf without its width, its call stack and the place of its operand. -/
def erased (l : Leaf) : Leaf where
  ref := match l.ref with
    | .result v _ => .result v []
    | .operand site _ => .operand { site with user := 0, index := 0 } []
    | .previous v => .previous v
  width := 0
  context := l.context

theorem text_erased (l : Leaf) : l.erased.text = l.text := by
  obtain ⟨ref, width, context⟩ := l
  cases ref <;> rfl

theorem erased_of_text {l m : Leaf} (h : l.text = m.text) : l.erased = m.erased := by
  obtain ⟨tag, value, context⟩ := taggedName_inj (fun x mem => (l.ref.tag_plain x mem).1)
    (fun x mem => (m.ref.tag_plain x mem).1) h
  obtain ⟨r, w, c⟩ := l
  obtain ⟨q, v, d⟩ := m
  cases r <;> cases q <;> simp_all [erased, Ref.tag, Leaf.value, Ref.value]

theorem text_ne_literal (l : Leaf) (k : Literal) : l.text ≠ k.text := by
  intro h
  have number (c : Char) (mem : c ∈ l.text.toList) : c = '-' ∨ c.isDigit := k.mem_text (h ▸ mem)
  rw [toList_text] at number
  cases ref : l.ref <;> simp [ref, Ref.tag] at number

end Leaf

def BinOp.written (op : BinOp) : Word where
  chars := op.symbol.toList
  nonempty := by cases op <;> simp [symbol]
  plain := by cases op <;> simp [symbol, isPlain]

def UnaryOp.written (op : UnaryOp) : Word where
  chars := op.symbol.toList
  nonempty := by cases op <;> simp [symbol]
  plain := by cases op <;> simp [symbol, isPlain]

theorem BinOp.written_injective : Function.Injective written :=
  Word.injective_of_nodup all (by intro op; cases op <;> decide) (by decide)

theorem UnaryOp.written_injective : Function.Injective written :=
  Word.injective_of_nodup all (by intro op; cases op <;> decide) (by decide)

inductive Connective
  | compare (p : Predicate)
  | and
  | or
  | xor

namespace Connective

def symbol : Connective → String
  | compare p => p.symbol
  | and => "AND"
  | or => "OR"
  | xor => "XOR"

def all : List Connective := Predicate.all.map compare ++ [and, or, xor]

theorem mem_all (k : Connective) : k ∈ all := by
  cases k with
  | compare p => cases p <;> simp [all, Predicate.all]
  | and | or | xor => simp [all]

def written (k : Connective) : Word where
  chars := k.symbol.toList
  nonempty := by
    cases k with
    | compare p => cases p <;> simp [symbol, Predicate.symbol]
    | and | or | xor => simp [symbol]
  plain := by
    cases k with
    | compare p => cases p <;> simp [symbol, Predicate.symbol, isPlain]
    | and | or | xor => simp [symbol, isPlain]

theorem written_injective : Function.Injective written :=
  Word.injective_of_nodup all mem_all (by decide)

end Connective

/-- The word in front of a negated clause. -/
def Word.negation : Word where
  chars := ['N', 'O', 'T']
  nonempty := by simp
  plain := by simp [isPlain]

/-! ### The reading of terms and clauses -/

namespace Expr

def phrase : Expr → Phrase
  | literal l => .word l.written
  | leaf l => .word l.written
  | unary op e => .lead op.written e.phrase
  | binary op l r => .join l.phrase op.written r.phrase

theorem chars_phrase (e : Expr) : e.phrase.chars = e.text.toList := by
  induction e with
  | literal | leaf => rfl
  | unary op e ih => simp [phrase, Phrase.chars, text, ih, UnaryOp.written]
  | binary op l r ihl ihr => simp [phrase, Phrase.chars, text, ihl, ihr, BinOp.written]

/-- A term without the widths of its leaves and literals, without call stacks and without the places of operands. -/
def erased : Expr → Expr
  | literal l => literal l.erased
  | leaf l => leaf l.erased
  | unary op e => unary op e.erased
  | binary op l r => binary op l.erased r.erased

theorem erased_of_phrase {e f : Expr} (h : e.phrase = f.phrase) : e.erased = f.erased := by
  induction e generalizing f with
  | literal l =>
    cases f with
    | literal k =>
      have texts : l.text = k.text := String.toList_inj.1 (congrArg Phrase.chars h)
      rw [erased, erased, Literal.erased, Literal.erased, Literal.text_inj.1 texts]
    | leaf m => exact absurd (String.toList_inj.1 (congrArg Phrase.chars h)).symm (m.text_ne_literal l)
    | unary | binary => cases h
  | leaf l =>
    cases f with
    | literal k => exact absurd (String.toList_inj.1 (congrArg Phrase.chars h)) (l.text_ne_literal k)
    | leaf m => exact congrArg leaf (Leaf.erased_of_text (String.toList_inj.1 (congrArg Phrase.chars h)))
    | unary | binary => cases h
  | unary op e ih =>
    cases f with
    | unary op' f =>
      obtain ⟨words, parts⟩ := Phrase.lead.inj h
      rw [erased, erased, UnaryOp.written_injective words, ih parts]
    | literal | leaf | binary => cases h
  | binary op l r ihl ihr =>
    cases f with
    | binary op' l' r' =>
      obtain ⟨lefts, words, rights⟩ := Phrase.join.inj h
      rw [erased, erased, BinOp.written_injective words, ihl lefts, ihr rights]
    | literal | leaf | unary => cases h

theorem text_erased {e : Expr} (sized : ∀ l ∈ e.literals, l.sized) : e.erased.text = e.text := by
  induction e with
  | literal l => exact Literal.text_inj.2 (Literal.number_erased (sized l (by simp [literals])))
  | leaf l => exact l.text_erased
  | unary op e ih => rw [erased, text, text, ih sized]
  | binary op l r ihl ihr =>
    obtain ⟨left, right⟩ := List.forall_mem_append.1 sized
    rw [erased, text, text, ihl left, ihr right]

end Expr

namespace Clause

def phrase : Clause → Phrase
  | atom pred l r => .join l.phrase (Connective.compare pred).written r.phrase
  | not c => .lead .negation c.phrase
  | and a b => .join a.phrase Connective.and.written b.phrase
  | or a b => .join a.phrase Connective.or.written b.phrase
  | xor a b => .join a.phrase Connective.xor.written b.phrase

theorem chars_phrase (c : Clause) : c.phrase.chars = c.text.toList := by
  induction c with
  | atom pred l r => simp [phrase, Phrase.chars, text, Expr.chars_phrase, Connective.written, Connective.symbol]
  | not c ih => simp [phrase, Phrase.chars, text, ih, Word.negation]
  | and a b iha ihb | or a b iha ihb | xor a b iha ihb =>
    simp [phrase, Phrase.chars, text, iha, ihb, Connective.written, Connective.symbol]

/-- A clause without the widths of leaves and literals, without call stacks and without the places of operands. -/
def erased : Clause → Clause
  | atom pred l r => atom pred l.erased r.erased
  | not c => not c.erased
  | and a b => and a.erased b.erased
  | or a b => or a.erased b.erased
  | xor a b => xor a.erased b.erased

theorem erased_of_phrase {c d : Clause} (h : c.phrase = d.phrase) : c.erased = d.erased := by
  induction c generalizing d with
  | atom pred l r =>
    cases d with
    | atom pred' l' r' =>
      obtain ⟨lefts, words, rights⟩ := Phrase.join.inj h
      cases Connective.written_injective words
      rw [erased, erased, Expr.erased_of_phrase lefts, Expr.erased_of_phrase rights]
    | not => cases h
    | and | or | xor => cases Connective.written_injective (Phrase.join.inj h).2.1
  | not c ih =>
    cases d with
    | not d => rw [erased, erased, ih (Phrase.lead.inj h).2]
    | atom | and | or | xor => cases h
  | and a b iha ihb =>
    cases d with
    | and a' b' =>
      obtain ⟨lefts, -, rights⟩ := Phrase.join.inj h
      rw [erased, erased, iha lefts, ihb rights]
    | not => cases h
    | atom | or | xor => cases Connective.written_injective (Phrase.join.inj h).2.1
  | or a b iha ihb =>
    cases d with
    | or a' b' =>
      obtain ⟨lefts, -, rights⟩ := Phrase.join.inj h
      rw [erased, erased, iha lefts, ihb rights]
    | not => cases h
    | atom | and | xor => cases Connective.written_injective (Phrase.join.inj h).2.1
  | xor a b iha ihb =>
    cases d with
    | xor a' b' =>
      obtain ⟨lefts, -, rights⟩ := Phrase.join.inj h
      rw [erased, erased, iha lefts, ihb rights]
    | not => cases h
    | atom | and | or => cases Connective.written_injective (Phrase.join.inj h).2.1

theorem text_erased {c : Clause} (sized : ∀ e ∈ c.exprs, ∀ l ∈ e.literals, l.sized) : c.erased.text = c.text := by
  induction c with
  | atom pred l r =>
    rw [erased, text, text, Expr.text_erased (sized l (by simp [exprs])), Expr.text_erased (sized r (by simp [exprs]))]
  | not c ih => rw [erased, text, text, ih sized]
  | and a b iha ihb | or a b iha ihb | xor a b iha ihb =>
    obtain ⟨left, right⟩ := List.forall_mem_append.1 sized
    rw [erased, text, text, iha left, ihb right]

theorem text_eq_iff {c d : Clause} (hc : ∀ e ∈ c.exprs, ∀ l ∈ e.literals, l.sized)
    (hd : ∀ e ∈ d.exprs, ∀ l ∈ e.literals, l.sized) : c.text = d.text ↔ c.erased = d.erased := by
  constructor
  · intro h
    refine erased_of_phrase (Phrase.chars_injective ?_)
    rw [chars_phrase, chars_phrase, h]
  · intro h
    rw [← text_erased hc, ← text_erased hd, h]

end Clause

/-! ### Sort keys and fingerprints -/

theorem Expr.print_of_sized {e : Expr} (sized : ∀ l ∈ e.literals, l.sized) : e.print = .ok e.text := by
  have each : e.literals.forM (fun l => discard l.print) = .ok () :=
    Checked.forM_ok fun l mem => by rw [Literal.print, if_pos (sized l mem)]; rfl
  rw [print, each]
  rfl

theorem Clause.print_of_sized {c : Clause} (sized : ∀ e ∈ c.exprs, ∀ l ∈ e.literals, l.sized) :
    c.print = .ok c.text := by
  have each : c.exprs.forM (fun e => discard e.print) = .ok () :=
    Checked.forM_ok fun e mem => by rw [Expr.print_of_sized (sized e mem)]; rfl
  rw [print, each]
  rfl

theorem toList_loop (b : ByteArray) (i : Nat) (front : List UInt8) :
    ByteArray.toList.loop b i front = front.reverse ++ b.data.toList.drop i := by
  induction left : b.size - i generalizing i front with
  | zero =>
    rw [ByteArray.toList.loop, if_neg (by omega), List.drop_eq_nil_of_le (by simp; omega), List.append_nil]
  | succ n ih =>
    have lt : i < b.data.toList.length := by simp; omega
    have byte : b.get! i = b.data.toList[i] := by
      rw [Array.getElem_toList]
      exact getElem!_pos b.data i (by simpa using lt)
    rw [ByteArray.toList.loop, if_pos (by omega), ih _ _ (by omega), List.drop_eq_getElem_cons lt, byte]
    simp

theorem toUTF8_toList_inj {s t : String} : s.toUTF8.toList = t.toUTF8.toList ↔ s = t := by
  rw [ByteArray.toList, ByteArray.toList, toList_loop, toList_loop]
  simp [ByteArray.ext_iff.symm, String.toByteArray_inj]

namespace Clause

/-- Clauses whose literals can be written have one text just if they are equal once the widths of leaves and
literals, call stacks and the places of operands are erased. So it is with sort keys, and with the bytes that are
hashed for a fingerprint. -/
theorem text_unambiguous (c d : Clause) (hc : ∀ e ∈ c.exprs, ∀ l ∈ e.literals, l.sized)
    (hd : ∀ e ∈ d.exprs, ∀ l ∈ e.literals, l.sized) :
    c.print = .ok c.text ∧ d.print = .ok d.text ∧ (c.text = d.text ↔ c.erased = d.erased) ∧
      (SortKey.ofText c.text = SortKey.ofText d.text ↔ c.erased = d.erased) ∧
      (c.text.toUTF8.toList ++ [0xff] = d.text.toUTF8.toList ++ [0xff] ↔ c.erased = d.erased) := by
  have texts := text_eq_iff hc hd
  have keys : SortKey.ofText c.text = SortKey.ofText d.text ↔ c.text = d.text :=
    ⟨congrArg SortKey.text, congrArg SortKey.ofText⟩
  have bytes : c.text.toUTF8.toList ++ [0xff] = d.text.toUTF8.toList ++ [0xff] ↔ c.text = d.text := by
    rw [List.append_cancel_right_eq, toUTF8_toList_inj]
  exact ⟨print_of_sized hc, print_of_sized hd, texts, keys.trans texts, bytes.trans texts⟩

def countdown (first : Leaf) (width : Nat) : Clause :=
  atom .ult (.binary .sub (.leaf first) (.ofInt width (-1))) (.previous 5 width 0)

/-- A call stack and a width leave no trace in the text, but an operand is told from the result that it holds. -/
theorem text_unambiguous_operand :
    (countdown ⟨.result 3 [], 32, 2⟩ 32).text = (countdown ⟨.result 3 [8], 8, 2⟩ 8).text ∧
      (countdown ⟨.result 3 [], 32, 2⟩ 32).text ≠ (countdown ⟨.operand ⟨9, 0, 3⟩ [], 32, 2⟩ 32).text := by
  have sized (first : Leaf) (w : Nat) (pos : 1 ≤ w) (le : w ≤ 64) :
      ∀ e ∈ (countdown first w).exprs, ∀ l ∈ e.literals, l.sized := by
    simp [countdown, exprs, Expr.literals, Expr.ofInt, Expr.previous, Literal.sized, pos, le]
  obtain ⟨-, -, same, -⟩ := text_unambiguous (countdown ⟨.result 3 [], 32, 2⟩ 32)
    (countdown ⟨.result 3 [8], 8, 2⟩ 8) (sized _ _ (by decide) (by decide)) (sized _ _ (by decide) (by decide))
  obtain ⟨-, -, apart, -⟩ := text_unambiguous (countdown ⟨.result 3 [], 32, 2⟩ 32)
    (countdown ⟨.operand ⟨9, 0, 3⟩ [], 32, 2⟩ 32) (sized _ _ (by decide) (by decide)) (sized _ _ (by decide) (by decide))
  exact ⟨same.2 (by decide), fun h => absurd (apart.1 h) (by decide)⟩

end Clause

end SsaFacts
