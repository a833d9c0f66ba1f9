import SsaFacts.Proofs.SmtMeaning
import SsaFacts.Solver.World

/-! What a solver process has been told, as levels of declarations and assertions, and when its answers
are truthful: a check tells whether there is a model, and values read right after it are those of one. -/
namespace SsaFacts
namespace Smt

structure Level where
  declared : List (String × Nat) := []
  asserted : List Formula := []

/-- The effect of a command on the levels, innermost first. The outermost level is never closed. -/
def Command.apply : Command → List Level → List Level
  | push, ls => {} :: ls
  | pop, _ :: l :: ls => l :: ls
  | declare n w, l :: ls => { l with declared := (n, w) :: l.declared } :: ls
  | assert f, l :: ls => { l with asserted := f :: l.asserted } :: ls
  | _, ls => ls

/-- The levels that the commands sent to a process describe, given what happened, latest first. A
process that is started anew starts with one empty level. -/
def levels (process : Nat) : List Entry → List Level
  | [] => [{}]
  | .started q :: before => if q = process then [{}] else levels process before
  | .sent q c :: before =>
    if q = process then c.apply (levels process before) else levels process before

/-- The assignment respects the declarations of a level and makes its assertions true. -/
structure Assignment.Meets (ν : Assignment) (l : Level) : Prop where
  width_eq : ∀ d ∈ l.declared, (ν.value d.1).width = d.2
  eval_eq : ∀ f ∈ l.asserted, f.eval ν = some true

def Assignment.Models (ν : Assignment) (ls : List Level) : Prop := ∀ l ∈ ls, ν.Meets l

def HasModel (ls : List Level) : Prop := ∃ ν : Assignment, ν.Models ls

/-- The digits, most significant first and in either case, spell a number. -/
def Spells (base : Nat) (digits : List Char) (n : Nat) : Prop :=
  ∃ ds : List Nat,
    List.Forall₂ (fun c d => d < base ∧ (c = d.digitChar ∨ c = d.digitChar.toUpper)) digits ds ∧
      n = ds.foldl (fun n d => n * base + d) 0

/-- The ways in which the standard writes a bit-vector. -/
inductive Numeral : Sexp → Vec → Prop
  | binary {digits : List Char} {x : Vec} (length : digits.length = x.width)
      (spells : Spells 2 digits x.bits.toNat) :
      Numeral (.atom (String.ofList ('#' :: 'b' :: digits))) x
  | hexadecimal {digits : List Char} {x : Vec} (length : 4 * digits.length = x.width)
      (spells : Spells 16 digits x.bits.toNat) :
      Numeral (.atom (String.ofList ('#' :: 'x' :: digits))) x
  | indexed (x : Vec) :
      Numeral (.list [.atom "_", .atom ("bv" ++ toString x.bits.toNat), .atom (toString x.width)]) x

/-- A pair of a model lists a term, which is not looked at, and its value. -/
def Lists (ν : Assignment) (t : Term) (pair : Sexp) : Prop :=
  ∃ x echo value, t.eval ν = some x ∧ Numeral value x ∧ pair = .list [echo, value]

def Truthful (before : List Entry) (process : Nat) (c : Command) (reply : Sexp) : Prop :=
  match c, before with
  | .checkSat, _ =>
    (HasModel (levels process before) → reply = .atom "sat") ∧
      (¬HasModel (levels process before) → reply = .atom "unsat")
  | .getValue terms, .sent q .checkSat :: _ =>
    q = process → HasModel (levels process before) →
      ∃ ν : Assignment, ν.Models (levels process before) ∧
        ∃ pairs, reply = .list pairs ∧ List.Forall₂ (Lists ν) terms pairs
  | _, _ => True

end Smt

open Smt

def Entry.process : Entry → Nat
  | started p => p
  | sent p _ => p

/-- Every reply was truthful. -/
def Host.Honest (h : Host) : List Entry → Prop
  | [] => True
  | .started _ :: before => h.Honest before
  | .sent process c :: before =>
    h.Honest before ∧ Truthful before process c (h.reply before process c)

def World.Honest (w : World) : Prop := w.host.Honest w.history

theorem Host.Honest.suffix {h : Host} {old new : List Entry} (honest : h.Honest new)
    (suffix : old <:+ new) : h.Honest old := by
  obtain ⟨added, rfl⟩ := suffix
  induction added with
  | nil => exact honest
  | cons e added ih =>
    cases e with
    | started q => exact ih honest
    | sent q c => exact ih honest.1

namespace Smt
variable {p : Nat} {c : Command} {h : List Entry} {ls ks : List Level} {ν : Assignment}

@[simp] theorem levels_sent : levels p (.sent p c :: h) = c.apply (levels p h) := if_pos rfl

@[simp] theorem levels_started : levels p (.started p :: h) = [{}] := if_pos rfl

theorem levels_sent_of_ne {q : Nat} (ne : q ≠ p) : levels p (.sent q c :: h) = levels p h := if_neg ne

theorem levels_started_of_ne {q : Nat} (ne : q ≠ p) : levels p (.started q :: h) = levels p h :=
  if_neg ne

theorem levels_append {added : List Entry} (apart : ∀ e ∈ added, e.process ≠ p) :
    levels p (added ++ h) = levels p h := by
  induction added with
  | nil => rfl
  | cons e added ih =>
    obtain ⟨he, apart⟩ := List.forall_mem_cons.1 apart
    rw [← ih apart]
    cases e with
    | started q => exact levels_started_of_ne he
    | sent q c => exact levels_sent_of_ne he

theorem Command.apply_ne_nil (hls : ls ≠ []) : c.apply ls ≠ [] := by
  cases ls with
  | nil => exact absurd rfl hls
  | cons l ls => cases c <;> cases ls <;> simp [apply]

theorem levels_ne_nil (p : Nat) (h : List Entry) : levels p h ≠ [] := by
  induction h with
  | nil => simp [levels]
  | cons e h ih =>
    cases e with
    | started q =>
      by_cases eq : q = p
      · subst eq
        simp
      · rwa [levels_started_of_ne eq]
    | sent q c =>
      by_cases eq : q = p
      · subst eq
        rw [levels_sent]
        exact Command.apply_ne_nil ih
      · rwa [levels_sent_of_ne eq]

theorem apply_pop_cons (l : Level) (hls : ls ≠ []) : Command.pop.apply (l :: ls) = ls := by
  cases ls with
  | nil => exact absurd rfl hls
  | cons k ks => rfl

namespace Assignment

theorem meets_empty (ν : Assignment) : ν.Meets {} := ⟨by simp, by simp⟩

theorem models_push : ν.Models (Command.push.apply ls) ↔ ν.Models ls := by
  rw [Models, Command.apply, List.forall_mem_cons]
  exact and_iff_right ν.meets_empty

theorem models_declare {n : String} {w : Nat} (hls : ls ≠ []) :
    ν.Models ((Command.declare n w).apply ls) ↔ ν.Models ls ∧ (ν.value n).width = w := by
  obtain ⟨l, ls, rfl⟩ := List.exists_cons_of_ne_nil hls
  have top : ν.Meets { l with declared := (n, w) :: l.declared } ↔
      (ν.value n).width = w ∧ ν.Meets l := by
    refine ⟨fun h => ⟨h.width_eq (n, w) (by simp), fun d hd => h.width_eq d (by simp [hd]), h.eval_eq⟩, ?_⟩
    rintro ⟨width, h⟩
    exact ⟨List.forall_mem_cons.2 ⟨width, h.width_eq⟩, h.eval_eq⟩
  rw [Models, Models, Command.apply, List.forall_mem_cons, List.forall_mem_cons, top]
  tauto

theorem models_assert {f : Formula} (hls : ls ≠ []) :
    ν.Models ((Command.assert f).apply ls) ↔ ν.Models ls ∧ f.eval ν = some true := by
  obtain ⟨l, ls, rfl⟩ := List.exists_cons_of_ne_nil hls
  have top : ν.Meets { l with asserted := f :: l.asserted } ↔ f.eval ν = some true ∧ ν.Meets l := by
    refine ⟨fun h => ⟨h.eval_eq f (by simp), h.width_eq, fun f hf => h.eval_eq f (by simp [hf])⟩, ?_⟩
    rintro ⟨holds, h⟩
    exact ⟨h.width_eq, List.forall_mem_cons.2 ⟨holds, h.eval_eq⟩⟩
  rw [Models, Models, Command.apply, List.forall_mem_cons, List.forall_mem_cons, top]
  tauto

end Assignment
end Smt
end SsaFacts
