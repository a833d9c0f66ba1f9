import SsaFacts.Engine.Constants
import SsaFacts.Engine.Query
import SsaFacts.Proofs.Levels
import SsaFacts.Proofs.Returns

/-! What a dialogue with a solver can do to its levels. Inside a scope only the innermost level changes;
a scope, however its body ends, leaves the meaning of the levels and every name of an outer level. -/
namespace SsaFacts

open Smt

theorem Smt.readLiteral_eq_error {w : Nat} {value : Sexp} {err : Error} (h : readLiteral w value = .error err) :
    err = .unexpectedModel value.text := by
  unfold readLiteral at h
  dsimp only at h
  split at h
  · cases h
  · cases h
    rfl

/-- A reply of the solver leads to the error. -/
def Error.OfReply : Error → Prop
  | undecided _ | unexpectedModel _ | process _ => True
  | _ => False

structure Host.GrantsScopes (h : Host) : Prop where
  push : ∀ before process, h.reply before process .push = .atom "success"
  pop : ∀ before process, h.reply before process .pop = .atom "success"

/-- What happened stays, and the host is the same. -/
structure World.Later (w w' : World) : Prop where
  host_eq : w'.host = w.host
  suffix : w.history <:+ w'.history

/-- Nothing was sent or started. -/
structure World.Silent (w w' : World) : Prop where
  host_eq : w'.host = w.host
  history_eq : w'.history = w.history

structure World.Lasts (w w' : World) : Prop extends World.Later w w' where
  leased_eq : w'.leased = w.leased

def World.told (p : Nat) (c : Command) (w : World) : World :=
  { w with history := .sent p c :: w.history, replay := w.replay.map (c :: ·) }

instance : IsPreorder World World.Later where
  refl _ := ⟨rfl, List.suffix_rfl⟩
  trans _ _ _ h h' := ⟨h'.host_eq.trans h.host_eq, h.suffix.trans h'.suffix⟩

instance : IsPreorder World World.Lasts where
  refl w := ⟨refl_of World.Later w, rfl⟩
  trans _ _ _ h h' := ⟨trans_of World.Later h.toLater h'.toLater, h'.leased_eq.trans h.leased_eq⟩

instance : IsPreorder World World.Silent where
  refl _ := ⟨rfl, rfl⟩
  trans _ _ _ h h' := ⟨h'.host_eq.trans h.host_eq, h'.history_eq.trans h.history_eq⟩

namespace World
variable {w w' : World}

theorem Silent.later (h : w.Silent w') : w.Later w' := ⟨h.host_eq, h.history_eq ▸ List.suffix_rfl⟩

theorem lasts_told (p : Nat) (c : Command) : w.Lasts (w.told p c) := ⟨⟨rfl, List.suffix_cons _ _⟩, rfl⟩

theorem later_told (p : Nat) (c : Command) : w.Later (w.told p c) := (lasts_told p c).toLater

theorem Later.honest (h : w.Later w') (honest : w'.Honest) : w.Honest := by
  rw [Honest, h.host_eq] at honest
  exact honest.suffix h.suffix

end World

namespace Talk
variable {α : Type}

theorem keeps_ofNoted (x : Noted α) : Keeps World.Silent (ofNoted x) := fun _ => ⟨rfl, rfl⟩

theorem keeps_ofChecked (x : Checked α) : Keeps World.Silent (ofChecked x) := fun _ => ⟨rfl, rfl⟩

theorem keeps_fail (e : Error) : Keeps World.Silent (fail e : Talk α) := fun _ => ⟨rfl, rfl⟩

theorem keeps_world : Keeps World.Silent world := fun _ => ⟨rfl, rfl⟩

theorem acknowledge_of_success {p : Nat} {c : Command} {w : World}
    (h : w.host.reply w.history p c = .atom "success") : acknowledge p c w = (.ok (), w.told p c) := by
  have sent : send p c w = (.ok (w.host.reply w.history p c), w.told p c) := rfl
  rw [acknowledge, run_bind_ok sent, h]
  rfl

theorem acknowledge_of_refusal {p : Nat} {c : Command} {w : World}
    (h : w.host.reply w.history p c ≠ .atom "success") :
    ∃ reply, acknowledge p c w = (.error (.error (.process (.unexpectedReply reply))), w.told p c) := by
  have sent : send p c w = (.ok (w.host.reply w.history p c), w.told p c) := rfl
  rw [acknowledge, run_bind_ok sent]
  generalize w.host.reply w.history p c = reply at h
  refine ⟨reply.text, ?_⟩
  split
  · exact absurd rfl h
  · rfl

theorem acknowledge_run (p : Nat) (c : Command) (w : World) :
    acknowledge p c w = (.ok (), w.told p c) ∨
      ∃ reply, acknowledge p c w = (.error (.error (.process (.unexpectedReply reply))), w.told p c) := by
  by_cases success : w.host.reply w.history p c = .atom "success"
  · exact .inl (acknowledge_of_success success)
  · exact .inr (acknowledge_of_refusal success)

end Talk

namespace Session

def levels (s : Session) : List Level := Smt.levels s.solver.process s.world.history

def told (c : Command) (s : Session) : Session :=
  { s with world := s.world.told s.solver.process c }

def named (n : String) (s : Session) : Session :=
  { s with solver := { s.solver with
    declared := n :: s.solver.declared
    scopes := match s.solver.scopes with
      | [] => []
      | top :: below => (n :: top) :: below } }

@[simp] theorem levels_told (c : Command) (s : Session) : (s.told c).levels = c.apply s.levels :=
  levels_sent

@[simp] theorem levels_named (n : String) (s : Session) : (s.named n).levels = s.levels := rfl

theorem levels_ne_nil (s : Session) : s.levels ≠ [] := Smt.levels_ne_nil _ _

/-- Only the innermost level was added to, and no name was declared again. -/
structure Extends (s s' : Session) : Prop where
  process_eq : s'.solver.process = s.solver.process
  config_eq : s'.solver.config = s.solver.config
  later : s.world.Later s'.world
  levels : ∀ top below, s.levels = top :: below → ∃ top', s'.levels = top' :: below
  declared : s.solver.declared ⊆ s'.solver.declared
  scopes : ∀ top below, s.solver.scopes = top :: below →
    ∃ added, s'.solver.scopes = (added ++ top) :: below ∧
      s'.solver.declared = added ++ s.solver.declared ∧ ∀ n ∈ added, n ∉ s.solver.declared

instance : IsPreorder Session Extends where
  refl s := {
    process_eq := rfl
    config_eq := rfl
    later := refl_of World.Later s.world
    levels := fun top _ h => ⟨top, h⟩
    declared := fun _ h => h
    scopes := fun _ _ h => ⟨[], h, rfl, by simp⟩ }
  trans _ _ _ h h' := {
    process_eq := h'.process_eq.trans h.process_eq
    config_eq := h'.config_eq.trans h.config_eq
    later := trans_of World.Later h.later h'.later
    levels := fun top below eq => by
      obtain ⟨top', eq'⟩ := h.levels top below eq
      exact h'.levels top' below eq'
    declared := fun _ hn => h'.declared (h.declared hn)
    scopes := fun top below eq => by
      obtain ⟨added, eq', names, fresh⟩ := h.scopes top below eq
      obtain ⟨added', eq'', names', fresh'⟩ := h'.scopes _ below eq'
      refine ⟨added' ++ added, by rw [eq'', List.append_assoc], by rw [names', names, List.append_assoc],
        fun n hn => ?_⟩
      rcases List.mem_append.1 hn with hn | hn
      · exact fun old => fresh' n hn (h.declared old)
      · exact fresh n hn }

variable {s s' : Session} {c : Command}

theorem extends_told (hpush : c ≠ .push) (hpop : c ≠ .pop) : s.Extends (s.told c) where
  process_eq := rfl
  config_eq := rfl
  later := World.later_told _ _
  levels top below h := by
    rw [levels_told, h]
    cases c with
    | push => exact absurd rfl hpush
    | pop => exact absurd rfl hpop
    | _ => exact ⟨_, rfl⟩
  declared _ h := h
  scopes _ _ h := ⟨[], h, rfl, by simp⟩

theorem extends_named {n : String} (fresh : n ∉ s.solver.declared) : s.Extends (s.named n) where
  process_eq := rfl
  config_eq := rfl
  later := refl_of World.Later s.world
  levels top _ h := ⟨top, h⟩
  declared _ h := List.mem_cons_of_mem n h
  scopes top below h := ⟨[n], by simp [named, h], rfl, by simpa using fresh⟩

theorem extends_of_silent {w : World} (h : s.world.Silent w) : s.Extends { s with world := w } where
  process_eq := rfl
  config_eq := rfl
  later := h.later
  levels top below eq := ⟨top, by rw [← eq]; simp [levels, h.history_eq]⟩
  declared _ h := h
  scopes _ _ h := ⟨[], h, rfl, by simp⟩

end Session

namespace Dialogue
variable {α : Type} {s : Session} {c : Command} {n : String} {w : Nat}

theorem ofTalk_run {t : Talk α} {r : Except Failure α} {world : World} (h : t s.world = (r, world)) :
    ofTalk t s = (r, { s with world }) := by
  show ((t s.world).1, { s with world := (t s.world).2 }) = _
  rw [h]

theorem acknowledge_of_success (h : s.world.host.reply s.world.history s.solver.process c = .atom "success") :
    acknowledge c s = (.ok (), s.told c) :=
  ofTalk_run (Talk.acknowledge_of_success h)

theorem acknowledge_of_refusal (h : s.world.host.reply s.world.history s.solver.process c ≠ .atom "success") :
    ∃ reply, acknowledge c s = (.error (.error (.process (.unexpectedReply reply))), s.told c) := by
  obtain ⟨reply, refused⟩ := Talk.acknowledge_of_refusal h
  exact ⟨reply, ofTalk_run refused⟩

theorem acknowledge_run (c : Command) (s : Session) :
    acknowledge c s = (.ok (), s.told c) ∨
      ∃ reply, acknowledge c s = (.error (.error (.process (.unexpectedReply reply))), s.told c) := by
  rcases Talk.acknowledge_run s.solver.process c s.world with h | ⟨reply, h⟩
  · exact .inl (ofTalk_run h)
  · exact .inr ⟨reply, ofTalk_run h⟩

theorem acknowledge_eq_ok {s' : Session} (run : acknowledge c s = (.ok (), s')) : s' = s.told c := by
  rcases acknowledge_run c s with h | ⟨reply, h⟩ <;> rw [h] at run <;> cases run
  rfl

theorem declare_of_mem (h : n ∈ s.solver.declared) : declare n w s = (.ok (), s) := by
  have solver : solver s = (.ok s.solver, s) := rfl
  rw [declare, run_bind_ok solver, if_pos (List.contains_iff_mem.2 h)]
  rfl

theorem declare_of_not_mem (h : n ∉ s.solver.declared) :
    declare n w s = (.ok (), (s.told (.declare n w)).named n) ∨
      ∃ reply, declare n w s =
        (.error (.error (.process (.unexpectedReply reply))), s.told (.declare n w)) := by
  have solver : solver s = (.ok s.solver, s) := rfl
  rw [declare, run_bind_ok solver, if_neg (fun h' => h (List.contains_iff_mem.1 h'))]
  rcases acknowledge_run (.declare n w) s with sent | ⟨reply, sent⟩
  · exact .inl (run_bind_ok sent)
  · exact .inr ⟨reply, run_bind_error sent⟩

/-- A name that was declared without failure was known, or is recorded now. -/
theorem declare_eq_ok {s' : Session} (run : declare n w s = (.ok (), s')) :
    n ∈ s.solver.declared ∧ s' = s ∨
      n ∉ s.solver.declared ∧ s' = (s.told (.declare n w)).named n := by
  by_cases mem : n ∈ s.solver.declared
  · rw [declare_of_mem mem] at run
    cases run
    exact .inl ⟨mem, rfl⟩
  · rcases declare_of_not_mem mem with ok | ⟨reply, refused⟩
    · rw [ok] at run
      cases run
      exact .inr ⟨mem, rfl⟩
    · rw [refused] at run
      cases run

/-- A property that remarks, declarations and checks have, and that a dialogue has if its steps have it. -/
structure Plain (P : ∀ {α : Type}, Dialogue α → Prop) : Prop extends Stepwise Dialogue P where
  solver : P solver
  world : P (ofTalk Talk.world)
  noted : ∀ n, P (ofTalk (Talk.ofNoted (note n)))
  checked : ∀ {α : Type} (x : Checked α), P (ofTalk (Talk.ofChecked x))
  failed : ∀ {α : Type} (e : Error), e.OfReply → P (ofTalk (Talk.fail e) : Dialogue α)
  declare : ∀ n w, P (declare n w)
  checkSat : P (send .checkSat)

namespace Plain
variable {P : ∀ {α : Type}, Dialogue α → Prop}

theorem of_silent {R : Session → Session → Prop} [IsPreorder Session R]
    (silent : ∀ {α : Type} {t : Talk α}, Keeps World.Silent t → Keeps R (ofTalk t))
    (declare : ∀ n w, Keeps R (Dialogue.declare n w)) (checkSat : Keeps R (send .checkSat)) : Plain (Keeps R) where
  toStepwise := Keeps.stepwise
  solver := .of_eq fun _ => rfl
  world := silent Talk.keeps_world
  noted _ := silent (Talk.keeps_ofNoted _)
  checked x := silent (Talk.keeps_ofChecked x)
  failed e _ := silent (Talk.keeps_fail e)
  declare := declare
  checkSat := checkSat

theorem prepare (plain : Plain P) (m : Mention) : P (prepare m) := by
  cases m with
  | leaf l => exact plain.declare _ _
  | const l =>
    rw [Dialogue.prepare]
    split
    · exact plain.pure ()
    · exact plain.checked (.error (.constantTooWide l.width))

theorem check (plain : Plain P) : P check := by
  refine plain.bind plain.checkSat fun reply => ?_
  split
  · exact plain.pure _
  · exact plain.pure _
  · exact plain.pure _
  · exact plain.failed _ trivial

theorem display (plain : Plain P) (c : Clause) : P (display c) :=
  plain.bind plain.solver fun _ => plain.map (plain.forM fun m _ => plain.prepare m) _

theorem assert (plain : Plain P) (told : ∀ f, P (acknowledge (.assert f))) (c : Clause) : P (assert c) := by
  refine plain.bind plain.solver fun σ => ?_
  refine plain.bind (plain.forM fun m _ => plain.prepare m) fun _ => ?_
  exact plain.bind (told _) fun _ => plain.forM fun f _ => told f

end Plain

/-- Reading a model has the property, too. -/
structure Quiet (P : ∀ {α : Type}, Dialogue α → Prop) : Prop extends Plain P where
  getValue : ∀ terms, P (send (.getValue terms))

namespace Quiet
variable {P : ∀ {α : Type}, Dialogue α → Prop}

theorem modelValues (quiet : Quiet P) (es : List Expr) : P (modelValues es) := by
  rw [Dialogue.modelValues]
  split
  · exact quiet.pure _
  refine quiet.bind quiet.solver fun solver => ?_
  refine quiet.bind (quiet.forM fun m _ => quiet.prepare m) fun _ => ?_
  refine quiet.bind (quiet.getValue _) fun reply => ?_
  split
  · exact quiet.failed _ trivial
  · exact quiet.failed _ trivial
  refine quiet.bind (quiet.checked _) fun pairs => quiet.mapM fun pair _ => ?_
  dsimp only
  split
  · exact quiet.pure _
  · rename_i read
    cases readLiteral_eq_error read
    exact quiet.failed _ trivial

theorem remarkCounterexample (quiet : Quiet P) (c : Clause) : P (remarkCounterexample c) :=
  quiet.bind (quiet.modelValues _) fun _ => quiet.forM fun _ _ => quiet.noted _

theorem refute (quiet : Quiet P) (told : ∀ f, P (acknowledge (.assert f))) (g : Guess) (later : List Guess) :
    P (refute g later) := by
  refine quiet.bind (quiet.checked _) fun c => quiet.bind (quiet.assert told c) fun _ => ?_
  refine quiet.bind quiet.check fun answer => ?_
  cases answer with
  | unsat => exact quiet.pure none
  | sat => exact quiet.map (quiet.modelValues _) _
  | unknown => exact quiet.failed _ trivial

theorem reads {R : Session → Session → Prop} [IsPreorder Session R] (quiet : Quiet (Keeps R)) (c : Clause)
    {s t : Session} (checked : Dialogue.check s = (.ok .sat, t)) : R s (Dialogue.remarkCounterexample c t).2 :=
  trans_of R (quiet.check.run checked) (quiet.remarkCounterexample c t)

end Quiet

theorem keeps_ofTalk {t : Talk α} (h : Keeps World.Silent t) : Keeps Session.Extends (ofTalk t) :=
  fun s => Session.extends_of_silent (h s.world)

theorem keeps_send (hpush : c ≠ .push) (hpop : c ≠ .pop) : Keeps Session.Extends (send c) :=
  fun _ => Session.extends_told hpush hpop

theorem keeps_acknowledge (hpush : c ≠ .push) (hpop : c ≠ .pop) :
    Keeps Session.Extends (acknowledge c) := by
  intro s
  rcases acknowledge_run c s with h | ⟨reply, h⟩ <;>
    · rw [h]
      exact Session.extends_told hpush hpop

theorem keeps_declare (n : String) (w : Nat) : Keeps Session.Extends (declare n w) := by
  intro s
  by_cases mem : n ∈ s.solver.declared
  · rw [declare_of_mem mem]
    exact refl_of Session.Extends s
  · have told : s.Extends (s.told (.declare n w)) := Session.extends_told nofun nofun
    rcases declare_of_not_mem mem with h | ⟨reply, h⟩
    · rw [h]
      exact trans_of Session.Extends told (Session.extends_named mem)
    · rw [h]
      exact told

theorem quiet_extends : Quiet (Keeps Session.Extends) where
  toPlain := .of_silent keeps_ofTalk keeps_declare (keeps_send nofun nofun)
  getValue _ := keeps_send nofun nofun

theorem keeps_prepare (m : Mention) : Keeps Session.Extends (prepare m) := quiet_extends.prepare m

theorem keeps_assert (c : Clause) : Keeps Session.Extends (assert c) :=
  quiet_extends.assert (fun _ => keeps_acknowledge nofun nofun) c

theorem keeps_assertAll (cs : List Clause) : Keeps Session.Extends (assertAll cs) :=
  .forM fun c _ => keeps_assert c

theorem keeps_check : Keeps Session.Extends check := quiet_extends.check

theorem keeps_modelValues (es : List Expr) : Keeps Session.Extends (modelValues es) :=
  quiet_extends.modelValues es

theorem keeps_remarkCounterexample (c : Clause) : Keeps Session.Extends (remarkCounterexample c) :=
  quiet_extends.remarkCounterexample c

end Dialogue

namespace Session
variable {s s' t : Session} {c : Command} {n : String}

def opened (s : Session) : Session :=
  { s.told .push with solver := { s.solver with scopes := [] :: s.solver.scopes } }

/-- The session after the innermost scope was closed. -/
def closed (s : Session) : Session :=
  { s.told .pop with solver := { s.solver with
    declared := s.solver.declared.filter (!(s.solver.scopes.headD []).contains ·)
    scopes := s.solver.scopes.tail } }

/-- The name is declared, and the end of no inner scope forgets it. -/
def Anchored (s : Session) (n : String) : Prop :=
  n ∈ s.solver.declared ∧ ∃ inner base, s.solver.scopes = inner ++ [base] ∧ ∀ names ∈ inner, n ∉ names

/-- The levels mean what they meant, and names of the outermost level are still declared. If scopes are
granted, all is as it was. -/
structure Resumes (s s' : Session) : Prop where
  process_eq : s'.solver.process = s.solver.process
  config_eq : s'.solver.config = s.solver.config
  later : s.world.Later s'.world
  models : ∀ ν : Assignment, ν.Models s'.levels ↔ ν.Models s.levels
  anchored : ∀ n, s.Anchored n → s'.Anchored n
  restored : s.world.host.GrantsScopes → s'.solver = s.solver ∧ s'.levels = s.levels

instance : IsPreorder Session Resumes where
  refl s := ⟨rfl, rfl, refl_of World.Later s.world, fun _ => Iff.rfl, fun _ h => h, fun _ => ⟨rfl, rfl⟩⟩
  trans _ _ _ h h' := {
    process_eq := h'.process_eq.trans h.process_eq
    config_eq := h'.config_eq.trans h.config_eq
    later := trans_of World.Later h.later h'.later
    models := fun ν => (h'.models ν).trans (h.models ν)
    anchored := fun n hn => h'.anchored n (h.anchored n hn)
    restored := fun granted => by
      obtain ⟨solver, levels⟩ := h.restored granted
      obtain ⟨solver', levels'⟩ := h'.restored (h.later.host_eq ▸ granted)
      exact ⟨solver'.trans solver, levels'.trans levels⟩ }

theorem resumes_of_silent {w : World} (h : s.world.Silent w) : s.Resumes { s with world := w } where
  process_eq := rfl
  config_eq := rfl
  later := h.later
  models ν := by simp [levels, h.history_eq]
  anchored _ h := h
  restored _ := ⟨rfl, by simp [levels, h.history_eq]⟩

theorem resumes_told (neutral : c.apply s.levels = s.levels) : s.Resumes (s.told c) where
  process_eq := rfl
  config_eq := rfl
  later := World.later_told _ _
  models ν := by rw [levels_told, neutral]
  anchored _ h := h
  restored _ := ⟨rfl, by rw [levels_told, neutral]⟩

theorem resumes_told_push (refused : ¬s.world.host.GrantsScopes) : s.Resumes (s.told .push) where
  process_eq := rfl
  config_eq := rfl
  later := World.later_told _ _
  models ν := by
    rw [levels_told]
    exact Assignment.models_push
  anchored _ h := h
  restored granted := absurd granted refused

/-- A body that stayed in its scope leaves the levels below it as they were. -/
theorem levels_pop_of_extends (h : s.opened.Extends t) : (t.told .pop).levels = s.levels := by
  have opened : s.opened.levels = {} :: s.levels := levels_told .push s
  obtain ⟨top, eq⟩ := h.levels _ _ opened
  rw [levels_told, eq, apply_pop_cons top s.levels_ne_nil]

theorem scopes_of_extends (h : s.opened.Extends t) :
    ∃ names, t.solver.scopes = names :: s.solver.scopes ∧
      t.solver.declared = names ++ s.solver.declared ∧ ∀ n ∈ names, n ∉ s.solver.declared := by
  obtain ⟨added, eq, declared, fresh⟩ := h.scopes [] s.solver.scopes rfl
  exact ⟨added, by simpa using eq, declared, fresh⟩

theorem later_told_pop (h : s.opened.Extends t) : s.world.Later (t.told .pop).world :=
  trans_of World.Later (World.later_told _ _) (trans_of World.Later h.later (World.later_told _ _))

/-- A scope that is closed takes the names that were declared in it with it. -/
theorem solver_closed (h : s.opened.Extends t) : t.closed.solver = s.solver := by
  obtain ⟨names, eq, declared, fresh⟩ := scopes_of_extends h
  have kept : s.solver.declared.filter (fun n => !names.contains n) = s.solver.declared :=
    List.filter_eq_self.2 fun n hn => by simpa using fun inside => fresh n inside hn
  have forgotten : names.filter (fun n => !names.contains n) = [] :=
    List.filter_eq_nil_iff.2 fun n hn => by simpa using hn
  have remaining : t.solver.declared.filter (fun n => !names.contains n) = s.solver.declared := by
    rw [declared, List.filter_append, forgotten, kept, List.nil_append]
  simp only [closed, eq, List.headD_cons, List.tail_cons, remaining, h.process_eq, h.config_eq]
  rfl

theorem resumes_closed (h : s.opened.Extends t) : s.Resumes t.closed where
  process_eq := h.process_eq
  config_eq := h.config_eq
  later := later_told_pop h
  models ν := by
    rw [← levels_pop_of_extends h]
    rfl
  anchored n hn := by
    rw [Anchored, solver_closed h]
    exact hn
  restored _ := ⟨solver_closed h, levels_pop_of_extends h⟩

/-- A scope whose end is refused keeps its names, which are not those of an outer one. -/
theorem resumes_told_pop (h : s.opened.Extends t) (refused : ¬s.world.host.GrantsScopes) :
    s.Resumes (t.told .pop) where
  process_eq := h.process_eq
  config_eq := h.config_eq
  later := later_told_pop h
  models ν := by rw [levels_pop_of_extends h]
  anchored n hn := by
    obtain ⟨names, eq, -, fresh⟩ := scopes_of_extends h
    obtain ⟨mem, inner, base, scopes, apart⟩ := hn
    have eq' : (t.told .pop).solver.scopes = (names :: inner) ++ [base] := by
      rw [List.cons_append, ← scopes, ← eq]
      rfl
    refine ⟨h.declared mem, names :: inner, base, eq', List.forall_mem_cons.2 ⟨?_, apart⟩⟩
    exact fun inside => fresh n inside mem
  restored granted := absurd granted refused

end Session

namespace Dialogue
variable {α : Type} {s t : Session} {body : Dialogue α}

theorem push_run (s : Session) :
    push s = (.ok (), s.opened) ∨ ¬s.world.host.GrantsScopes ∧
      ∃ reply, push s = (.error (.error (.process (.unexpectedReply reply))), s.told .push) := by
  by_cases granted : s.world.host.GrantsScopes
  · exact .inl (run_bind_ok (acknowledge_of_success (granted.push _ _)))
  rcases acknowledge_run .push s with h | ⟨reply, h⟩
  · exact .inl (run_bind_ok h)
  · exact .inr ⟨granted, reply, run_bind_error h⟩

theorem pop_of_acknowledged (h : acknowledge .pop s = (.ok (), s.told .pop)) :
    pop s = (.ok (), s.closed) := by
  refine (run_bind_ok h).trans ?_
  obtain ⟨world, config, process, declared, scopes⟩ := s
  cases scopes <;> simp [setSolver, Session.closed, Session.told]

theorem pop_run (s : Session) :
    pop s = (.ok (), s.closed) ∨ ¬s.world.host.GrantsScopes ∧
      ∃ reply, pop s = (.error (.error (.process (.unexpectedReply reply))), s.told .pop) := by
  by_cases granted : s.world.host.GrantsScopes
  · exact .inl (pop_of_acknowledged (acknowledge_of_success (granted.pop _ _)))
  rcases acknowledge_run .pop s with h | ⟨reply, h⟩
  · exact .inl (pop_of_acknowledged h)
  · exact .inr ⟨granted, reply, run_bind_error h⟩

/-- Closing a scope never fails, and a scope whose body stayed inside is left as it was entered. -/
theorem close_run (h : s.opened.Extends t) :
    ∃ s', close t = (.ok (), s') ∧ s.Resumes s' ∧ t.world.Later s'.world := by
  have told : t.world.Later (t.told .pop).world := World.later_told _ _
  rcases pop_run t with popped | ⟨ungranted, reply, refused⟩
  · exact ⟨t.closed, run_tryCatch_ok popped, Session.resumes_closed h, told⟩
  · replace ungranted : ¬s.world.host.GrantsScopes := by
      rwa [h.later.host_eq] at ungranted
    let remark := Notice.scopeLeftOpen (Error.message (.process (.unexpectedReply reply)))
    have noted : Talk.ofNoted (note remark) (t.told .pop).world =
        (.ok (), (Talk.ofNoted (note remark) (t.told .pop).world).2) := rfl
    have silent := Talk.keeps_ofNoted (note remark) (t.told .pop).world
    refine ⟨_, (run_tryCatch_error refused).trans (ofTalk_run noted), ?_, ?_⟩
    · exact trans_of Session.Resumes (Session.resumes_told_pop h ungranted)
        (Session.resumes_of_silent silent)
    · exact trans_of World.Later told silent.later

theorem caught_run (body : Dialogue α) (s : Session) :
    tryCatch (Except.ok <$> body) (fun e => return .error e) s = (.ok (body s).1, (body s).2) := by
  rw [map_eq_pure_bind]
  rcases hb : body s with ⟨e | a, t⟩
  · exact run_tryCatch_error (run_bind_error hb)
  · exact run_tryCatch_ok (run_bind_ok hb)

/-- Either the scope is refused, or the body runs in it and decides how it ends. -/
theorem inScope_run (hbody : Keeps Session.Extends body) (s : Session) :
    (¬s.world.host.GrantsScopes ∧ ∃ reply,
        inScope body s = (.error (.error (.process (.unexpectedReply reply))), s.told .push)) ∨
      ∃ s', inScope body s = ((body s.opened).1, s') ∧ s.Resumes s' ∧
        (body s.opened).2.world.Later s'.world := by
  rcases push_run s with pushed | ⟨ungranted, reply, refused⟩
  · obtain ⟨s', closed, resumes, later⟩ := close_run (hbody s.opened)
    refine .inr ⟨s', ?_, resumes, later⟩
    rw [inScope, run_bind_ok pushed, run_bind_ok (caught_run body s.opened), run_bind_ok closed]
    cases (body s.opened).1 <;> rfl
  · exact .inl ⟨ungranted, reply, run_bind_error refused⟩

theorem inScope_eq_ok {a : α} {s' : Session} (hbody : Keeps Session.Extends body) (run : inScope body s = (.ok a, s')) :
    ∃ t, body s.opened = (.ok a, t) ∧ s.Resumes s' ∧ t.world.Later s'.world := by
  rcases inScope_run hbody s with ⟨-, reply, refused⟩ | ⟨s'', entered, resumes, later⟩
  · cases refused.symm.trans run
  · obtain ⟨answered, rfl⟩ := Prod.mk.inj (entered.symm.trans run)
    exact ⟨_, Prod.ext answered rfl, resumes, later⟩

theorem keeps_close {R : Session → Session → Prop} [IsPreorder Session R] (popped : Keeps R pop)
    (noted : ∀ n, Keeps R (ofTalk (Talk.ofNoted (note n)))) : Keeps R close := by
  refine popped.tryCatch fun e => ?_
  split
  · exact noted _
  · exact .throw _

/-- What opening and closing a scope keep is kept by a scope whose body keeps it. -/
theorem keeps_scope {R : Session → Session → Prop} [IsPreorder Session R] (opened : Keeps R push)
    (closed : Keeps R close) (hbody : Keeps R body) : Keeps R (inScope body) := by
  have caught : Keeps R (tryCatch (Except.ok <$> body) fun e => return .error e) := by
    intro s
    rw [caught_run]
    exact hbody s
  refine opened.bind fun _ => caught.bind fun result => closed.bind fun _ => ?_
  split
  · exact .pure _
  · exact .throw _

theorem keeps_inScope (hbody : Keeps Session.Extends body) : Keeps Session.Resumes (inScope body) := by
  intro s
  rcases inScope_run hbody s with ⟨ungranted, reply, run⟩ | ⟨s', run, resumes, -⟩
  · rw [run]
    exact Session.resumes_told_push ungranted
  · rw [run]
    exact resumes

section
variable {facts : List Clause} {c question : Clause}

/-- What is done in the scope in which a clause is decided. -/
def decision (facts : List Clause) (c question : Clause) : Dialogue Bool := do
  assertAll facts
  assert (.not c)
  match ← check with
  | .unsat => return true
  | .sat =>
    if (← Talk.world).debug then remarkCounterexample c
    return false
  | .unknown => Talk.fail (.undecided (← Talk.ofChecked question.print))

theorem decideClause_eq : decideClause facts c question = inScope (decision facts c question) := rfl

/-- Given the facts and the negation of the clause, a check tells whether it holds. A check that is left open gives
no answer. -/
theorem decision_eq_ok {b : Bool} {s' : Session} (run : decision facts c question s = (.ok b, s')) :
    ∃ u v v' r, assertAll facts s = (.ok (), u) ∧ assert (.not c) u = (.ok (), v) ∧ check v = (.ok r, v') ∧
      v'.world.Later s'.world ∧ (r = .unsat ∧ b = true ∨ r = .sat ∧ b = false) := by
  obtain ⟨_, u, asserted, rest⟩ := run_bind_eq_ok run
  obtain ⟨_, v, negated, rest⟩ := run_bind_eq_ok rest
  obtain ⟨r, v', checked, rest⟩ := run_bind_eq_ok rest
  refine ⟨u, v, v', r, asserted, negated, checked, ?_⟩
  cases r with
  | unsat =>
    cases rest
    exact ⟨refl_of World.Later _, .inl ⟨rfl, rfl⟩⟩
  | sat =>
    obtain ⟨world, t, seen, rest⟩ := run_bind_eq_ok rest
    cases seen
    split at rest
    · obtain ⟨_, t, remarked, rest⟩ := run_bind_eq_ok rest
      cases rest
      exact ⟨((keeps_remarkCounterexample c).run remarked).later, .inr ⟨rfl, rfl⟩⟩
    · cases rest
      exact ⟨refl_of World.Later _, .inr ⟨rfl, rfl⟩⟩
  | unknown =>
    obtain ⟨text, t, -, rest⟩ := run_bind_eq_ok rest
    cases rest

/-- Without debugging nothing is done after a check that decides. -/
theorem decision_of_checked {u v v' : Session} {r : Response} (asserted : assertAll facts s = (.ok (), u))
    (negated : assert (.not c) u = (.ok (), v)) (checked : check v = (.ok r, v')) (decided : r ≠ .unknown)
    (silent : v'.world.debug = false) : ∃ b, decision facts c question s = (.ok b, v') := by
  rw [decision, run_bind_ok asserted, run_bind_ok negated, run_bind_ok checked]
  cases r with
  | unsat => exact ⟨true, rfl⟩
  | sat =>
    have seen : (liftM Talk.world : Dialogue World) v' = (.ok v'.world, v') := rfl
    refine ⟨false, (run_bind_ok seen).trans ?_⟩
    dsimp only
    rw [if_neg (by simp [silent])]
    rfl
  | unknown => exact absurd rfl decided

/-- With debugging, a counterexample is read right after the check. -/
theorem keeps_decision {R : Session → Session → Prop} [IsPreorder Session R] (plain : Plain (Keeps R))
    (told : Keeps R (assertAll facts)) (denied : Keeps R (assert (.not c)))
    (reads : ∀ u v v', assert (.not c) u = (.ok (), v) → check v = (.ok .sat, v') →
      R v (remarkCounterexample c v').2) : Keeps R (decision facts c question) := by
  refine told.bind fun _ u => ?_
  have first := denied u
  rcases negated : assert (.not c) u with ⟨f | ⟨⟩, v⟩ <;> rw [negated] at first
  · rwa [run_bind_error negated]
  have second := plain.check v
  rcases checked : check v with ⟨f | r, v'⟩ <;> rw [checked] at second <;> rw [run_bind_ok negated]
  · rw [run_bind_error checked]
    exact trans_of R first second
  rw [run_bind_ok checked]
  refine trans_of R first ?_
  cases r with
  | unsat => exact second
  | sat =>
    have seen : (liftM Talk.world : Dialogue World) v' = (.ok v'.world, v') := rfl
    dsimp only
    rw [run_bind_ok seen]
    split
    · have third := reads u v v' negated checked
      rcases remarked : remarkCounterexample c v' with ⟨f | ⟨⟩, w⟩ <;> rw [remarked] at third
      · rwa [run_bind_error remarked]
      · rwa [run_bind_ok remarked]
    · exact second
  | unknown =>
    have rest := plain.bind (plain.checked question.print) fun text =>
      plain.failed (α := Bool) (.undecided text) trivial
    exact trans_of R second (rest v')

theorem extends_decision (facts : List Clause) (c question : Clause) :
    Keeps Session.Extends (decision facts c question) :=
  keeps_decision quiet_extends.toPlain (keeps_assertAll facts) (keeps_assert _) fun _ _ _ _ => quiet_extends.reads c

theorem keeps_decideClause (facts : List Clause) (c question : Clause) :
    Keeps Session.Resumes (decideClause facts c question) := by
  rw [decideClause_eq]
  exact keeps_inScope (extends_decision facts c question)

end

theorem shrink_of_scopes {P : ∀ {α : Type}, Dialogue α → Prop} (steps : Stepwise Dialogue P)
    (asked : ∀ cs, P (inScope do
      assertAll cs
      check)) (kept cs : List Clause) : P (shrink kept cs) := by
  induction cs generalizing kept with
  | nil => exact steps.pure kept
  | cons c rest ih =>
    refine steps.bind (asked (kept ++ rest)) fun answer => ?_
    split
    · exact ih kept
    · exact ih (kept ++ [c])

theorem confirm_of_scopes {P : ∀ {α : Type}, Dialogue α → Prop} (steps : Stepwise Dialogue P)
    (asked : ∀ g later, P (inScope (refute g later))) (n : Nat) (gs : List Guess) : P (confirm n gs) := by
  induction n generalizing gs with
  | zero => exact steps.pure []
  | succ n ih =>
    cases gs with
    | nil => exact steps.pure []
    | cons g later =>
      refine steps.bind (asked g later) fun survivors => ?_
      cases survivors with
      | none => exact steps.map (ih later) _
      | some rest => exact ih rest

/-- Whatever is done in a dialogue has the property. -/
structure Throughout (P : ∀ {α : Type}, Dialogue α → Prop) : Prop extends Quiet P where
  acknowledge : ∀ c, P (acknowledge c)
  setSolver : ∀ f, P (setSolver f)
  inScope : ∀ {α : Type} {body : Dialogue α}, P body → P (inScope body)
  launch : ∀ config, P (ofTalk (Talk.launch config))
  inconsistent : ∀ core, P (ofTalk (Talk.fail (.inconsistent core)) : Dialogue Unit)

namespace Throughout
variable {P : ∀ {α : Type}, Dialogue α → Prop}

theorem assertAll (through : Throughout P) (cs : List Clause) : P (assertAll cs) :=
  through.forM fun c _ => through.assert (fun _ => through.acknowledge _) c

theorem restart (through : Throughout P) : P restart :=
  through.bind through.solver fun σ => through.bind (through.launch σ.config) fun _ => through.setSolver _

theorem shrink (through : Throughout P) (kept cs : List Clause) : P (shrink kept cs) :=
  shrink_of_scopes through.toStepwise
    (fun cs => through.inScope (through.bind (through.assertAll cs) fun _ => through.check)) kept cs

theorem diagnose (through : Throughout P) (captured : List Clause) : P (diagnose captured) := by
  refine through.bind (through.noted _) fun _ => through.bind through.restart fun _ => ?_
  exact through.bind (through.checked _) fun cs => through.map (through.shrink [] cs) _

theorem load (through : Throughout P) (e : Engine) : P (load e) := by
  refine through.bind (through.assertAll _) fun _ => through.bind through.check fun answer => ?_
  cases answer with
  | sat => exact through.pure ()
  | unsat =>
    -- The error that a diagnosis returns is thrown, so one has to see which it is.
    simp only [Dialogue.diagnose, bind_assoc, pure_bind]
    refine through.bind (through.noted _) fun _ => through.bind through.restart fun _ => ?_
    refine through.bind (through.checked _) fun cs => ?_
    exact through.bind (through.shrink [] cs) fun core => through.inconsistent _
  | unknown => exact through.failed _ trivial

theorem decideClause (through : Throughout P) (facts : List Clause) (c question : Clause) :
    P (decideClause facts c question) := by
  refine through.inScope (through.bind (through.assertAll _) fun _ => ?_)
  refine through.bind (through.assert (fun _ => through.acknowledge _) _) fun _ => ?_
  refine through.bind through.check fun answer => ?_
  cases answer with
  | unsat => exact through.pure true
  | sat =>
    refine through.bind through.world fun w => ?_
    split
    · exact through.map (through.remarkCounterexample c) _
    · exact through.pure false
  | unknown => exact through.bind (through.checked _) fun text => through.failed _ trivial

theorem constants (through : Throughout P) (candidates : List (ValueId × Expr)) : P (constants candidates) := by
  have confirmed (n : Nat) (gs : List Guess) : P (confirm n gs) :=
    confirm_of_scopes through.toStepwise
      (fun g later => through.inScope (through.refute (fun _ => through.acknowledge _) g later)) n gs
  refine through.bind through.check fun answer => ?_
  extract_lets seek
  have seeks (u : PUnit) : P (seek u) := through.bind (through.modelValues _) fun values => confirmed _ _
  split
  · exact through.bind (through.failed _ trivial) seeks
  · exact seeks ⟨⟩

end Throughout

end Dialogue
end SsaFacts
