import SsaFacts.Proofs.Declarations
import SsaFacts.Proofs.Discovery

/-! Models are read while they exist. A solver keeps a model from a check that finds one up to the next command that
declares, asserts, opens or closes. Whatever is asked of an engine and whatever is replied, values are asked for
right after such a check, and in names that the process has acknowledged before it. -/
namespace SsaFacts

open Smt

/-- What holds before holds after. -/
def Preserves {σ : Type} (P : σ → Prop) (s s' : σ) : Prop := P s → P s'

instance {σ : Type} (P : σ → Prop) : IsPreorder σ (Preserves P) where
  refl _ h := h
  trans _ _ _ h h' := fun p => h' (h p)

/-! ### Names that were acknowledged -/

namespace Smt

def Sexp.isSuccess : Sexp → Bool
  | .atom text => text = "success"
  | .string _ | .list _ => false

theorem Sexp.isSuccess_iff {reply : Sexp} : reply.isSuccess = true ↔ reply = .atom "success" := by
  cases reply <;> simp [isSuccess]

/-- The names of each open level, innermost first, after a command that was carried out. -/
def Command.rescope : Command → List (List String) → List (List String)
  | declare n _, top :: below => (n :: top) :: below
  | push, scopes => [] :: scopes
  | pop, scopes => scopes.tail
  | _, scopes => scopes

theorem Command.rescope_quiet {c : Command} (quiet : c.Quiet) (scopes : List (List String)) :
    c.rescope scopes = scopes := by
  cases c <;> first | rfl | exact quiet.elim

end Smt

/-- The names that a process knows at each open level, innermost first, given what happened, latest first. A
command counts if it was acknowledged. -/
def Host.scopes (h : Host) (process : Nat) : List Entry → List (List String)
  | [] => [[]]
  | .started q :: before => if q = process then [[]] else h.scopes process before
  | .sent q c :: before =>
    if q = process ∧ (h.reply before q c).isSuccess then c.rescope (h.scopes process before)
    else h.scopes process before

namespace Host
variable {h : Host} {process : Nat} {c : Command} {before : List Entry}

theorem scopes_of_success (success : h.reply before process c = .atom "success") :
    h.scopes process (.sent process c :: before) = c.rescope (h.scopes process before) := by
  rw [scopes, if_pos ⟨rfl, Sexp.isSuccess_iff.2 success⟩]

theorem scopes_of_refusal (refused : h.reply before process c ≠ .atom "success") :
    h.scopes process (.sent process c :: before) = h.scopes process before := by
  rw [scopes, if_neg fun success => refused (Sexp.isSuccess_iff.1 success.2)]

theorem scopes_of_quiet (quiet : c.Quiet) : h.scopes process (.sent process c :: before) = h.scopes process before := by
  by_cases success : h.reply before process c = .atom "success"
  · rw [scopes_of_success success, Command.rescope_quiet quiet]
  · exact scopes_of_refusal success

theorem scopes_started : h.scopes process (.started process :: before) = [[]] := if_pos rfl

end Host

/-! ### What happened so far -/

/-- Since `base`, every model was read right after the check that found it, in names that the process knew. -/
structure World.Prompt (h : Host) (base : List Entry) (w : World) : Prop where
  host_eq : w.host = h
  suffix : base <:+ w.history
  reads : ∀ process terms before, .sent process (.getValue terms) :: before <:+ w.history → base <:+ before →
    ∃ earlier, before = .sent process .checkSat :: earlier ∧ base <:+ earlier ∧
      h.reply earlier process .checkSat = .atom "sat" ∧
      ∀ t ∈ terms, ∀ n ∈ t.names, n ∈ (h.scopes process earlier).flatten

def Entry.Plain : Entry → Prop
  | .sent _ (.getValue _) => False
  | _ => True

namespace World.Prompt
variable {h : Host} {base : List Entry} {w w' : World}

theorem self (w : World) : w.Prompt w.host w.history where
  host_eq := rfl
  suffix := List.suffix_rfl
  reads process terms before sent since := by
    have shorter := sent.length_le
    have longer := since.length_le
    rw [List.length_cons] at shorter
    omega

theorem of_silent (prompt : w.Prompt h base) (silent : w.Silent w') : w'.Prompt h base where
  host_eq := silent.host_eq.trans prompt.host_eq
  suffix := silent.history_eq ▸ prompt.suffix
  reads := silent.history_eq ▸ prompt.reads

theorem cons (prompt : w.Prompt h base) {e : Entry} (plain : e.Plain) (host_eq : w'.host = w.host)
    (history_eq : w'.history = e :: w.history) : w'.Prompt h base where
  host_eq := host_eq.trans prompt.host_eq
  suffix := history_eq ▸ prompt.suffix.trans (List.suffix_cons e _)
  reads process terms before sent since := by
    rw [history_eq] at sent
    rcases List.suffix_cons_iff.1 sent with same | sent
    · cases same
      exact plain.elim
    · exact prompt.reads process terms before sent since

theorem told (prompt : w.Prompt h base) {p : Nat} {c : Command} (plain : (Entry.sent p c).Plain) :
    (w.told p c).Prompt h base := prompt.cons plain rfl rfl

end World.Prompt

namespace Talk
variable {h : Host} {base : List Entry}

theorem prompt_launch (config : Config) {w : World} (prompt : w.Prompt h base) :
    (launch config w).2.Prompt h base ∧
      ∀ p, (launch config w).1 = .ok p → h.scopes p (launch config w).2.history = [[]] := by
  rw [launch]
  rcases createReplay_run config w with ⟨replay, created⟩ | created
  swap
  · rw [run_bind_error created]
    exact ⟨prompt, by simp⟩
  let w₁ : World := { w with replay }
  have silent : w.Silent w₁ := ⟨rfl, rfl⟩
  rw [run_bind_ok created]
  rcases spawn_run config w₁ with ⟨p, spawned⟩ | spawned
  swap
  · rw [run_bind_error spawned]
    exact ⟨prompt.of_silent silent, by simp⟩
  rw [run_bind_ok spawned]
  -- the options are set one after the other, and change no names
  let Ready (w : World) : Prop := w.Prompt h base ∧ h.scopes p w.history = [[]]
  have started : Ready { w₁ with history := .started p :: w₁.history } :=
    ⟨(prompt.of_silent silent).cons (e := .started p) trivial rfl rfl, Host.scopes_started⟩
  have enable (o : String) : Keeps (Preserves Ready) (acknowledge p (.enable o)) := by
    intro w ready
    have next : Ready (w.told p (.enable o)) :=
      ⟨ready.1.told trivial, (Host.scopes_of_quiet (c := .enable o) trivial).trans ready.2⟩
    rcases acknowledge_run p (.enable o) w with sent | ⟨reply, sent⟩ <;> rw [sent] <;> exact next
  have set : Keeps (Preserves Ready) (do
      acknowledge p (.enable "print-success")
      acknowledge p (.enable "produce-models")
      acknowledge p (.enable "produce-models")
      return p) :=
    (enable _).bind fun _ => (enable _).bind fun _ => (enable _).bind fun _ => .pure p
  obtain ⟨prompt, scopes⟩ := set _ started
  refine ⟨prompt, fun q same => ?_⟩
  obtain ⟨_, _, -, rest⟩ := run_bind_eq_ok (Prod.ext same rfl)
  obtain ⟨_, _, -, rest⟩ := run_bind_eq_ok rest
  obtain ⟨_, _, -, rest⟩ := run_bind_eq_ok rest
  cases rest
  exact scopes

end Talk

theorem Solver.prompt_acquire {h : Host} {base : List Entry} (config : Config) {w : World} (prompt : w.Prompt h base) :
    (acquire config w).2.Prompt h base ∧ ∀ σ, (acquire config w).1 = .ok σ →
      σ.declared = [] ∧ σ.scopes = [[]] ∧ h.scopes σ.process (acquire config w).2.history = [[]] := by
  have seen : Talk.world w = (.ok w, w) := rfl
  rw [acquire, run_bind_ok seen]
  split
  · exact ⟨prompt, by rintro _ ⟨⟩⟩
  let w₁ : World := { w with leased := true }
  have taken : Talk.update (fun w => { w with leased := true }) w = (.ok (), w₁) := rfl
  have prompt₁ : w₁.Prompt h base := prompt.of_silent ⟨rfl, rfl⟩
  obtain ⟨prompt₂, scopes⟩ := Talk.prompt_launch config prompt₁
  dsimp only
  rw [run_bind_ok taken]
  rcases run : Talk.launch config w₁ with ⟨f | p, w₂⟩ <;> rw [run] at prompt₂ scopes
  · rw [run_bind_error (run_tryCatch_error run)]
    exact ⟨prompt₂.of_silent ⟨rfl, rfl⟩, by simp⟩
  · rw [run_bind_ok (run_tryCatch_ok run)]
    refine ⟨prompt₂, ?_⟩
    rintro _ ⟨⟩
    exact ⟨rfl, rfl, scopes p rfl⟩

/-! ### Dialogues -/

namespace Session

/-- The solver has recorded the names that its process has acknowledged, level by level. -/
structure Informed (h : Host) (base : List Entry) (s : Session) : Prop where
  prompt : s.world.Prompt h base
  scopes_eq : s.solver.scopes = h.scopes s.solver.process s.world.history
  scopes_ne_nil : s.solver.scopes ≠ []
  declared : ∀ n ∈ s.solver.declared, n ∈ s.solver.scopes.flatten

namespace Informed
variable {h : Host} {base : List Entry} {s : Session} {c : Command} {n : String} {width : Nat}

theorem of_silent {w : World} (informed : s.Informed h base) (silent : s.world.Silent w) :
    Informed h base { s with world := w } where
  prompt := informed.prompt.of_silent silent
  scopes_eq := informed.scopes_eq.trans (by rw [silent.history_eq])
  scopes_ne_nil := informed.scopes_ne_nil
  declared := informed.declared

theorem told (informed : s.Informed h base) (plain : (Entry.sent s.solver.process c).Plain) (quiet : c.Quiet) :
    (s.told c).Informed h base where
  prompt := informed.prompt.told plain
  scopes_eq := informed.scopes_eq.trans (Host.scopes_of_quiet quiet).symm
  scopes_ne_nil := informed.scopes_ne_nil
  declared := informed.declared

/-- A command that is refused changes no names. -/
theorem refused (informed : s.Informed h base) (plain : (Entry.sent s.solver.process c).Plain)
    (refused : s.world.host.reply s.world.history s.solver.process c ≠ .atom "success") :
    (s.told c).Informed h base where
  prompt := informed.prompt.told plain
  scopes_eq := by
    rw [informed.prompt.host_eq] at refused
    exact informed.scopes_eq.trans (Host.scopes_of_refusal refused).symm
  scopes_ne_nil := informed.scopes_ne_nil
  declared := informed.declared

theorem named (informed : s.Informed h base)
    (success : s.world.host.reply s.world.history s.solver.process (.declare n width) = .atom "success") :
    ((s.told (.declare n width)).named n).Informed h base := by
  obtain ⟨top, below, scopes⟩ := List.exists_cons_of_ne_nil informed.scopes_ne_nil
  have scopes' : ((s.told (.declare n width)).named n).solver.scopes = (n :: top) :: below := by
    simp [Session.named, Session.told, scopes]
  refine ⟨informed.prompt.told trivial, ?_, by simp [scopes'], fun m hm => ?_⟩
  · rw [informed.prompt.host_eq] at success
    have known := informed.scopes_eq
    rw [scopes] at known
    exact scopes'.trans ((Host.scopes_of_success success).trans (by rw [← known]; rfl)).symm
  · rw [scopes', List.flatten_cons, List.cons_append, List.mem_cons]
    refine (List.mem_cons.1 hm).imp_right fun old => ?_
    simpa [scopes] using informed.declared m old

theorem opened (informed : s.Informed h base)
    (success : s.world.host.reply s.world.history s.solver.process .push = .atom "success") :
    s.opened.Informed h base where
  prompt := informed.prompt.told trivial
  scopes_eq := by
    rw [informed.prompt.host_eq] at success
    exact (congrArg ([] :: ·) informed.scopes_eq).trans (Host.scopes_of_success success).symm
  scopes_ne_nil := List.cons_ne_nil _ _
  declared := informed.declared

theorem closed (informed : s.Informed h base) (inside : s.solver.scopes.tail ≠ [])
    (success : s.world.host.reply s.world.history s.solver.process .pop = .atom "success") :
    s.closed.Informed h base where
  prompt := informed.prompt.told trivial
  scopes_eq := by
    rw [informed.prompt.host_eq] at success
    exact (congrArg List.tail informed.scopes_eq).trans (Host.scopes_of_success success).symm
  scopes_ne_nil := inside
  declared n hn := by
    obtain ⟨top, below, scopes⟩ := List.exists_cons_of_ne_nil informed.scopes_ne_nil
    obtain ⟨mem, kept⟩ := List.mem_filter.1 hn
    have known := informed.declared n mem
    rw [scopes, List.flatten_cons, List.mem_append] at known
    have other : n ∉ top := by simpa [scopes] using kept
    simpa [Session.closed, scopes] using known.resolve_left other

end Informed
end Session

def Session.Names (s : Session) (e : Expr) : Prop := ∃ l, e = .leaf l ∧ l.solverName ∈ s.solver.declared

/-- The expression is a name that is declared, and the end of no inner scope forgets it. -/
def Session.Settles (s : Session) (e : Expr) : Prop := ∃ l, e = .leaf l ∧ s.Anchored l.solverName

theorem Session.Settles.names {s : Session} {e : Expr} : s.Settles e → s.Names e :=
  fun ⟨l, eq, anchored⟩ => ⟨l, eq, anchored.1⟩

theorem Session.Resumes.settles {s s' : Session} {e : Expr} (resumes : s.Resumes s') :
    s.Settles e → s'.Settles e := fun ⟨l, eq, anchored⟩ => ⟨l, eq, resumes.anchored _ anchored⟩

theorem Session.exists_leaves {s : Session} {es : List Expr} (named : ∀ e ∈ es, s.Names e) :
    ∃ ls : List Leaf, es = ls.map .leaf ∧ ∀ l ∈ ls, l.solverName ∈ s.solver.declared := by
  induction es with
  | nil => exact ⟨[], rfl, by simp⟩
  | cons e es ih =>
    obtain ⟨⟨l, rfl, first⟩, others⟩ := List.forall_mem_cons.1 named
    obtain ⟨ls, rfl, rest⟩ := ih others
    exact ⟨l :: ls, rfl, List.forall_mem_cons.2 ⟨first, rest⟩⟩

/-- How an answer is written. -/
def Response.word : Response → String
  | sat => "sat"
  | unsat => "unsat"
  | unknown => "unknown"

namespace Dialogue
variable {α : Type} {h : Host} {base : List Entry} {s t : Session} {body : Dialogue α}

theorem informed_ofTalk {t : Talk α} (silent : Keeps World.Silent t) :
    Keeps (Preserves (Session.Informed h base)) (ofTalk t) := fun s informed => informed.of_silent (silent s.world)

theorem informed_acknowledge {c : Command} (plain : ∀ p, (Entry.sent p c).Plain) (quiet : c.Quiet) :
    Keeps (Preserves (Session.Informed h base)) (acknowledge c) := by
  intro s informed
  rcases acknowledge_run c s with sent | ⟨reply, sent⟩ <;> rw [sent] <;> exact informed.told (plain _) quiet

theorem informed_declare (n : String) (width : Nat) :
    Keeps (Preserves (Session.Informed h base)) (declare n width) := by
  intro s informed
  by_cases mem : n ∈ s.solver.declared
  · rw [declare_of_mem mem]
    exact informed
  have solver : solver s = (.ok s.solver, s) := rfl
  rw [declare, run_bind_ok solver, if_neg (fun known => mem (List.contains_iff_mem.1 known))]
  by_cases success : s.world.host.reply s.world.history s.solver.process (.declare n width) = .atom "success"
  · rw [run_bind_ok (acknowledge_of_success success)]
    exact informed.named success
  · obtain ⟨reply, sent⟩ := acknowledge_of_refusal success
    rw [run_bind_error sent]
    exact informed.refused trivial success

theorem plain_informed : Plain (Keeps (Preserves (Session.Informed h base))) :=
  .of_silent informed_ofTalk informed_declare fun _ informed => informed.told trivial trivial

theorem informed_assert (c : Clause) : Keeps (Preserves (Session.Informed h base)) (assert c) :=
  plain_informed.assert (fun _ => informed_acknowledge (c := .assert _) (fun _ => trivial) trivial) c

theorem informed_assertAll (cs : List Clause) : Keeps (Preserves (Session.Informed h base)) (assertAll cs) :=
  .forM fun c _ => informed_assert c

theorem informed_close (informed : t.Informed h base) (inside : t.solver.scopes.tail ≠ []) :
    ∃ s', close t = (.ok (), s') ∧ s'.Informed h base := by
  by_cases success : t.world.host.reply t.world.history t.solver.process .pop = .atom "success"
  · exact ⟨t.closed, run_tryCatch_ok (pop_of_acknowledged (acknowledge_of_success success)),
      informed.closed inside success⟩
  · obtain ⟨reply, sent⟩ := acknowledge_of_refusal success
    let remark := Notice.scopeLeftOpen (Error.message (.process (.unexpectedReply reply)))
    have noted : Talk.ofNoted (note remark) (t.told .pop).world =
        (.ok (), (Talk.ofNoted (note remark) (t.told .pop).world).2) := rfl
    refine ⟨_, (run_tryCatch_error (run_bind_error sent)).trans (ofTalk_run noted), ?_⟩
    exact (informed.refused (c := .pop) trivial success).of_silent (Talk.keeps_ofNoted _ _)

theorem informed_inScope (stays : Keeps Session.Extends body) (informed : s.Informed h base)
    (within : s.opened.Informed h base → (body s.opened).2.Informed h base) :
    (inScope body s).2.Informed h base := by
  by_cases success : s.world.host.reply s.world.history s.solver.process .push = .atom "success"
  · have pushed : push s = (.ok (), s.opened) := run_bind_ok (acknowledge_of_success success)
    obtain ⟨names, scopes, -⟩ := Session.scopes_of_extends (stays s.opened)
    obtain ⟨s', closed, kept⟩ := informed_close (within (informed.opened success))
      (by rw [scopes]; exact informed.scopes_ne_nil)
    rw [inScope, run_bind_ok pushed, run_bind_ok (caught_run body s.opened), run_bind_ok closed]
    cases (body s.opened).1 <;> exact kept
  · obtain ⟨reply, sent⟩ := acknowledge_of_refusal success
    have refused : push s = (.error (.error (.process (.unexpectedReply reply))), s.told .push) := run_bind_error sent
    rw [inScope, run_bind_error refused]
    exact informed.refused trivial success

theorem check_eq_ok {answer : Response} (run : check s = (.ok answer, t)) :
    s.world.host.reply s.world.history s.solver.process .checkSat = .atom answer.word ∧ t = s.told .checkSat := by
  refine ⟨?_, by rw [← check_run, run]⟩
  have sent : send .checkSat s =
    (.ok (s.world.host.reply s.world.history s.solver.process .checkSat), s.told .checkSat) := rfl
  rw [check, run_bind_ok sent] at run
  generalize s.world.host.reply s.world.history s.solver.process .checkSat = reply at run
  split at run <;> cases run <;> rfl

/-- A model can be read right after the check that finds it, in names that were declared before. -/
theorem informed_modelValues {es : List Expr} (informed : s.Informed h base) (checked : check s = (.ok .sat, t))
    (named : ∀ e ∈ es, s.Names e) : (modelValues es t).2.Informed h base := by
  obtain ⟨ls, rfl, declared⟩ := Session.exists_leaves named
  obtain ⟨sat, rfl⟩ := check_eq_ok checked
  have told : (s.told .checkSat).Informed h base := informed.told trivial trivial
  by_cases empty : ls = []
  · subst empty
    exact told
  rw [modelValues_leaves (s := s.told .checkSat) empty declared]
  refine ⟨⟨told.prompt.host_eq, told.prompt.suffix.trans (List.suffix_cons _ _), ?_⟩,
    told.scopes_eq.trans (Host.scopes_of_quiet (c := .getValue _) trivial).symm, told.scopes_ne_nil, told.declared⟩
  intro process terms before sent since
  rcases List.suffix_cons_iff.1 sent with same | sent
  swap
  · exact told.prompt.reads process terms before sent since
  cases same
  rw [informed.prompt.host_eq] at sat
  refine ⟨s.world.history, rfl, informed.prompt.suffix, sat, fun t ht n hn => ?_⟩
  obtain ⟨l, hl, rfl⟩ := List.mem_map.1 ht
  obtain rfl := List.mem_singleton.1 hn
  have known := informed.declared _ (declared l hl)
  rwa [informed.scopes_eq] at known

theorem informed_remarkCounterexample {c : Clause} (informed : s.Informed h base) (checked : check s = (.ok .sat, t))
    (declared : ∀ l ∈ c.leaves, l.solverName ∈ s.solver.declared) : (remarkCounterexample c t).2.Informed h base := by
  have read : (modelValues (c.leaves.map .leaf) t).2.Informed h base := by
    refine informed_modelValues informed checked fun e he => ?_
    obtain ⟨l, hl, rfl⟩ := List.mem_map.1 he
    exact ⟨l, rfl, declared l hl⟩
  rw [remarkCounterexample]
  rcases run : modelValues (c.leaves.map .leaf) t with ⟨f | values, u⟩ <;> rw [run] at read
  · rwa [run_bind_error run]
  · rw [run_bind_ok run]
    exact (Keeps.forM fun pair _ => informed_ofTalk (Talk.keeps_ofNoted _)) u read

/-- A counterexample is read in the names of the clause, which was asserted. -/
theorem informed_decideClause (facts : List Clause) (c question : Clause) :
    Keeps (Preserves (Session.Informed h base)) (decideClause facts c question) := by
  intro s informed
  have kept : Keeps (Preserves (Session.Informed h base)) (decision facts c question) :=
    keeps_decision plain_informed (informed_assertAll facts) (informed_assert _) fun u v v' negated checked informed =>
      informed_remarkCounterexample informed checked (declared_of_assert (c := .not c) negated)
  rw [decideClause_eq]
  exact informed_inScope (extends_decision facts c question) informed (kept s.opened)

theorem informed_refute {g : Guess} {later : List Guess} (informed : s.Informed h base)
    (named : ∀ g ∈ later, s.Names g.expr) : (refute g later s).2.Informed h base := by
  rw [refute]
  cases compared : Clause.compare .ne g.expr (.literal g.literal) with
  | error f => exact informed
  | ok c =>
    have first : (liftM (Talk.ofChecked (.ok c)) : Dialogue Clause) s = (.ok c, s) := rfl
    rw [run_bind_ok first]
    have asserts : (assert c s).2.Informed h base := informed_assert c s informed
    rcases asserted : assert c s with ⟨f | ⟨⟩, t⟩ <;> rw [asserted] at asserts
    · rwa [run_bind_error asserted]
    have extended : s.Extends t := (keeps_assert c).run asserted
    have checks := plain_informed.check t asserts
    rcases checked : check t with ⟨f | answer, u⟩ <;> rw [checked] at checks <;> rw [run_bind_ok asserted]
    · rwa [run_bind_error checked]
    rw [run_bind_ok checked]
    cases answer with
    | unsat => exact checks
    | unknown => exact checks
    | sat =>
      have read : (modelValues (later.map Guess.expr) u).2.Informed h base := by
        refine informed_modelValues asserts checked fun e he => ?_
        obtain ⟨g, hg, rfl⟩ := List.mem_map.1 he
        obtain ⟨l, eq, declared⟩ := named g hg
        exact ⟨l, eq, extended.declared declared⟩
      dsimp only
      rcases values : modelValues (later.map Guess.expr) u with ⟨f | ls, v⟩ <;> rw [values] at read
      · rwa [run_bind_error values]
      · rwa [run_bind_ok values]

/-- Guesses are confirmed one after the other, each in a scope of its own, which leaves the names of the others. -/
theorem informed_confirm {steps : Nat} {gs : List Guess} (informed : s.Informed h base)
    (settled : ∀ g ∈ gs, s.Settles g.expr) : (confirm steps gs s).2.Informed h base := by
  induction steps generalizing gs s with
  | zero => exact informed
  | succ steps ih =>
    cases gs with
    | nil => exact informed
    | cons g later =>
      have others := (List.forall_mem_cons.1 settled).2
      have tested : (inScope (refute g later) s).2.Informed h base :=
        informed_inScope (keeps_refute g later) informed fun opened =>
          informed_refute opened fun g hg => (others g hg).names
      have resumes := keeps_inScope (keeps_refute g later) s
      rw [confirm]
      rcases run : inScope (refute g later) s with ⟨f | survivors, t⟩ <;> rw [run] at tested resumes
      · rwa [run_bind_error run]
      rw [run_bind_ok run]
      cases survivors with
      | none =>
        have confirmed := ih tested fun g hg => resumes.settles (others g hg)
        dsimp only
        rcases found : confirm steps later t with ⟨f | out, u⟩ <;> rw [found] at confirmed
        · rwa [run_bind_error found]
        · rwa [run_bind_ok found]
      | some rest =>
        obtain ⟨_, refuted, -⟩ := inScope_eq_ok (keeps_refute g later) run
        exact ih tested fun g hg => resumes.settles (others g (refute_subset refuted hg))

/-- The constants among names that are settled are found by reading models. -/
theorem informed_constants {candidates : List (ValueId × Expr)} (informed : s.Informed h base)
    (settled : ∀ x ∈ candidates, s.Settles x.2) : (constants candidates s).2.Informed h base := by
  have named : ∀ e ∈ candidates.map Prod.snd, s.Names e := by
    intro e he
    obtain ⟨x, hx, rfl⟩ := List.mem_map.1 he
    exact (settled x hx).names
  have checks := plain_informed.check s informed
  rw [constants]
  rcases checked : check s with ⟨f | answer, t⟩ <;> rw [checked] at checks
  · rwa [run_bind_error checked]
  rw [run_bind_ok checked]
  by_cases answered : answer = .sat
  swap
  · rw [if_pos answered]
    exact checks
  subst answered
  obtain ⟨-, rfl⟩ := check_eq_ok checked
  rw [if_neg (by simp)]
  dsimp only
  have read := informed_modelValues informed checked named
  have resumes : s.Resumes (modelValues (candidates.map Prod.snd) (s.told .checkSat)).2 := by
    obtain ⟨ls, eq, declared⟩ := Session.exists_leaves named
    rw [eq]
    exact trans_of Session.Resumes (Session.resumes_told rfl) (modelValues_resumes (s := s.told .checkSat) declared)
  rcases values : modelValues (candidates.map Prod.snd) (s.told .checkSat) with ⟨f | literals, u⟩ <;>
    rw [values] at read resumes
  · rwa [run_bind_error values]
  rw [run_bind_ok values]
  refine informed_confirm read fun g hg => ?_
  obtain ⟨⟨x, literal⟩, mem, rfl⟩ := List.mem_map.1 hg
  exact resumes.settles (settled x (List.of_mem_zip mem).1)

/-! ### Starting and diagnosing, which read no models -/

theorem informed_shrink (kept cs : List Clause) : Keeps (Preserves (Session.Informed h base)) (shrink kept cs) := by
  refine shrink_of_scopes plain_informed.toStepwise (fun cs s informed => ?_) kept cs
  exact informed_inScope ((keeps_assertAll cs).bind fun _ => keeps_check) informed
    ((informed_assertAll cs).bind (fun _ => plain_informed.check) s.opened)

theorem informed_restart (informed : s.Informed h base) :
    (restart s).2.world.Prompt h base ∧ ((restart s).1 = .ok () → (restart s).2.Informed h base) := by
  obtain ⟨prompt, scopes⟩ := Talk.prompt_launch s.solver.config informed.prompt
  rcases launched : Talk.launch s.solver.config s.world with ⟨f | p, w⟩ <;> rw [launched] at prompt scopes
  · rw [restart_of_error launched]
    exact ⟨prompt, nofun⟩
  · rw [restart_of_ok launched]
    exact ⟨prompt, fun _ => ⟨prompt, (scopes p rfl).symm, by simp, by simp⟩⟩

theorem prompt_diagnose (captured : List Clause) (informed : s.Informed h base) :
    (diagnose captured s).2.world.Prompt h base := by
  let w := (Talk.ofNoted (note .diagnosing) s.world).2
  have noted : (liftM (Talk.ofNoted (note .diagnosing)) : Dialogue Unit) s = (.ok (), { s with world := w }) := rfl
  obtain ⟨prompt, fresh⟩ := informed_restart (informed.of_silent (w := w) (Talk.keeps_ofNoted _ _))
  rw [diagnose, run_bind_ok noted]
  rcases restarted : restart { s with world := w } with ⟨f | ⟨⟩, t⟩ <;> rw [restarted] at prompt fresh
  · rwa [run_bind_error restarted]
  rw [run_bind_ok restarted]
  have shrunk : Keeps (Preserves (Session.Informed h base)) (do
      let core ← shrink [] (← Talk.ofChecked (Clause.nontrivial captured))
      return Error.inconsistent (core.map Clause.text)) :=
    (plain_informed.checked _).bind fun facts => (informed_shrink [] facts).bind fun _ => .pure _
  exact (shrunk t (fresh rfl)).prompt

theorem prompt_load (e : Engine) (informed : s.Informed h base) :
    (load e s).2.world.Prompt h base ∧ ((load e s).1 = .ok () → (load e s).2.Informed h base) := by
  have asserts : (assertAll e.facts s).2.Informed h base := informed_assertAll e.facts s informed
  rw [load]
  rcases asserted : assertAll e.facts s with ⟨f | ⟨⟩, t⟩ <;> rw [asserted] at asserts
  · rw [run_bind_error asserted]
    exact ⟨asserts.prompt, nofun⟩
  have checks := plain_informed.check t asserts
  rcases checked : check t with ⟨f | answer, u⟩ <;> rw [checked] at checks <;> rw [run_bind_ok asserted]
  · rw [run_bind_error checked]
    exact ⟨checks.prompt, nofun⟩
  rw [run_bind_ok checked]
  cases answer with
  | sat => exact ⟨checks.prompt, fun _ => checks⟩
  | unknown => exact ⟨checks.prompt, nofun⟩
  | unsat =>
    have diagnosed := prompt_diagnose e.capture.facts checks
    dsimp only
    rcases run : diagnose e.capture.facts u with ⟨f | report, v⟩ <;> rw [run] at diagnosed
    · rw [run_bind_error run]
      exact ⟨diagnosed, nofun⟩
    · rw [run_bind_ok run]
      exact ⟨diagnosed, nofun⟩

end Dialogue

/-! ### Engines -/

/-- What happened is in order, and the solver, if there is one, knows the names of its process. -/
structure Situation.Informed (h : Host) (base : List Entry) (s : Situation) : Prop where
  prompt : s.world.Prompt h base
  solver : ∀ σ ∈ s.engine.solver, (⟨s.world, σ⟩ : Session).Informed h base

namespace Inquiry
variable {α : Type} {h : Host} {base : List Entry} {s : Situation}

theorem informed_ofTalk {t : Talk α} (silent : Keeps World.Silent t) :
    Keeps (Preserves (Situation.Informed h base)) (ofTalk t) := fun s informed =>
  ⟨informed.prompt.of_silent (silent s.world), fun σ hσ => (informed.solver σ hσ).of_silent (silent s.world)⟩

theorem informed_start (prompt : s.world.Prompt h base) :
    (start s).2.world.Prompt h base ∧ (start s).2.engine = s.engine ∧
      ∀ σ, (start s).1 = .ok σ → (⟨(start s).2.world, σ⟩ : Session).Informed h base := by
  have own : engine s = (.ok s.engine, s) := rfl
  obtain ⟨acquired, fresh⟩ := Solver.prompt_acquire s.engine.config prompt
  rw [start, run_bind_ok own]
  rcases run : Solver.acquire s.engine.config s.world with ⟨f | σ, w⟩ <;> rw [run] at acquired fresh
  · rw [run_bind_error (lift_run run)]
    exact ⟨acquired, rfl, by simp⟩
  rw [run_bind_ok (lift_run run)]
  obtain ⟨declared, scopes, known⟩ := fresh σ rfl
  have informed : (⟨w, σ⟩ : Session).Informed h base :=
    ⟨acquired, scopes.trans known.symm, by simp [scopes], by simp [declared]⟩
  obtain ⟨prompt, holds⟩ := Dialogue.prompt_load s.engine informed
  rcases loaded : Dialogue.load s.engine ⟨w, σ⟩ with ⟨f | ⟨⟩, t⟩ <;> rw [loaded] at prompt holds <;>
    rw [run_bind_ok (converse_run (s := ⟨w, s.engine⟩) loaded)]
  · exact ⟨prompt.of_silent ⟨rfl, rfl⟩, rfl, by rintro _ ⟨⟩⟩
  · refine ⟨prompt, rfl, ?_⟩
    rintro _ ⟨⟩
    exact holds rfl

/-- A dialogue is held with a solver that knows the names of its process, and that holds the facts. -/
theorem informed_withSolver {d : Dialogue α} (informed : s.Informed h base)
    (minds : ∀ t : Session, t.Informed h base → (s.Coherent → t.Holds s.engine.facts) → (d t).2.Informed h base) :
    (withSolver d s).2.Informed h base := by
  have consulted {t : Session} (known : t.Informed h base) :
      Situation.Informed h base ⟨t.world, { s.engine with solver := some t.solver }⟩ := by
    refine ⟨known.prompt, ?_⟩
    rintro _ ⟨⟩
    exact known
  cases solver : s.engine.solver with
  | some σ =>
    rw [withSolver_of_some (d := d) solver rfl]
    exact consulted (minds ⟨s.world, σ⟩ (informed.solver σ solver) fun coherent => (coherent.holds σ solver).2)
  | none =>
    obtain ⟨prompt, same, fresh⟩ := informed_start informed.prompt
    rcases started : start s with ⟨f | σ, s'⟩ <;> rw [started] at prompt same fresh
    · rw [withSolver_of_failure solver started]
      refine ⟨prompt, fun σ hσ => ?_⟩
      rw [same, solver] at hσ
      cases hσ
    · obtain ⟨w, e⟩ := s'
      cases same
      rw [withSolver_of_none (d := d) (t := ⟨w, σ⟩) solver started rfl]
      refine consulted (minds ⟨w, σ⟩ (fresh σ rfl) fun coherent => ?_)
      rcases start_run coherent.stated with ⟨t, ready, -, -, holds⟩ | ⟨f, w', failed, -⟩
      · cases started.symm.trans ready
        exact holds
      · cases started.symm.trans failed

theorem informed_decides (facts : List Clause) (c question : Clause) :
    Keeps (Preserves (Situation.Informed h base)) (withSolver (Dialogue.decideClause facts c question)) :=
  fun _ informed => informed_withSolver informed fun t known _ => Dialogue.informed_decideClause facts c question t known

theorem asks_informed : Asks (Keeps (Preserves (Situation.Informed h base))) :=
  .of_silent informed_ofTalk informed_decides

theorem informed_close : Keeps (Preserves (Situation.Informed h base)) close := by
  refine Keeps.bind (.of_eq fun _ => rfl) fun e => ?_
  split
  · refine (informed_ofTalk fun _ => ⟨rfl, rfl⟩).bind fun _ => ?_
    exact fun s informed => ⟨informed.prompt, nofun⟩
  · exact .pure ()

theorem informed_checkConsistency : Keeps (Preserves (Situation.Informed h base)) checkConsistency := by
  intro s informed
  have own : engine s = (.ok s.engine, s) := rfl
  rw [checkConsistency, run_bind_ok own]
  cases solver : s.engine.solver with
  | some σ => exact informed
  | none =>
    dsimp only [Option.isNone]
    rw [if_pos rfl]
    obtain ⟨prompt, same, fresh⟩ := informed_start informed.prompt
    rcases started : start s with ⟨f | σ, s'⟩ <;> rw [started] at prompt same fresh
    · rw [run_bind_error started]
      refine ⟨prompt, fun σ hσ => ?_⟩
      rw [same, solver] at hσ
      cases hσ
    · rw [run_bind_ok started]
      refine ⟨prompt, ?_⟩
      rintro _ ⟨⟩
      exact fresh σ rfl

theorem informed_recalculate : Keeps (Preserves (Situation.Informed h base)) recalculate := by
  intro s informed
  have closed := informed_close s informed
  rcases hc : close s with ⟨f | ⟨⟩, s₁⟩ <;> rw [hc] at closed
  · rwa [recalculate, run_bind_error hc]
  have own : engine s₁ = (.ok s₁.engine, s₁) := rfl
  rw [recalculate, run_bind_ok hc, run_bind_ok own]
  rcases made : Engine.ofSubject s₁.engine.subject s₁.engine.config s₁.world.notices with ⟨f | e, ns⟩
  · rw [run_bind_error (lift_run (Talk.ofNoted_run made))]
    exact ⟨closed.prompt.of_silent ⟨rfl, rfl⟩, fun σ hσ => (closed.solver σ hσ).of_silent ⟨rfl, rfl⟩⟩
  · rw [run_bind_ok (lift_run (Talk.ofNoted_run made))]
    obtain ⟨-, -, none, -⟩ := Engine.ofSubject_eq_ok made
    refine informed_checkConsistency ⟨_, e⟩ ⟨closed.prompt.of_silent ⟨rfl, rfl⟩, fun σ hσ => ?_⟩
    rw [show e.solver = some σ from hσ] at none
    cases none

theorem informed_identifyConstants (coherent : s.Coherent) (informed : s.Informed h base) :
    (identifyConstants s).2.Informed h base := by
  let found := s.engine.candidates.map fun v => (v, Expr.leaf (s.engine.program.plainLeaf v))
  have own : engine s = (.ok s.engine, s) := rfl
  rw [identifyConstants, run_bind_ok own]
  rcases candidates_run s.engine s with ⟨f, failed⟩ | read
  · rwa [run_bind_error failed]
  rw [run_bind_ok read]
  have asked : (withSolver (Dialogue.constants found) s).2.Informed h base := by
    refine informed_withSolver informed fun t known holds => Dialogue.informed_constants known fun x hx => ?_
    obtain ⟨c, hc, hl⟩ := mentioned_candidates coherent x.1 (List.mem_map_of_mem hx)
    obtain ⟨v, -, rfl⟩ := List.mem_map.1 hx
    exact ⟨_, rfl, (holds coherent).anchored c hc _ hl⟩
  rcases run : withSolver (Dialogue.constants found) s with ⟨f | out, t⟩ <;> rw [run] at asked
  · rwa [run_bind_error run]
  rw [run_bind_ok run]
  have bind : Keeps (Preserves (Situation.Informed h base)) (do
      let classes ← Talk.ofNoted (out.foldlM
        (fun classes x => classes.identify (.value x.1) (.literal x.2)) s.engine.classes)
      setEngine fun e => { e with classes }
      return (← engine).knownConstants) := by
    refine (informed_ofTalk (Talk.keeps_ofNoted _)).bind fun classes => ?_
    refine Keeps.bind (fun s informed => ⟨informed.prompt, informed.solver⟩) fun _ => ?_
    exact Keeps.bind (.of_eq fun _ => rfl) fun e => .pure _
  exact bind t asked

theorem Operation.informed {x : Inquiry α} (op : Operation x) (coherent : s.Coherent) (informed : s.Informed h base) :
    (x s).2.Informed h base := by
  cases op with
  | provable c => exact asks_informed.provable c s informed
  | satisfiable c => exact asks_informed.satisfiable c s informed
  | provableOf pred stack₁ v₁ stack₂ v₂ => exact asks_informed.provableOf pred stack₁ v₁ stack₂ v₂ s informed
  | satisfiableOf pred stack₁ v₁ stack₂ v₂ => exact asks_informed.satisfiableOf pred stack₁ v₁ stack₂ v₂ s informed
  | identifyConstants => exact informed_identifyConstants coherent informed
  | checkConsistency => exact informed_checkConsistency s informed
  | recalculate => exact informed_recalculate s informed
  | close => exact informed_close s informed

end Inquiry

inductive Situation.Step : Situation → Situation → Prop
  | asked {α : Type} {x : Inquiry α} (s : Situation) (op : Inquiry.Operation x) : Step s (x s).2
  | switched (s : Situation) (debug : Bool) : Step s { s with world := { s.world with debug } }

theorem Situation.Step.informed {h : Host} {base : List Entry} {s s' : Situation} (step : Step s s') :
    Preserves (fun s => s.Coherent ∧ s.Informed h base) s s' := by
  rintro ⟨coherent, informed⟩
  cases step with
  | asked s op => exact ⟨op.keeps s coherent, op.informed coherent informed⟩
  | switched s debug =>
    exact ⟨coherent.of_world fun σ _ => Session.resumes_of_silent ⟨rfl, rfl⟩, informed.prompt.of_silent ⟨rfl, rfl⟩,
      fun σ hσ => (informed.solver σ hσ).of_silent ⟨rfl, rfl⟩⟩

theorem Situation.informed_of_run {subject : Subject} {config : Config} {e : Engine} {ns ns' : List Notice}
    {w : World} {s : Situation} (made : Engine.ofSubject subject config ns = (.ok e, ns'))
    (run : Relation.ReflTransGen Step ⟨w, e⟩ s) : s.Coherent ∧ s.Informed w.host w.history := by
  induction run with
  | refl =>
    refine ⟨coherent_ofSubject made w, World.Prompt.self w, fun σ hσ => ?_⟩
    obtain ⟨-, -, none, -⟩ := Engine.ofSubject_eq_ok made
    rw [show e.solver = some σ from hσ] at none
    cases none
  | tail _ step ih => exact step.informed ih

/-- Whatever an engine is asked, with or without debugging, and whatever is replied: a command that asks for values
comes right after a check by the same process that was answered by sat, and speaks only of names that the process has
acknowledged before the check, at levels that are still open. -/
theorem Inquiry.values_follow_checks {subject : Subject} {config : Config} {e : Engine} {ns ns' : List Notice}
    {w : World} {s : Situation} (made : Engine.ofSubject subject config ns = (.ok e, ns'))
    (run : Relation.ReflTransGen Situation.Step ⟨w, e⟩ s) :
    ∀ process terms before, .sent process (.getValue terms) :: before <:+ s.world.history → w.history <:+ before →
      ∃ earlier, before = .sent process .checkSat :: earlier ∧ w.history <:+ earlier ∧
        w.host.reply earlier process .checkSat = .atom "sat" ∧
        ∀ t ∈ terms, ∀ n ∈ t.names, n ∈ (w.host.scopes process earlier).flatten :=
  (Situation.informed_of_run made run).2.prompt.reads

theorem Inquiry.values_follow_checks_offset :
    ∃ s, Relation.ReflTransGen Situation.Step ⟨{ host := .offset }, .offset⟩ s ∧
      .sent 0 (.getValue [.name "x2"]) :: Host.talk.drop 5 <:+ s.world.history ∧
      ∃ earlier, Host.talk.drop 5 = .sent 0 .checkSat :: earlier ∧
        Host.offset.reply earlier 0 .checkSat = .atom "sat" ∧
        "x2" ∈ (Host.offset.scopes 0 earlier).flatten := by
  have asked := Relation.ReflTransGen.single
    (Situation.Step.asked ⟨{ host := .offset }, .offset⟩ .identifyConstants)
  rw [identifyConstants_offset] at asked
  have read : .sent 0 (.getValue [.name "x2"]) :: Host.talk.drop 5 <:+ Host.talk := List.drop_suffix 4 Host.talk
  obtain ⟨earlier, follows, -, sat, names⟩ := values_follow_checks Engine.ofSubject_offset asked 0
    [.name "x2"] (Host.talk.drop 5) read List.nil_suffix
  exact ⟨_, asked, read, earlier, follows, sat, names (.name "x2") (.head _) "x2" (by simp [Term.names])⟩

end SsaFacts
