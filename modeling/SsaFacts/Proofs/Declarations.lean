import SsaFacts.Proofs.Coherence

/-! The names that a solver takes to be declared. They are the names that its process knows: what is
declared at a level is recorded there and forgotten with it. So no name is declared twice, and whatever is
asserted or read has its names declared. -/
namespace SsaFacts

open Smt

def Smt.Command.Acknowledged : Command → Prop
  | checkSat | getValue _ => False
  | _ => True

/-- Nothing is refused. Checks and values are answered by anything. -/
def Host.Compliant (h : Host) : Prop :=
  ∀ before process c, c.Acknowledged → h.reply before process c = .atom "success"

namespace Smt
variable {c : Command} {ls : List Level} {l : Level}

def Level.names (l : Level) : List String := l.declared.map Prod.fst

def live (ls : List Level) : List String := (ls.map Level.names).flatten

/-- The command declares no name that is live, and speaks of live names only. -/
def Command.Proper (ls : List Level) : Command → Prop
  | declare n _ => n ∉ live ls
  | assert f => ∀ n ∈ f.names, n ∈ live ls
  | getValue terms => ∀ t ∈ terms, ∀ n ∈ t.names, n ∈ live ls
  | _ => True

/-- The commands that leave the names of every level as they are. -/
def Command.Quiet : Command → Prop
  | declare _ _ | push | pop => False
  | _ => True

theorem names_apply (quiet : c.Quiet) : (c.apply ls).map Level.names = ls.map Level.names := by
  cases c <;> cases ls <;> first | rfl | exact quiet.elim

theorem names_apply_declare {n : String} {w : Nat} :
    ((Command.declare n w).apply (l :: ls)).map Level.names = (n :: l.names) :: ls.map Level.names := rfl

end Smt

namespace Session
variable {s s' : Session} {base : List Entry} {c : Command} {n : String} {w : Nat}

/-- Since `base`, every command that was sent was proper. -/
def Orderly (base : List Entry) (h : List Entry) : Prop :=
  ∀ process c before, .sent process c :: before <:+ h → base <:+ before → c.Proper (Smt.levels process before)

theorem Orderly.sent {h : List Entry} {p : Nat} (orderly : Orderly base h)
    (proper : c.Proper (Smt.levels p h)) : Orderly base (.sent p c :: h) := by
  intro process c' before suffix later
  rcases List.suffix_cons_iff.1 suffix with eq | suffix
  · cases eq
    exact proper
  · exact orderly process c' before suffix later

theorem Orderly.started {h : List Entry} {p : Nat} (orderly : Orderly base h) :
    Orderly base (.started p :: h) := by
  intro process c before suffix later
  rcases List.suffix_cons_iff.1 suffix with eq | suffix
  · cases eq
  · exact orderly process c before suffix later

theorem orderly_self : Orderly base base := by
  intro process c before suffix later
  have shorter := suffix.length_le
  have longer := later.length_le
  rw [List.length_cons] at shorter
  omega

/-- The solver has recorded at every level the names that its process knows there, each of them once. -/
structure Tracks (base : List Entry) (s : Session) : Prop where
  compliant : s.world.host.Compliant
  scopes_eq : s.solver.scopes = s.levels.map Level.names
  nodup : s.solver.scopes.flatten.Nodup
  mem_declared : ∀ n, n ∈ s.solver.declared ↔ n ∈ s.solver.scopes.flatten
  orderly : Orderly base s.world.history

def Faithful (base : List Entry) (s s' : Session) : Prop := s.Tracks base → s'.Tracks base

instance : IsPreorder Session (Faithful base) where
  refl _ h := h
  trans _ _ _ h h' := fun t => h' (h t)

namespace Tracks

theorem mem_live (h : s.Tracks base) : n ∈ live s.levels ↔ n ∈ s.solver.declared := by
  rw [h.mem_declared, h.scopes_eq, live]

theorem of_silent {w : World} (h : s.Tracks base) (silent : s.world.Silent w) :
    Tracks base { s with world := w } where
  compliant := by
    rw [silent.host_eq]
    exact h.compliant
  scopes_eq := by
    rw [levels, silent.history_eq]
    exact h.scopes_eq
  nodup := h.nodup
  mem_declared := h.mem_declared
  orderly := by
    rw [silent.history_eq]
    exact h.orderly

theorem acknowledge (h : s.Tracks base) (acknowledged : c.Acknowledged) :
    Dialogue.acknowledge c s = (.ok (), s.told c) :=
  Dialogue.acknowledge_of_success (h.compliant _ _ _ acknowledged)

theorem told (h : s.Tracks base) (quiet : c.Quiet) (proper : c.Proper s.levels) :
    (s.told c).Tracks base where
  compliant := h.compliant
  scopes_eq := by
    rw [levels_told, names_apply quiet]
    exact h.scopes_eq
  nodup := h.nodup
  mem_declared := h.mem_declared
  orderly := h.orderly.sent proper

theorem named (h : s.Tracks base) (fresh : n ∉ s.solver.declared) :
    ((s.told (.declare n w)).named n).Tracks base := by
  obtain ⟨top, below, levels⟩ := List.exists_cons_of_ne_nil s.levels_ne_nil
  have scopes : s.solver.scopes = top.names :: below.map Level.names := by
    rw [h.scopes_eq, levels, List.map_cons]
  have scopes' : ((s.told (.declare n w)).named n).solver.scopes =
      (n :: top.names) :: below.map Level.names := by
    simp [Session.named, Session.told, scopes]
  have flat : ((s.told (.declare n w)).named n).solver.scopes.flatten = n :: s.solver.scopes.flatten := by
    rw [scopes', scopes, List.flatten_cons, List.flatten_cons, List.cons_append]
  refine ⟨h.compliant, ?_, ?_, fun m => ?_, h.orderly.sent fun known => fresh (h.mem_live.1 known)⟩
  · rw [scopes', levels_named, levels_told, levels, names_apply_declare]
  · rw [flat, List.nodup_cons, ← h.mem_declared]
    exact ⟨fresh, h.nodup⟩
  · rw [flat, List.mem_cons, ← h.mem_declared]
    exact List.mem_cons

theorem opened (h : s.Tracks base) : s.opened.Tracks base where
  compliant := h.compliant
  scopes_eq := by
    have levels : s.opened.levels = {} :: s.levels := levels_told .push s
    rw [levels, List.map_cons, ← h.scopes_eq]
    rfl
  nodup := h.nodup
  mem_declared := h.mem_declared
  orderly := h.orderly.sent trivial

theorem closed (h : s.Tracks base) (inside : 1 < s.solver.scopes.length) : s.closed.Tracks base := by
  -- The levels are as many as the scopes, so the process closes a level of its own.
  rw [h.scopes_eq, List.length_map] at inside
  obtain ⟨top, below, levels⟩ := List.exists_cons_of_ne_nil s.levels_ne_nil
  have outer : below ≠ [] := by
    rintro rfl
    rw [levels] at inside
    exact Nat.lt_irrefl 1 inside
  have scopes : s.solver.scopes = top.names :: below.map Level.names := by
    rw [h.scopes_eq, levels, List.map_cons]
  have nodup := h.nodup
  rw [scopes, List.flatten_cons, List.nodup_append] at nodup
  have scopes' : s.closed.solver.scopes = below.map Level.names := by simp [Session.closed, scopes]
  refine ⟨h.compliant, ?_, ?_, fun n => ?_, h.orderly.sent trivial⟩
  · have popped : s.closed.levels = below := by
      have told : s.closed.levels = Command.pop.apply s.levels := levels_told .pop s
      rw [told, levels, apply_pop_cons top outer]
    rw [popped, scopes']
  · rw [scopes']
    exact nodup.2.1
  · have kept : n ∈ s.closed.solver.declared ↔ n ∈ s.solver.declared ∧ n ∉ top.names := by
      simp [Session.closed, scopes]
    rw [kept, h.mem_declared, scopes', scopes, List.flatten_cons, List.mem_append]
    constructor
    · rintro ⟨mem | mem, other⟩
      · exact absurd mem other
      · exact mem
    · intro mem
      exact ⟨.inr mem, fun mem' => nodup.2.2 n mem' n mem rfl⟩

end Tracks
end Session

namespace Talk

/-- If nothing is refused, a process is started and told of its options, or nothing is started. -/
theorem launch_of_compliant (config : Config) {w : World} (compliant : w.host.Compliant) :
    (∃ p w', launch config w = (.ok p, w') ∧ w'.host = w.host ∧
        w'.history = .sent p (.enable "produce-models") :: .sent p (.enable "produce-models") ::
          .sent p (.enable "print-success") :: .started p :: w.history) ∨
      ∃ f w', launch config w = (.error f, w') ∧ w.Silent w' := by
  rw [launch]
  rcases createReplay_run config w with ⟨replay, created⟩ | created
  swap
  · exact .inr ⟨_, w, run_bind_error created, refl_of World.Silent w⟩
  let w₁ : World := { w with replay }
  rw [run_bind_ok created]
  rcases spawn_run config w₁ with ⟨p, spawned⟩ | spawned
  swap
  · exact .inr ⟨_, w₁, run_bind_error spawned, rfl, rfl⟩
  rw [run_bind_ok spawned]
  let w₂ : World := { w₁ with history := .started p :: w₁.history }
  have enabled (o : String) (w' : World) (same : w'.host = w.host) :
      acknowledge p (.enable o) w' = (.ok (), w'.told p (.enable o)) :=
    acknowledge_of_success (by rw [same]; exact compliant _ _ _ trivial)
  rw [run_bind_ok (enabled _ w₂ rfl), run_bind_ok (enabled _ (w₂.told p _) rfl),
    run_bind_ok (enabled _ ((w₂.told p _).told p _) rfl)]
  exact .inl ⟨p, _, rfl, rfl, rfl⟩

end Talk

namespace Session
variable {s : Session} {base : List Entry}

theorem tracks_launched {w w' : World} {p : Nat} (config : Config) (compliant : w.host.Compliant)
    (orderly : Orderly base w.history) (host : w'.host = w.host)
    (history : w'.history = .sent p (.enable "produce-models") :: .sent p (.enable "produce-models") ::
      .sent p (.enable "print-success") :: .started p :: w.history) :
    Tracks base ⟨w', { config, process := p }⟩ where
  compliant := by rwa [host]
  scopes_eq := by simp [levels, history, Command.apply, Level.names]
  nodup := by simp
  mem_declared := by simp
  orderly := by
    rw [history]
    have proper (o : String) (ls : List Level) : (Command.enable o).Proper ls := trivial
    exact ((orderly.started.sent (proper _ _)).sent (proper _ _)).sent (proper _ _)

end Session

namespace Dialogue
variable {α : Type} {s t : Session} {base : List Entry}

theorem faithful_ofTalk {t : Talk α} (h : Keeps World.Silent t) :
    Keeps (Session.Faithful base) (ofTalk t) := fun s tracks => tracks.of_silent (h s.world)

theorem faithful_declare (n : String) (w : Nat) : Keeps (Session.Faithful base) (declare n w) := by
  intro s tracks
  by_cases mem : n ∈ s.solver.declared
  · rw [declare_of_mem mem]
    exact tracks
  · have solver : solver s = (.ok s.solver, s) := rfl
    have sent := tracks.acknowledge (c := .declare n w) trivial
    rw [declare, run_bind_ok solver, if_neg (fun known => mem (List.contains_iff_mem.1 known)),
      run_bind_ok sent]
    exact tracks.named mem

theorem plain_faithful : Plain (Keeps (Session.Faithful base)) :=
  .of_silent faithful_ofTalk faithful_declare fun _ tracks => tracks.told trivial trivial

theorem faithful_prepareAll (ms : List Mention) : Keeps (Session.Faithful base) (ms.forM prepare) :=
  .forM fun m _ => plain_faithful.prepare m

theorem tracks_assertFormulas {fs : List Formula} (tracks : s.Tracks base)
    (declared : ∀ f ∈ fs, ∀ n ∈ f.names, n ∈ s.solver.declared) :
    (fs.forM (fun f => acknowledge (.assert f)) s).2.Tracks base := by
  induction fs generalizing s with
  | nil => exact tracks
  | cons f fs ih =>
    obtain ⟨first, later⟩ := List.forall_mem_cons.1 declared
    have told : (s.told (.assert f)).Tracks base :=
      tracks.told trivial fun n hn => tracks.mem_live.2 (first n hn)
    have sent := tracks.acknowledge (c := .assert f) trivial
    have run : (f :: fs).forM (fun f => acknowledge (.assert f)) s =
      fs.forM (fun f => acknowledge (.assert f)) (s.told (.assert f)) := run_bind_ok sent
    rw [run]
    exact ih told later

theorem faithful_assert (c : Clause) : Keeps (Session.Faithful base) (assert c) := by
  intro s tracks
  let g := s.solver.config.guards
  have solver : solver s = (.ok s.solver, s) := rfl
  rw [assert, run_bind_ok solver]
  have prepared := faithful_prepareAll (c.mentions g) s tracks
  rcases run : (c.mentions g).forM prepare s with ⟨f | ⟨⟩, t⟩ <;> rw [run] at prepared
  · rw [run_bind_error run]
    exact prepared
  · rw [run_bind_ok run]
    show ((c.formulas g).forM (fun f => acknowledge (.assert f)) t).2.Tracks base
    refine tracks_assertFormulas prepared fun f hf n hn => ?_
    obtain ⟨l, hl, rfl⟩ := Clause.names_formulas hf hn
    exact ready_of_prepareAll run (.leaf l) (Clause.leaf_mem_mentions.2 hl)

theorem faithful_modelValues (es : List Expr) : Keeps (Session.Faithful base) (modelValues es) := by
  intro s tracks
  by_cases empty : es = []
  · subst empty
    exact tracks
  let g := s.solver.config.guards
  have prepared := faithful_prepareAll (es.flatMap (Expr.mentions g)) s tracks
  rcases run : (es.flatMap (Expr.mentions g)).forM prepare s with ⟨f | ⟨⟩, t⟩ <;> rw [run] at prepared
  · have solver : solver s = (.ok s.solver, s) := rfl
    rw [modelValues, if_neg (by simpa using empty), run_bind_ok solver, run_bind_error run]
    exact prepared
  · rw [modelValues_eq empty run]
    refine prepared.told trivial fun term hterm n hn => prepared.mem_live.2 ?_
    obtain ⟨e, he, rfl⟩ := List.mem_map.1 hterm
    obtain ⟨l, hl, rfl⟩ := Expr.names_encode hn
    exact ready_of_prepareAll run (.leaf l) (List.mem_flatMap.2 ⟨e, he, Expr.leaf_mem_mentions.2 hl⟩)

theorem push_tracks (tracks : s.Tracks base) : push s = (.ok (), s.opened) :=
  run_bind_ok (tracks.acknowledge trivial)

theorem close_tracks (tracks : s.Tracks base) : close s = (.ok (), s.closed) :=
  run_tryCatch_ok (pop_of_acknowledged (tracks.acknowledge trivial))

theorem restart_of_ok {p : Nat} {w : World} (launched : Talk.launch s.solver.config s.world = (.ok p, w)) :
    restart s = (.ok (), ⟨w, { config := s.solver.config, process := p }⟩) := by
  have solver : solver s = (.ok s.solver, s) := rfl
  have lifted : (liftM (Talk.launch s.solver.config) : Dialogue Nat) s = (.ok p, { s with world := w }) :=
    ofTalk_run launched
  rw [restart, run_bind_ok solver, run_bind_ok lifted]
  rfl

theorem restart_of_error {f : Failure} {w : World}
    (failed : Talk.launch s.solver.config s.world = (.error f, w)) :
    restart s = (.error f, { s with world := w }) := by
  have solver : solver s = (.ok s.solver, s) := rfl
  have lifted : (liftM (Talk.launch s.solver.config) : Dialogue Nat) s = (.error f, { s with world := w }) :=
    ofTalk_run failed
  rw [restart, run_bind_ok solver, run_bind_error lifted]

theorem tracks_restart (tracks : s.Tracks base) (outside : s.solver.scopes.length = 1) :
    (restart s).2.Tracks base ∧ (restart s).2.solver.scopes.length = 1 := by
  rcases Talk.launch_of_compliant s.solver.config tracks.compliant with
    ⟨p, w, launched, host, history⟩ | ⟨f, w, failed, silent⟩
  · rw [restart_of_ok launched]
    exact ⟨Session.tracks_launched _ tracks.compliant tracks.orderly host history, rfl⟩
  · rw [restart_of_error failed]
    exact ⟨tracks.of_silent silent, outside⟩

end Dialogue

namespace Solver

inductive Move
  | assert (c : Clause)
  | check
  | display (c : Clause)
  | modelValues (es : List Expr)
  /-- Opens a scope. -/
  | enter
  /-- Closes the innermost scope. -/
  | leave
  | restart

namespace Move
variable {s : Session} {base : List Entry} {m : Move} {depth depth' : Nat}

/-- The session after a move, whether or not the move failed. -/
def after : Move → Session → Session
  | assert c, s => (Dialogue.assert c s).2
  | check, s => (Dialogue.check s).2
  | display c, s => (Dialogue.display c s).2
  | modelValues es, s => (Dialogue.modelValues es s).2
  | enter, s => (Dialogue.push s).2
  | leave, s => (Dialogue.close s).2
  | restart, s => (Dialogue.restart s).2

/-- How many scopes are open after a move, given how many are open before. Only a scope that is open is
closed, and the solver is restarted outside of scopes. -/
def depth? : Nat → Move → Option Nat
  | depth, enter => some (depth + 1)
  | 0, leave => none
  | depth + 1, leave => some depth
  | 0, restart => some 0
  | _ + 1, restart => none
  | depth, _ => some depth

theorem length_scopes {s' : Session} (h : s.Extends s') (length : s.solver.scopes.length = depth + 1) :
    s'.solver.scopes.length = depth + 1 := by
  obtain ⟨top, below, eq⟩ := List.exists_cons_of_length_eq_add_one length
  obtain ⟨added, eq', -⟩ := h.scopes top below eq
  rw [← length, eq, eq', List.length_cons, List.length_cons]

/-- One move keeps the names in step, and opens or closes the scopes that it should. -/
theorem tracks_after (tracks : s.Tracks base) (length : s.solver.scopes.length = depth + 1)
    (allowed : m.depth? depth = some depth') :
    (m.after s).Tracks base ∧ (m.after s).solver.scopes.length = depth' + 1 := by
  cases m with
  | assert c =>
    cases allowed
    exact ⟨Dialogue.faithful_assert c s tracks, length_scopes (Dialogue.keeps_assert c s) length⟩
  | check =>
    cases allowed
    exact ⟨Dialogue.plain_faithful.check s tracks, length_scopes (Dialogue.keeps_check s) length⟩
  | display c =>
    cases allowed
    exact ⟨Dialogue.plain_faithful.display c s tracks, length_scopes (Dialogue.quiet_extends.display c s) length⟩
  | modelValues es =>
    cases allowed
    exact ⟨Dialogue.faithful_modelValues es s tracks, length_scopes (Dialogue.keeps_modelValues es s) length⟩
  | enter =>
    cases allowed
    rw [after, Dialogue.push_tracks tracks]
    exact ⟨tracks.opened, congrArg (· + 1) length⟩
  | leave =>
    cases depth with
    | zero => cases allowed
    | succ depth =>
      cases allowed
      rw [after, Dialogue.close_tracks tracks]
      refine ⟨tracks.closed (by omega), ?_⟩
      rw [Session.closed, List.length_tail, length]
      rfl
  | restart =>
    cases depth with
    | succ depth => cases allowed
    | zero =>
      cases allowed
      exact Dialogue.tracks_restart tracks length

theorem tracks_foldl {moves : List Move} (tracks : s.Tracks base)
    (length : s.solver.scopes.length = depth + 1) (nested : (moves.foldlM depth? depth).isSome) :
    (moves.foldl (fun s m => m.after s) s).Tracks base := by
  induction moves generalizing s depth with
  | nil => exact tracks
  | cons m moves ih =>
    rw [List.foldlM_cons] at nested
    cases allowed : m.depth? depth with
    | none =>
      rw [allowed] at nested
      cases nested
    | some depth' =>
      rw [allowed] at nested
      obtain ⟨tracks', length'⟩ := tracks_after tracks length allowed
      exact ih tracks' length' nested

end Move

theorem tracks_acquire {config : Config} {w w' : World} {σ : Solver} (compliant : w.host.Compliant)
    (acquired : acquire config w = (.ok σ, w')) :
    Session.Tracks w.history ⟨w', σ⟩ ∧ σ.scopes = [[]] := by
  let w₁ : World := { w with leased := true }
  have seen : Talk.world w = (.ok w, w) := rfl
  have taken : Talk.update (fun w => { w with leased := true }) w = (.ok (), w₁) := rfl
  rw [acquire, run_bind_ok seen] at acquired
  split at acquired
  · cases acquired
  dsimp only at acquired
  rw [run_bind_ok taken] at acquired
  rcases Talk.launch_of_compliant config (w := w₁) compliant with
    ⟨p, w₂, launched, host, history⟩ | ⟨f, w₂, failed, -⟩
  · rw [run_bind_ok (run_tryCatch_ok launched)] at acquired
    cases acquired
    exact ⟨Session.tracks_launched config compliant Session.orderly_self host history, rfl⟩
  · rw [run_bind_error (run_tryCatch_error failed)] at acquired
    cases acquired

/-- However a solver is used, and whether or not that fails: the names that it takes to be declared are
those that its process knows at levels that are open, and each is recorded once, at the level where it was
declared. No command declares a name that is live, and none speaks of a name that is not. -/
theorem names_tracked {config : Config} {w w' : World} {σ : Solver} {moves : List Move}
    (compliant : w.host.Compliant) (acquired : acquire config w = (.ok σ, w'))
    (nested : (moves.foldlM Move.depth? 0).isSome) :
    let s := moves.foldl (fun s m => m.after s) ⟨w', σ⟩
    (∀ n, n ∈ s.solver.declared ↔ n ∈ live s.levels) ∧
      s.solver.scopes = s.levels.map Level.names ∧ s.solver.scopes.flatten.Nodup ∧
      ∀ process c before, .sent process c :: before <:+ s.world.history → w.history <:+ before →
        c.Proper (levels process before) := by
  obtain ⟨fresh, scopes⟩ := tracks_acquire compliant acquired
  have tracks := Move.tracks_foldl fresh (congrArg List.length scopes) nested
  exact ⟨fun n => tracks.mem_live.symm, tracks.scopes_eq, tracks.nodup, tracks.orderly⟩

end Solver

/-- Has a model for everything and lists nothing of it. -/
def Host.obliging : Host where
  launches _ _ := true
  creates _ := true
  reply
    | _, _, .checkSat => .atom "sat"
    | _, _, .getValue _ => .list []
    | _, _, _ => .atom "success"

/-- A name is met in a scope, forgotten with it, met again outside of it and once more after a restart. -/
def Solver.Move.revisits : List Move :=
  [.enter, .assert (.atom .eq (.result 2 32) (.ofInt 32 5)), .check, .modelValues [.result 3 32], .leave,
    .display (.atom .ne (.result 2 32) (.result 4 32)), .restart, .enter, .modelValues [.result 2 32]]

theorem Solver.names_tracked_revisits :
    ∃ s : Session,
      s = Move.revisits.foldl (fun s m => m.after s)
        ⟨(acquire {} { host := .obliging }).2, { config := {}, process := 0 }⟩ ∧
      s.solver.scopes = [["x2"], []] ∧ (∀ n, n ∈ s.solver.declared ↔ n ∈ live s.levels) ∧
      ∀ process c before, .sent process c :: before <:+ s.world.history → c.Proper (levels process before) := by
  have compliant : Host.obliging.Compliant := by
    intro before process c acknowledged
    cases c <;> first | rfl | exact acknowledged.elim
  have acquired : acquire {} { host := .obliging } =
    (.ok { config := {}, process := 0 }, (acquire {} { host := .obliging }).2) := rfl
  have nested : (Move.revisits.foldlM Move.depth? 0).isSome := by decide
  obtain ⟨names, -, -, orderly⟩ := names_tracked compliant acquired nested
  refine ⟨_, rfl, ?_, names, fun process c before sent => orderly process c before sent List.nil_suffix⟩
  decide +kernel

end SsaFacts
