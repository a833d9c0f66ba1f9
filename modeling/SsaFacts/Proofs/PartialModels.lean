import SsaFacts.Proofs.ModelReads
import SsaFacts.Proofs.OnceFunctions

/-! Models that are read short. The reply to a question for values is paired with what was asked, entry by entry, and
reading ends where either of the two ends. So a reply with too few entries gives too few values, and no error. If the
replies have an entry for each question, no candidate for a constant is lost: it is confirmed, or a model is known that
departs from it. -/
namespace SsaFacts

open Smt

/-! ### What a reply is read as -/

namespace Smt
variable {es : List Expr} {pairs : List (Sexp × Sexp)}

def Sexp.ofPairs (pairs : List (Sexp × Sexp)) : Sexp := .list (pairs.map fun x => .list [x.1, x.2])

theorem readPairs_map (pairs : List (Sexp × Sexp)) :
    readPairs (pairs.map fun x => .list [x.1, x.2]) = .ok pairs := by
  induction pairs with
  | nil => rfl
  | cons x rest ih =>
    rw [readPairs] at ih ⊢
    rw [List.map_cons, List.mapM_cons, ih]
    rfl

theorem eq_map_of_readPairs {items : List Sexp} (h : readPairs items = .ok pairs) :
    items = pairs.map fun x => .list [x.1, x.2] := by
  have each := forall₂_of_mapM_eq_ok h
  clear h
  induction each with
  | nil => rfl
  | cons first _ ih =>
    rw [List.map_cons, ← ih]
    split at first <;> cases first
    rfl

/-- What a reply that lists pairs may be read as. Either a value that is no literal is objected to. Or there are as many
values as both lists have entries, each in its place and at the width of its expression. -/
def ReadAs (es : List Expr) (pairs : List (Sexp × Sexp)) : Except Failure (List Literal) → Prop
  | .error f => ∃ (i : Nat) (e : Expr) (x : Sexp × Sexp), es[i]? = some e ∧ pairs[i]? = some x ∧
      (∀ v, readLiteral e.width x.2 ≠ .ok v) ∧ f = .error (.unexpectedModel x.2.text)
  | .ok values => values.length = min pairs.length es.length ∧
      ∀ (i : Nat) (v : Literal), values[i]? = some v → ∃ (e : Expr) (x : Sexp × Sexp),
        es[i]? = some e ∧ pairs[i]? = some x ∧ readLiteral e.width x.2 = .ok v ∧ v.width = e.width

theorem readAs_readModel (es : List Expr) (pairs : List (Sexp × Sexp)) :
    ReadAs es pairs (readModel es (.ofPairs pairs)) := by
  have eq : readModel es (.ofPairs pairs) =
      (pairs.zip es).mapM fun x => (readLiteral x.2.width x.1.2).mapError Failure.error := by
    rw [Sexp.ofPairs, readModel, readPairs_map]
    rfl
  cases read : readModel es (.ofPairs pairs) with
  | error err =>
    obtain ⟨⟨x, e⟩, mem, failed⟩ := exists_mem_of_mapM_eq_error (eq.symm.trans read)
    obtain ⟨i, hi⟩ := List.mem_iff_getElem?.1 mem
    obtain ⟨hx, he⟩ := List.getElem?_zip_eq_some.1 hi
    dsimp only at failed
    cases literal : readLiteral e.width x.2 with
    | ok v =>
      rw [literal] at failed
      cases failed
    | error cause =>
      rw [literal] at failed
      cases failed
      cases readLiteral_eq_error literal
      exact ⟨i, e, x, he, hx, by simp [literal], rfl⟩
  | ok values =>
    obtain ⟨items, pairs', reply, paired, each⟩ := readModel_ok read
    cases reply
    cases (readPairs_map pairs).symm.trans paired
    refine ⟨by rw [← each.length_eq, List.length_zip], fun i v hv => ?_⟩
    obtain ⟨⟨x, e⟩, hi, literal⟩ := exists_of_forall₂ each hv
    obtain ⟨hx, he⟩ := List.getElem?_zip_eq_some.1 hi
    exact ⟨e, x, he, hx, literal, width_of_readLiteral literal⟩

end Smt

/-! ### What was heard -/

/-- Since `base`, a command was sent after what is in `before`, and this was the reply. -/
structure World.Heard (w : World) (base before : List Entry) (process : Nat) (c : Command) (reply : Sexp) : Prop where
  sent : .sent process c :: before <:+ w.history
  since : base <:+ before
  reply_eq : w.host.reply before process c = reply

namespace World
variable {w w' : World} {base before : List Entry} {process : Nat} {c : Command} {reply : Sexp} {l : Leaf}
  {k : Literal} {answer : Response}

/-- A value for the leaf was asked for, and the literal stands in its place in the reply. -/
def Gave (w : World) (base : List Entry) (l : Leaf) (k : Literal) : Prop :=
  ∃ (before : List Entry) (process : Nat) (terms : List Term) (items : List Sexp) (i : Nat) (echo value : Sexp),
    w.Heard base before process (.getValue terms) (.list items) ∧ terms[i]? = some (.name l.solverName) ∧
    items[i]? = some (.list [echo, value]) ∧ readLiteral l.width value = .ok k

/-- A check was answered right after it had been asserted that the leaf differs from the literal. -/
def Tested (w : World) (base : List Entry) (l : Leaf) (k : Literal) (answer : Response) : Prop :=
  ∃ before process, base <:+ before ∧
    w.Heard base (.sent process (.assert (.not (.rel .eq (.name l.solverName) (.const k)))) :: before) process .checkSat
      (.atom answer.word)

/-- The replies to questions for values have an entry for each term, if they have entries at all. -/
def Complete (w : World) (base : List Entry) : Prop :=
  ∀ before process terms items, w.Heard base before process (.getValue terms) (.list items) →
    terms.length ≤ items.length

/-- What became of the guess that a leaf is constant: it could not be avoided, and is listed; or a model avoids it, one
that was looked for or one that was found for another leaf. -/
inductive Decides (w : World) (base : List Entry) (l : Leaf) (k : Literal) (listed : Prop) : Prop
  | confirmed (tested : w.Tested base l k .unsat) (mem : listed)
  | refuted (tested : w.Tested base l k .sat)
  | moved {k' : Literal} (given : w.Gave base l k') (ne : k' ≠ k)

theorem Heard.later (heard : w.Heard base before process c reply) (later : w.Later w') :
    w'.Heard base before process c reply where
  sent := heard.sent.trans later.suffix
  since := heard.since
  reply_eq := by rw [later.host_eq, heard.reply_eq]

theorem Gave.later (gave : w.Gave base l k) (later : w.Later w') : w'.Gave base l k := by
  obtain ⟨before, process, terms, items, i, echo, value, heard, place⟩ := gave
  exact ⟨before, process, terms, items, i, echo, value, heard.later later, place⟩

theorem Tested.later (tested : w.Tested base l k answer) (later : w.Later w') : w'.Tested base l k answer := by
  obtain ⟨before, process, since, heard⟩ := tested
  exact ⟨before, process, since, heard.later later⟩

theorem Decides.later {listed listed' : Prop} (decides : w.Decides base l k listed) (later : w.Later w')
    (keep : listed → listed') : w'.Decides base l k listed' := by
  cases decides with
  | confirmed tested mem => exact .confirmed (tested.later later) (keep mem)
  | refuted tested => exact .refuted (tested.later later)
  | moved given ne => exact .moved (given.later later) ne

theorem Complete.earlier (complete : w'.Complete base) (later : w.Later w') : w.Complete base :=
  fun before process terms items heard => complete before process terms items (heard.later later)

theorem Heard.of_told (since : base <:+ w.history) :
    (w.told process c).Heard base w.history process c (w.host.reply w.history process c) where
  sent := List.suffix_rfl
  since := since
  reply_eq := rfl

end World

/-! ### Candidates -/

namespace Dialogue
variable {s s' t : Session} {base : List Entry} {g : Guess} {later gs : List Guess}

/-- To assert that a name differs from a literal takes one command, if the name is declared. -/
theorem assert_ne_eq_ok {l : Leaf} {k : Literal} (declared : l.solverName ∈ s.solver.declared)
    (run : assert (.atom .ne (.leaf l) (.literal k)) s = (.ok (), t)) :
    t = s.told (.assert (.not (.rel .eq (.name l.solverName) (.const k)))) := by
  have solver : solver s = (.ok s.solver, s) := rfl
  rw [assert, run_bind_ok solver] at run
  obtain ⟨_, u, prepared, asserted⟩ := run_bind_eq_ok run
  obtain ⟨_, u, named, prepared⟩ := run_bind_eq_ok prepared
  cases (declare_of_mem declared).symm.trans named
  obtain ⟨_, u, written, prepared⟩ := run_bind_eq_ok prepared
  cases prepared
  obtain rfl : s = u := by
    rw [prepare] at written
    split at written <;> cases written
    rfl
  obtain ⟨_, u, told, rest⟩ := run_bind_eq_ok asserted
  cases rest
  exact acknowledge_eq_ok told

/-- If the reply is complete, a value is read for each name, and it is the one that was given. -/
theorem modelValues_gave {α : Type} {f : α → Expr} {xs : List α} {values : List Literal}
    (named : ∀ x ∈ xs, s.Names (f x)) (since : base <:+ s.world.history)
    (run : modelValues (xs.map f) s = (.ok values, s')) (complete : s'.world.Complete base) :
    ∀ x ∈ xs, ∃ l v, f x = .leaf l ∧ (x, v) ∈ xs.zip values ∧ s'.world.Gave base l v := by
  obtain ⟨ls, exprs, known⟩ := Session.exists_leaves (List.forall_mem_map.2 named)
  by_cases empty : ls = []
  · subst empty
    simp [List.map_eq_nil_iff.1 exprs]
  let terms := ls.map fun l => Term.name l.solverName
  rw [exprs, modelValues_leaves empty known] at run
  obtain ⟨read, rfl⟩ := Prod.mk.inj run
  obtain ⟨items, pairs, reply, paired, each⟩ := readModel_ok read
  have heard : (s.told (.getValue terms)).world.Heard base s.world.history s.solver.process (.getValue terms)
      (.list items) := reply ▸ .of_told since
  have entries := eq_map_of_readPairs paired
  have enough : ls.length ≤ pairs.length := by simpa [terms, entries] using complete _ _ _ _ heard
  intro x hx
  obtain ⟨i, place⟩ := List.mem_iff_getElem?.1 hx
  have expr : (ls.map Expr.leaf)[i]? = some (f x) := by
    rw [← exprs, List.getElem?_map, place]
    rfl
  obtain ⟨l, hl, leaf⟩ := Option.map_eq_some_iff.1 (List.getElem?_map.symm.trans expr)
  have bound : i < values.length := by
    have inside := (List.getElem?_eq_some_iff.1 hl).1
    rw [← each.length_eq, List.length_zip, List.length_map]
    omega
  have value := List.getElem?_eq_getElem bound
  obtain ⟨⟨pair, e⟩, zipped, literal⟩ := exists_of_forall₂ each value
  obtain ⟨hp, he⟩ := List.getElem?_zip_eq_some.1 zipped
  obtain rfl : Expr.leaf l = e := by simpa [hl] using he
  refine ⟨l, values[i], leaf.symm, List.mem_iff_getElem?.2 ⟨i, List.getElem?_zip_eq_some.2 ⟨place, value⟩⟩, ?_⟩
  exact ⟨_, _, terms, items, i, pair.1, pair.2, heard, by simp [terms, hl], by simp [entries, hp], literal⟩

/-- A guess is tested by one check. If a model avoids it, the later guesses that are not kept are avoided as well. -/
theorem refute_decides {l : Leaf} {r : Option (List Guess)} (expr_eq : g.expr = .leaf l)
    (declared : l.solverName ∈ s.solver.declared) (named : ∀ h ∈ later, s.Names h.expr)
    (since : base <:+ s.world.history) (run : refute g later s = (.ok r, s')) :
    (r = none ∧ s'.world.Tested base l g.literal .unsat) ∨
      ∃ rest, r = some rest ∧ rest.length ≤ later.length ∧ s'.world.Tested base l g.literal .sat ∧
        (s'.world.Complete base → ∀ h ∈ later, h ∈ rest ∨
          ∃ m k, h.expr = .leaf m ∧ s'.world.Gave base m k ∧ k ≠ h.literal) := by
  rw [refute, expr_eq] at run
  obtain ⟨c, t, compared, asserting⟩ := run_bind_eq_ok run
  obtain ⟨rfl, rfl⟩ : c = .atom .ne (.leaf l) (.literal g.literal) ∧ t = s := by
    rw [Clause.compare] at compared
    split at compared <;> cases compared
    exact ⟨rfl, rfl⟩
  obtain ⟨_, u, asserted, checking⟩ := run_bind_eq_ok asserting
  obtain rfl := assert_ne_eq_ok declared asserted
  obtain ⟨answer, u, checked, reading⟩ := run_bind_eq_ok checking
  obtain ⟨reply, rfl⟩ := check_eq_ok checked
  let differ : Command := .assert (.not (.rel .eq (.name l.solverName) (.const g.literal)))
  let u : Session := (t.told differ).told .checkSat
  have tested : u.world.Tested base l g.literal answer :=
    ⟨t.world.history, t.solver.process, since, reply ▸ .of_told (since.trans (List.suffix_cons _ _))⟩
  cases answer with
  | unknown => cases reading
  | unsat =>
    cases reading
    exact .inl ⟨rfl, tested⟩
  | sat =>
    obtain ⟨values, v, read, reading⟩ := run_bind_eq_ok reading
    cases reading
    replace read : modelValues (later.map Guess.expr) u = (.ok values, s') := read
    have after : u.world.Later s'.world := ((keeps_modelValues _).run read).later
    have extended : base <:+ u.world.history := since.trans ((List.suffix_cons _ _).trans (List.suffix_cons _ _))
    have named : ∀ h ∈ later, u.Names h.expr := named
    refine .inr ⟨_, rfl, ?_, tested.later after, fun complete h hh => ?_⟩
    · rw [List.length_map]
      exact (List.length_filter_le _ _).trans (by simp)
    · obtain ⟨m, value, leaf, mem, given⟩ := modelValues_gave named extended read complete h hh
      by_cases kept : h.literal = value
      · exact .inl (List.mem_map.2 ⟨(h, value), List.mem_filter.2 ⟨mem, by simpa using kept⟩, rfl⟩)
      · exact .inr ⟨m, value, leaf, given, fun same => kept same.symm⟩

theorem confirm_decides {steps : Nat} {out : List (ValueId × Literal)} (settled : ∀ g ∈ gs, s.Settles g.expr)
    (enough : gs.length ≤ steps) (since : base <:+ s.world.history) (run : confirm steps gs s = (.ok out, s'))
    (complete : s'.world.Complete base) :
    ∀ g ∈ gs, ∃ l, g.expr = .leaf l ∧ s'.world.Decides base l g.literal ((g.value, g.literal) ∈ out) := by
  induction steps generalizing gs s out with
  | zero =>
    obtain rfl : gs = [] := List.length_eq_zero_iff.1 (Nat.le_zero.1 enough)
    simp
  | succ steps ih =>
    cases gs with
    | nil => simp
    | cons g rest =>
      obtain ⟨⟨l, expr_eq, anchored⟩, others⟩ := List.forall_mem_cons.1 settled
      obtain ⟨survivors, t, entered, run⟩ := run_bind_eq_ok run
      obtain ⟨_, body, resumes, after⟩ := inScope_eq_ok (keeps_refute g rest) entered
      have decided := refute_decides expr_eq (s := s.opened) anchored.1 (fun h hh => (others h hh).names)
        (since.trans (List.suffix_cons _ _)) body
      have since' : base <:+ t.world.history := since.trans resumes.later.suffix
      have others' : ∀ h ∈ rest, t.Settles h.expr := fun h hh => resumes.settles (others h hh)
      refine List.forall_mem_cons.2 ?_
      cases survivors with
      | none =>
        obtain ⟨found, u, confirmed, run⟩ := run_bind_eq_ok run
        cases run
        have tail := ih others' (Nat.le_of_succ_le_succ enough) since' confirmed
        have later := trans_of World.Later after ((keeps_confirm steps rest).run confirmed).later
        rcases decided with ⟨-, tested⟩ | ⟨_, absurd, -⟩
        · refine ⟨⟨l, expr_eq, .confirmed (tested.later later) (.head _)⟩, fun h hh => ?_⟩
          obtain ⟨m, expr_eq, decides⟩ := tail h hh
          exact ⟨m, expr_eq, decides.later (refl_of World.Later _) (.tail _)⟩
        · cases absurd
      | some kept =>
        have later := trans_of World.Later after ((keeps_confirm steps kept).run run).later
        rcases decided with ⟨absurd, -⟩ | ⟨_, ⟨⟩, shorter, tested, avoided⟩
        · cases absurd
        · have tail := ih (fun h hh => others' h (refute_subset body hh))
            (shorter.trans (Nat.le_of_succ_le_succ enough)) since' run
          refine ⟨⟨l, expr_eq, .refuted (tested.later later)⟩, fun h hh => ?_⟩
          rcases avoided (complete.earlier later) h hh with mem | ⟨m, k, expr_eq, given, ne⟩
          · exact tail h mem
          · exact ⟨m, expr_eq, .moved (given.later later) ne⟩

section
variable {candidates : List (ValueId × Expr)} {out : List (ValueId × Literal)}

/-- Each candidate is given a literal, which is confirmed or which a model avoids. -/
theorem constants_decides (settled : ∀ x ∈ candidates, s.Settles x.2) (since : base <:+ s.world.history)
    (run : constants candidates s = (.ok out, s')) (complete : s'.world.Complete base) :
    ∀ x ∈ candidates, ∃ l k, x.2 = .leaf l ∧ s'.world.Gave base l k ∧ s'.world.Decides base l k ((x.1, k) ∈ out) := by
  obtain ⟨values, t, -, read, confirming⟩ := constants_eq_ok run
  have named : ∀ x ∈ candidates, (s.told .checkSat).Names x.2 := fun x hx => (settled x hx).names
  have resumes : s.Resumes t := by
    obtain ⟨ls, exprs, known⟩ := Session.exists_leaves (List.forall_mem_map.2 named)
    have reading := modelValues_resumes (s := s.told .checkSat) known
    rw [← exprs, read] at reading
    exact trans_of Session.Resumes (Session.resumes_told rfl) reading
  have guessed : ∀ g ∈ guesses candidates values, t.Settles g.expr := by
    intro g hg
    obtain ⟨⟨x, value⟩, mem, rfl⟩ := List.mem_map.1 hg
    exact resumes.settles (settled x (List.of_mem_zip mem).1)
  have decided := confirm_decides guessed le_rfl (since.trans resumes.later.suffix) confirming complete
  have later : t.world.Later s'.world := ((keeps_confirm _ _).run confirming).later
  intro x hx
  obtain ⟨l, k, leaf, mem, given⟩ :=
    modelValues_gave named (since.trans (List.suffix_cons _ _)) read (complete.earlier later) x hx
  obtain ⟨m, same, decides⟩ := decided _ (List.mem_map_of_mem mem)
  cases leaf.symm.trans same
  exact ⟨l, k, leaf, given.later later, decides⟩

theorem constants_functional (distinct : (candidates.map Prod.fst).Nodup)
    (run : constants candidates s = (.ok out, s')) (v : ValueId) (k k' : Literal) (hk : (v, k) ∈ out)
    (hk' : (v, k') ∈ out) : k = k' := by
  obtain ⟨values, t, -, -, confirming⟩ := constants_eq_ok run
  have distinct : ((guesses candidates values).map Guess.value).Nodup := by
    have eq : (guesses candidates values).map Guess.value = ((candidates.zip values).map Prod.fst).map Prod.fst := by
      simp [guesses]
    rw [eq, List.zip_eq_zip_take_min, List.map_fst_zip (by simp)]
    exact distinct.sublist ((List.take_sublist _ _).map Prod.fst)
  obtain ⟨g, hg, rfl, rfl⟩ := confirm_subset confirming _ hk
  obtain ⟨h, hh, value, rfl⟩ := confirm_subset confirming _ hk'
  rw [List.inj_on_of_nodup_map distinct hh hg value]

end

end Dialogue

theorem Situation.Coherent.nodup_fixed {s : Situation} (coherent : s.Coherent) : s.engine.capture.fixed.Nodup := by
  obtain ⟨e, ns, ns', run, capture, -⟩ := coherent.made
  obtain ⟨c, ns₁, captured, rest⟩ := run_bind_eq_ok run
  obtain ⟨e', ns₂, run', -, -, eq, -⟩ := Engine.ofSubject_ok captured
  cases run.symm.trans run'
  obtain ⟨top, loads, edges, library, collected, -⟩ := Subject.exists_collected captured
  obtain ⟨loaded, -, listed⟩ := Checked.bind_eq_ok.1 collected.fixed_eq
  rw [capture, eq, ← Except.ok.inj listed]
  exact List.nodup_range.filter _

namespace Inquiry
variable {s s' : Situation} {out : List (ValueId × Literal)}

theorem identifyConstants_decides (coherent : s.Coherent) (run : identifyConstants s = (.ok out, s'))
    (complete : s'.world.Complete s.world.history) :
    ∀ v ∈ s.engine.candidates, let l := s.engine.program.plainLeaf v
      ∃ k, s'.world.Gave s.world.history l k ∧ s'.world.Decides s.world.history l k ((v, k) ∈ out) := by
  rcases identifyConstants_run coherent with ⟨f, t, failed, -⟩ |
    ⟨t, t', found, classes, w, started, -, holds, answered, -, joined, silent, ok⟩
  · cases failed.symm.trans run
  cases ok.symm.trans run
  let candidates := s.engine.candidates.map fun v => (v, Expr.leaf (s.engine.program.plainLeaf v))
  have settled : ∀ x ∈ candidates, t.Settles x.2 := by
    intro x hx
    obtain ⟨c, hc, hl⟩ := mentioned_candidates coherent x.1 (List.mem_map_of_mem hx)
    obtain ⟨v, -, rfl⟩ := List.mem_map.1 hx
    exact ⟨_, rfl, holds.anchored c hc _ hl⟩
  have decided := Dialogue.constants_decides settled started.suffix answered (complete.earlier silent.later)
  have distinct : (candidates.map Prod.fst).Nodup := by
    have eq : candidates.map Prod.fst = s.engine.candidates := by simp [candidates, Function.comp_def]
    rw [eq]
    exact coherent.nodup_fixed.filter _
  have functional := Dialogue.constants_functional distinct answered
  have free : ∀ x ∈ found, s.engine.classes.root (.value x.1) = .value x.1 := by
    intro x hx
    obtain ⟨e, mem, -⟩ := Dialogue.constants_subset answered x hx
    obtain ⟨v, hv, eq⟩ := List.mem_map.1 mem
    cases eq
    exact (Engine.mem_candidates.1 hv).2.2.1
  intro v hv l
  obtain ⟨m, k, leaf, given, decides⟩ := decided (v, .leaf l) (List.mem_map_of_mem hv)
  cases leaf
  refine ⟨k, given.later silent.later, decides.later silent.later fun mem => ?_⟩
  refine Engine.mem_knownConstants.2 ⟨(Engine.mem_candidates.1 hv).1, ?_⟩
  refine (joined.root_eq_literal_iff coherent.rooted (fun x hx => .inl (free x hx)) functional _ k).2 (.inr ?_)
  exact ⟨v, free (v, k) mem, mem⟩

end Inquiry

/-- Whatever lists of pairs the host replies with, they are read entry by entry, up to the end of the shorter list. And
whenever constants are looked for, with replies that have an entry for each term: each candidate is given a literal, which
is confirmed and found to be the constant, or which is avoided by a model that was found. -/
theorem Inquiry.full_models_decide_candidates (t u : Session) (es : List Expr) (pairs : List (Sexp × Sexp))
    (s s' : Situation) (out : List (ValueId × Literal)) :
    (es ≠ [] → (es.flatMap (Expr.mentions t.solver.config.guards)).forM Dialogue.prepare t = (.ok (), u) →
      u.world.host.reply u.world.history u.solver.process
        (.getValue (es.map (Expr.encode t.solver.config.guards))) = .ofPairs pairs →
      ReadAs es pairs (Dialogue.modelValues es t).1) ∧
    (s.Reachable → identifyConstants s = (.ok out, s') → s'.world.Complete s.world.history →
      ∀ v ∈ s.engine.candidates, let l := s.engine.program.plainLeaf v
        ∃ k, s'.world.Gave s.world.history l k ∧ s'.world.Decides s.world.history l k ((v, k) ∈ out)) := by
  constructor
  · intro some prepared reply
    rw [Dialogue.modelValues_eq some prepared, reply]
    exact readAs_readModel es pairs
  · intro reachable run complete
    exact identifyConstants_decides reachable.coherent run complete

theorem Inquiry.full_models_decide_candidates_offset :
    ReadAs [.result 2 32] [(.atom "x2", .atom "#x00000004")] (Dialogue.modelValues [.result 2 32]
      ⟨{ host := .offset, history := Host.talk.drop 5, leased := true }, .offset⟩).1 ∧
    ∃ out s', identifyConstants ⟨{ host := .offset }, .offset⟩ = (.ok out, s') ∧ s'.world.Complete [] ∧
      ∃ k, s'.world.Gave [] (Engine.offset.program.plainLeaf 2) k ∧
        s'.world.Decides [] (Engine.offset.program.plainLeaf 2) k ((2, k) ∈ out) := by
  have complete : World.Complete { host := .offset, history := Host.talk, leased := true } [] := by
    intro before process terms items heard
    have sent : .sent process (.getValue terms) ∈ Host.talk := heard.sent.subset (.head _)
    obtain ⟨rfl, rfl⟩ : process = 0 ∧ terms = [.name "x2"] := by simpa [Host.talk] using sent
    cases heard.reply_eq
    exact le_rfl
  let first : Situation := ⟨{ host := .offset }, .offset⟩
  let asked : Session := ⟨{ host := .offset, history := Host.talk.drop 5, leased := true }, .offset⟩
  have read := full_models_decide_candidates asked asked [.result 2 32] [(.atom "x2", .atom "#x00000004")] first
  exact ⟨(read first []).1 (by simp) rfl rfl, _, _, identifyConstants_offset, complete,
    (read _ _).2 (.made _ Engine.ofSubject_offset) identifyConstants_offset complete 2 (by decide)⟩

/-- Answers as `Host.offset` does, but gives no values. -/
def Host.laconic : Host :=
  { Host.offset with
    reply := fun history process c =>
      match c with
      | .getValue _ => .list []
      | c => Host.offset.reply history process c }

theorem Inquiry.start_laconic : start ⟨{ host := .laconic }, .offset⟩ =
    (.ok .offset, ⟨{ host := .laconic, history := Host.talk.drop 6, leased := true }, .offset⟩) := by
  with_unfolding_all rfl

/-- One pair for two expressions is read as one value. And if no value is given for the only candidate, it is neither
tested nor found to be constant. -/
theorem Inquiry.candidate_lost_laconic :
    (Dialogue.modelValues [.result 2 32, .binary .add (.result 2 32) (.ofInt 32 1)]
      ⟨{ host := .offset, history := Host.talk.drop 5, leased := true }, .offset⟩).1 = .ok [.ofInt 32 4] ∧
    2 ∈ Engine.offset.candidates ∧
    ∃ s', identifyConstants ⟨{ host := .laconic }, .offset⟩ = (.ok [(3, .ofInt 32 5)], s') ∧
      s'.world.history = Host.talk.drop 4 ∧ ∀ k, ¬s'.world.Gave [] (Engine.offset.program.plainLeaf 2) k := by
  let first : Situation := ⟨{ host := .laconic }, .offset⟩
  let world (n : Nat) : World := { host := .laconic, history := Host.talk.drop n, leased := true }
  let solver : Solver := .offset
  have short : (Dialogue.modelValues [.result 2 32, .binary .add (.result 2 32) (.ofInt 32 1)]
      ⟨{ host := .offset, history := Host.talk.drop 5, leased := true }, .offset⟩).1 = .ok [.ofInt 32 4] := by
    with_unfolding_all rfl
  have answered : Dialogue.constants [(2, .result 2 32)] ⟨world 6, solver⟩ = (.ok [], ⟨world 4, solver⟩) := rfl
  have own : engine first = (.ok .offset, first) := rfl
  have held : withSolver (Dialogue.constants [(2, .result 2 32)]) first =
      (.ok [], ⟨world 4, { Engine.offset with solver := some solver }⟩) :=
    withSolver_of_none rfl start_laconic answered
  have read : (Engine.offset.candidates.mapM fun v =>
      return (v, ← Talk.ofChecked (Engine.offset.program.leaf v)) : Inquiry _) first =
        (.ok [(2, .result 2 32)], first) := rfl
  have run : identifyConstants first =
      (.ok [(3, .ofInt 32 5)], ⟨world 4, { Engine.offset with solver := some solver }⟩) := by
    rw [identifyConstants, run_bind_ok own, run_bind_ok read, run_bind_ok held]
    rfl
  refine ⟨short, by decide, _, run, rfl, fun k given => ?_⟩
  obtain ⟨before, process, terms, items, i, echo, value, heard, -, listed, -⟩ := given
  cases heard.reply_eq
  cases listed

end SsaFacts
