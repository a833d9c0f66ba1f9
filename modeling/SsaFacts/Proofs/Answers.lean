import SsaFacts.Proofs.Conversation

/-! What the answers of a truthful host tell: a check decides whether the levels have a model, and values
that are read back are those of a model, whichever way the host writes them. -/
namespace SsaFacts

open Smt

namespace Smt
variable {base : Nat} {digits : List Char} {n m w : Nat} {value : Sexp} {x : Vec} {l : Literal}

theorem digit?_digitChar {d : Nat} {c : Char} (hbase : base = 2 ∨ base = 16) (hd : d < base)
    (hc : c = d.digitChar ∨ c = d.digitChar.toUpper) : digit? base c = some d ∧ c ≠ '+' := by
  rcases hbase with rfl | rfl <;> interval_cases d <;> rcases hc with rfl | rfl <;>
    exact ⟨rfl, by decide⟩

theorem foldlM_digit? {ds : List Nat} (hbase : base = 2 ∨ base = 16)
    (spelled : List.Forall₂ (fun c d => d < base ∧ (c = d.digitChar ∨ c = d.digitChar.toUpper)) digits ds)
    (n : Nat) :
    digits.foldlM (fun n c => return n * base + (← digit? base c)) n =
      some (ds.foldl (fun n d => n * base + d) n) := by
  induction spelled generalizing n with
  | nil => rfl
  | cons h _ ih =>
    have read := (digit?_digitChar hbase h.1 h.2).1
    rw [List.foldlM_cons, read]
    exact ih _

/-- Digits are read as the number that they spell, unless it is too large. -/
theorem numeral?_spelled (hbase : base = 2 ∨ base = 16) (spells : Spells base digits n) (written : digits ≠ []) :
    numeral? base digits = if n < twoPow 64 then some n else none := by
  obtain ⟨ds, spelled, rfl⟩ := spells
  have value := foldlM_digit? hbase spelled 0
  cases spelled with
  | nil => exact absurd rfl written
  | cons first rest =>
    have plain := (digit?_digitChar hbase first.1 first.2).2
    rw [numeral?]
    · rw [if_neg (by simp), value]
      rfl
    · rintro rest eq
      exact plain (List.cons.inj eq).1

theorem numeral?_eq_some (hbase : base = 2 ∨ base = 16) (spells : Spells base digits n)
    (h : numeral? base digits = some m) : m = n := by
  have written : digits ≠ [] := by
    rintro rfl
    simp [numeral?] at h
  rw [numeral?_spelled hbase spells written] at h
  split at h
  · exact (Option.some.inj h).symm
  · cases h

theorem vec_of_readLiteral (numeral : Numeral value x) (hw : x.width = w) (small : w ≤ 64)
    (h : readLiteral w value = .ok l) : l.vec = x := by
  have exact_ofInt : (Literal.ofInt w x.bits.toNat).vec = x := by
    subst hw
    rw [Literal.vec_ofInt small, BitVec.ofInt_natCast, BitVec.ofNat_toNat, BitVec.setWidth_eq]
  cases numeral with
  | binary _ spells =>
    simp only [readLiteral, String.toList_ofList] at h
    split at h
    · rename_i n hn
      cases h
      rw [numeral?_eq_some (.inl rfl) spells hn, exact_ofInt]
    · cases h
  | hexadecimal _ spells =>
    simp only [readLiteral, String.toList_ofList] at h
    split at h
    · rename_i n hn
      cases h
      rw [numeral?_eq_some (.inr rfl) spells hn, exact_ofInt]
    · cases h
  | indexed => cases h

theorem width_of_readLiteral (h : readLiteral w value = .ok l) : l.width = w := by
  unfold readLiteral at h
  dsimp only at h
  split at h
  · cases h
    rfl
  · cases h

/-- What is read from the reply to a question for the values of expressions. -/
def readModel (es : List Expr) : Sexp → Except Failure (List Literal)
  | .list items => do
    let pairs ← (readPairs items).mapError Failure.fault
    (pairs.zip es).mapM fun x => (readLiteral x.2.width x.1.2).mapError Failure.error
  | .atom _ | .string _ => .error (.error (.process .unreadableModel))

/-- A reply that can be read is a list of pairs, whose values are literals at the widths of the expressions. -/
theorem readModel_ok {es : List Expr} {reply : Sexp} {values : List Literal} (read : readModel es reply = .ok values) :
    ∃ items pairs, reply = .list items ∧ readPairs items = .ok pairs ∧
      List.Forall₂ (fun x value => readLiteral x.2.width x.1.2 = .ok value) (pairs.zip es) values := by
  cases reply with
  | atom a => cases read
  | string a => cases read
  | list items =>
    rw [readModel] at read
    cases hp : readPairs items with
    | error f =>
      rw [hp] at read
      cases read
    | ok pairs =>
      rw [hp] at read
      refine ⟨items, pairs, rfl, hp, (forall₂_of_mapM_eq_ok read).imp fun x value h => ?_⟩
      cases hx : readLiteral x.2.width x.1.2 with
      | error e =>
        rw [hx] at h
        cases h
      | ok l =>
        rw [hx] at h
        cases h
        rfl

theorem forall₂_of_readPairs {ν : Assignment} {ls : List Leaf} {items : List Sexp}
    {pairs : List (Sexp × Sexp)} {values : List Literal} (small : ∀ l ∈ ls, l.width ≤ 64)
    (widths : ∀ l ∈ ls, (ν.env l).width = l.width)
    (listed : List.Forall₂ (Lists ν) (ls.map fun l => .name l.solverName) items)
    (paired : readPairs items = .ok pairs)
    (read : List.Forall₂ (fun x value => readLiteral x.2.width x.1.2 = .ok value)
      (pairs.zip (ls.map Expr.leaf)) values) :
    List.Forall₂ (fun l value => value.vec = ν.env l) ls values := by
  replace paired := forall₂_of_mapM_eq_ok paired
  induction ls generalizing items pairs values with
  | nil =>
    rw [List.map_nil, List.zip_nil_right] at read
    cases read
    exact .nil
  | cons l ls ih =>
    cases listed with
    | cons first listed =>
      obtain ⟨x, echo, value, denoted, numeral, rfl⟩ := first
      cases paired with
      | cons split paired =>
        cases split
        cases read with
        | cons literal read =>
          cases denoted
          refine .cons ?_ (ih (fun l hl => small l (by simp [hl])) (fun l hl => widths l (by simp [hl]))
            listed read paired)
          exact vec_of_readLiteral numeral (widths l (by simp)) (small l (by simp)) literal

end Smt

namespace Dialogue
variable {s s' : Session}

theorem check_run (s : Session) : (check s).2 = s.told .checkSat := by
  have sent : send .checkSat s =
    (.ok (s.world.host.reply s.world.history s.solver.process .checkSat), s.told .checkSat) := rfl
  rw [check, run_bind_ok sent]
  generalize s.world.host.reply s.world.history s.solver.process .checkSat = reply
  split <;> rfl

theorem check_ok {r : Response} (run : check s = (.ok r, s')) (honest : s'.world.Honest) :
    s' = s.told .checkSat ∧ (r = .sat ∧ HasModel s.levels ∨ r = .unsat ∧ ¬HasModel s.levels) := by
  have told : s' = s.told .checkSat := by rw [← check_run, run]
  subst told
  have sent : send .checkSat s =
    (.ok (s.world.host.reply s.world.history s.solver.process .checkSat), s.told .checkSat) := rfl
  have truthful : Truthful s.world.history s.solver.process .checkSat
    (s.world.host.reply s.world.history s.solver.process .checkSat) := honest.2
  refine ⟨rfl, ?_⟩
  rw [check, run_bind_ok sent] at run
  by_cases model : HasModel s.levels
  · rw [truthful.1 model] at run
    cases run
    exact .inl ⟨rfl, model⟩
  · rw [truthful.2 model] at run
    cases run
    exact .inr ⟨rfl, model⟩

theorem prepare_leaves {ls : List Leaf} (g : Guards) (declared : ∀ l ∈ ls, l.solverName ∈ s.solver.declared) :
    ((ls.map Expr.leaf).flatMap (Expr.mentions g)).forM prepare s = (.ok (), s) := by
  refine run_forM_ok fun m hm => ?_
  simp only [List.mem_flatMap, List.mem_map] at hm
  obtain ⟨e, ⟨l, hl, rfl⟩, hm⟩ := hm
  obtain rfl := List.mem_singleton.1 hm
  exact declare_of_mem (declared l hl)

/-- Values are asked for once their names are declared, and nothing is done after the reply. -/
theorem modelValues_eq {es : List Expr} {t : Session} (some : es ≠ [])
    (prepared : (es.flatMap (Expr.mentions s.solver.config.guards)).forM prepare s = (.ok (), t)) :
    let terms := es.map (Expr.encode s.solver.config.guards)
    modelValues es s = (readModel es (t.world.host.reply t.world.history t.solver.process (.getValue terms)),
      t.told (.getValue terms)) := by
  extract_lets terms
  have solver : solver s = (.ok s.solver, s) := rfl
  have sent : send (.getValue terms) t =
    (.ok (t.world.host.reply t.world.history t.solver.process (.getValue terms)), t.told (.getValue terms)) := rfl
  rw [modelValues, if_neg (by simpa using some), run_bind_ok solver, run_bind_ok prepared, run_bind_ok sent]
  cases t.world.host.reply t.world.history t.solver.process (.getValue terms) with
  | atom a => rfl
  | string a => rfl
  | list items =>
    rw [readModel]
    dsimp only
    cases readPairs items with
    | error f => rfl
    | ok pairs =>
      have first : (liftM (Talk.ofChecked (Except.ok pairs)) : Dialogue _) (t.told (.getValue terms)) =
        (.ok pairs, t.told (.getValue terms)) := rfl
      rw [run_bind_ok first]
      refine run_mapM_const (fun x t => ?_) (pairs.zip es) _
      cases readLiteral x.2.width x.1.2 <;> rfl

theorem modelValues_leaves {ls : List Leaf} (some : ls ≠ []) (declared : ∀ l ∈ ls, l.solverName ∈ s.solver.declared) :
    let terms := ls.map fun l => Term.name l.solverName
    modelValues (ls.map .leaf) s =
      (readModel (ls.map .leaf) (s.world.host.reply s.world.history s.solver.process (.getValue terms)),
        s.told (.getValue terms)) := by
  extract_lets terms
  have eq : (ls.map Expr.leaf).map (Expr.encode s.solver.config.guards) = terms := by simp [terms, Expr.encode]
  have run := modelValues_eq (by simpa using some) (prepare_leaves s.solver.config.guards declared)
  rwa [eq] at run

theorem modelValues_eq_ok {es : List Expr} {values : List Literal} (run : modelValues es s = (.ok values, s')) :
    es = [] ∧ values = [] ∧ s' = s ∨ es ≠ [] ∧ ∃ t : Session, let terms := es.map (Expr.encode s.solver.config.guards)
      (es.flatMap (Expr.mentions s.solver.config.guards)).forM prepare s = (.ok (), t) ∧
        readModel es (t.world.host.reply t.world.history t.solver.process (.getValue terms)) = .ok values ∧
        s' = t.told (.getValue terms) := by
  by_cases empty : es = []
  · subst empty
    cases run
    exact .inl ⟨rfl, rfl, rfl⟩
  · have opened := run
    rw [modelValues, if_neg (by simpa using empty)] at opened
    obtain ⟨solver, t₁, own, opened⟩ := run_bind_eq_ok opened
    cases own
    obtain ⟨_, t, prepared, -⟩ := run_bind_eq_ok opened
    rw [modelValues_eq empty prepared] at run
    obtain ⟨read, rfl⟩ := Prod.mk.inj run
    exact .inr ⟨empty, t, prepared, read, rfl⟩

/-- Reading values whose names are declared leaves the levels as they are. -/
theorem modelValues_resumes {ls : List Leaf} (declared : ∀ l ∈ ls, l.solverName ∈ s.solver.declared) :
    s.Resumes (modelValues (ls.map .leaf) s).2 := by
  by_cases empty : ls = []
  · subst empty
    exact refl_of Session.Resumes s
  · rw [modelValues_leaves empty declared]
    exact Session.resumes_told rfl

theorem modelValues_ok {ls : List Leaf} {values : List Literal}
    (run : modelValues (ls.map .leaf) (s.told .checkSat) = (.ok values, s'))
    (honest : s'.world.Honest) (model : HasModel s.levels)
    (declared : ∀ l ∈ ls, l.solverName ∈ s.solver.declared) (small : ∀ l ∈ ls, l.width ≤ 64)
    (widths : ∀ ν : Assignment, ν.Models s.levels → ∀ l ∈ ls, (ν.env l).width = l.width) :
    ∃ ν : Assignment, ν.Models s.levels ∧
      List.Forall₂ (fun l value => value.vec = ν.env l) ls values := by
  by_cases empty : ls = []
  · subst empty
    obtain ⟨ν, hν⟩ := model
    cases run
    exact ⟨ν, hν, .nil⟩
  · let checked := s.told .checkSat
    let terms := ls.map fun l => Term.name l.solverName
    have kept : checked.levels = s.levels := Session.levels_told .checkSat s
    rw [modelValues_leaves (s := checked) empty declared] at run
    obtain ⟨read, rfl⟩ := Prod.mk.inj run
    obtain ⟨items, pairs, reply, paired, read⟩ := readModel_ok read
    have truthful : Truthful checked.world.history s.solver.process (.getValue terms)
      (checked.world.host.reply checked.world.history s.solver.process (.getValue terms)) := honest.2
    replace reply : checked.world.host.reply checked.world.history s.solver.process (.getValue terms) =
      .list items := reply
    rw [reply] at truthful
    have stillModel : HasModel checked.levels := kept ▸ model
    obtain ⟨ν, hν, listing, same, listed⟩ := truthful rfl stillModel
    cases same
    replace hν : ν.Models s.levels := kept ▸ hν
    exact ⟨ν, hν, forall₂_of_readPairs small (widths ν hν) listed paired read⟩

end Dialogue
end SsaFacts
