import SsaFacts.Proofs.EarlierIterations
import SsaFacts.Proofs.TripCounts

/-! Bounds that tie an iteration of a loop to the one before. -/
namespace SsaFacts

open LoopForest (IsNatural)

namespace Subject
variable {s : Subject} {l : Loop} {δ : ZeroDivision}

theorem denote_previous {v : ValueId} {e : Expr} (found : s.previous v = .ok e) :
    e.width = s.program.modelWidth v ∧ ∀ current earlier : Valuation s.program,
      e.denote δ (current.withEarlier earlier) = earlier.value v := by
  obtain ⟨w, width, ⟨⟩⟩ := Checked.bind_eq_ok.1 found
  exact ⟨s.program.width_gives v w width, fun _ _ => rfl⟩

theorem recurrentBound_iff {iv cond : ValueId} {t : BlockId} {cs : List Clause}
    (found : s.recurrentBound l iv cond t = .ok cs) :
    s.program.modelWidth iv = wordWidth ∧ s.program.modelWidth cond = boolWidth ∧
      ∃ body, s.inLoopBody l = .ok body ∧ ∀ current earlier : Valuation s.program,
        (∀ c ∈ cs, c.denote δ (current.withEarlier earlier) = true) ↔
          (∀ c ∈ body, (s.earlier l c).denote δ (current.withEarlier earlier) = true) ∧
          earlier.value iv = BinOp.sub.value δ (current.read iv) ⟨wordWidth, 1⟩ ∧
          (current.read iv = ⟨wordWidth, 0⟩ ∨
            0 < (current.read iv).signed ∧ earlier.value cond = .ofBool (t = l.header)) := by
  obtain ⟨i, hi, found⟩ := Checked.bind_eq_ok.1 found
  obtain ⟨body, hbody, found⟩ := Checked.bind_eq_ok.1 found
  obtain ⟨less, hless, found⟩ := Checked.bind_eq_ok.1 found
  obtain ⟨prior, hprior, found⟩ := Checked.bind_eq_ok.1 found
  obtain ⟨step, hstep, found⟩ := Checked.bind_eq_ok.1 found
  obtain ⟨test, htest, found⟩ := Checked.bind_eq_ok.1 found
  obtain ⟨taken, htaken, found⟩ := Checked.bind_eq_ok.1 found
  obtain ⟨first, hfirst, found⟩ := Checked.bind_eq_ok.1 found
  obtain ⟨later, hlater, ⟨⟩⟩ := Checked.bind_eq_ok.1 found
  obtain ⟨word, rfl⟩ := Expr.combine_eq_ok.1 hless
  obtain ⟨-, rfl⟩ := Clause.compare_eq_ok.1 hstep
  obtain ⟨bool, rfl⟩ := Clause.compare_eq_ok.1 htaken
  obtain ⟨-, rfl⟩ := Clause.compare_eq_ok.1 hfirst
  obtain ⟨-, rfl⟩ := Clause.compare_eq_ok.1 hlater
  have wordIv : s.program.modelWidth iv = wordWidth := (Program.width_leaf hi).symm.trans word
  obtain ⟨boolCond, testValue⟩ := denote_previous (δ := δ) htest
  obtain ⟨wordPrior, priorValue⟩ := denote_previous (δ := δ) hprior
  refine ⟨wordIv, boolCond.symm.trans bool, body, hbody, fun current earlier => ?_⟩
  have value : i.denote δ (current.withEarlier earlier) = current.read iv := by
    rw [Valuation.denote_expr_withEarlier (s.program.leaf_stated iv i hi), (current.denote_leaf δ hi).1]
  have constant (z : Int) : (Expr.ofInt wordWidth z).denote δ (current.withEarlier earlier) = ⟨wordWidth, .ofInt _ z⟩ :=
    Literal.vec_ofInt (by decide) z
  have width : (current.read iv).width = wordWidth := (current.width_read iv).trans wordIv
  have stepIff := Predicate.truth_eq_iff (x := earlier.value iv)
    (y := BinOp.sub.value δ (current.read iv) ⟨wordWidth, .ofInt _ 1⟩)
    ((earlier.width_value iv).trans (current.width_read iv).symm)
  have firstIff := Predicate.truth_eq_iff (x := current.read iv) (y := ⟨wordWidth, .ofInt _ 0⟩) width
  have laterIff := Predicate.truth_sgt (x := current.read iv) (y := ⟨wordWidth, .ofInt _ 0⟩) width
  have takenIff := Predicate.truth_eq_iff (x := earlier.value cond) (y := .ofBool (t = l.header))
    ((earlier.width_value cond).trans (boolCond.symm.trans bool))
  simp only [List.forall_mem_append, List.forall_mem_map, List.forall_mem_cons, Clause.denote, Expr.denote, value,
    constant, priorValue, testValue, Literal.vec_bool, Bool.or_eq_true, Bool.and_eq_true, stepIff, firstIff, laterIff,
    takenIff]
  simp [Vec.signed]

/-- Without a trip count, what is said of a loop is a bound that ties two iterations, and its body. -/
theorem exists_recurrent {marked : List BlockId} {i : LoopId} {cs : List Clause}
    (made : Survey.ofProgram s.program marked = .ok s.survey) (hl : s.survey.loops[i]? = some l)
    (endless : l.tripCount = none) (found : s.inLoop l = .ok cs) :
    cs = [] ∨ ∃ iv incoming enter back x cond t f bound body, Counts s.program l iv incoming enter back ∧
      s.program.blocks[back.1]? = some x ∧ x.term = .condBr cond t f ∧
      s.recurrentBound l iv cond t = .ok bound ∧ s.inLoopBody l = .ok body ∧ cs = bound ++ body := by
  obtain ⟨bound, hbound, found⟩ := Checked.bind_eq_ok.1 found
  cases bound with
  | none =>
    cases found
    exact .inl rfl
  | some bound =>
    obtain ⟨body, hbody, ⟨⟩⟩ := Checked.bind_eq_ok.1 found
    unfold loopBound at hbound
    cases induction : l.induction with
    | none =>
      rw [induction] at hbound
      cases hbound
    | some iv =>
      obtain ⟨incoming, enter, back, counts⟩ :=
        LoopForest.exists_counts ((Survey.annotated made hl).counted iv induction).1
      rw [induction] at hbound
      dsimp only at hbound
      rw [counts.isPhi, Checked.ok_bind] at hbound
      dsimp only at hbound
      rw [if_neg counts.two_edges, endless, counts.split] at hbound
      dsimp only at hbound
      obtain ⟨x, hx, hbound⟩ := Checked.bind_eq_ok.1 hbound
      split at hbound
      case h_2 => cases hbound
      case h_1 cond t f term =>
        obtain ⟨bound, recurrent, ⟨⟩⟩ := Checked.bind_eq_ok.1 hbound
        exact .inr ⟨iv, incoming, enter, back, x, cond, t, f, bound, body, counts, Program.block_eq_ok.1 hx, term,
          recurrent, hbody, rfl⟩

theorem stated_of_mem_body {c : Clause} {body : List Clause} (ssa : s.program.Ssa) (found : s.inLoopBody l = .ok body)
    (mem : c ∈ body) : c.Stated s.program := by
  obtain ⟨v, asserts⟩ := (mem_inLoopBody ssa found).1 mem
  exact s.inUser_stated v _ asserts.found c rfl

end Subject

theorem Takes.read_eq {p : Program} {δ : ZeroDivision} {ρ : Valuation p} {cond : ValueId} {t f header : BlockId}
    {k : Nat} (takes : Takes p δ ρ.env (.condBr cond t f) k)
    (edge : (Terminator.condBr cond t f).successors[k]? = some header)
    (leaves : ¬(t = header ∧ f = header)) (bool : p.modelWidth cond = boolWidth) :
    ρ.read cond = .ofBool (t = header) := by
  obtain ⟨b, value⟩ := Vec.exists_bool ((ρ.width_read cond).trans bool)
  rw [value, Vec.ofBool_inj]
  cases takes with
  | ifTrue leaf set =>
    cases edge
    rw [(ρ.denote_leaf δ leaf).1, value, ne_eq, Vec.bits_ofBool, Bool.not_eq_false] at set
    simpa using set
  | ifFalse leaf clear =>
    cases edge
    rw [(ρ.denote_leaf δ leaf).1, value, Vec.bits_ofBool] at clear
    have other : t ≠ f := fun same => leaves ⟨same, rfl⟩
    simpa [other] using clear
  | free none => cases none

theorem sub_one_value {δ : ZeroDivision} {w : Nat} {x : BitVec w} (word : w = wordWidth) :
    BinOp.sub.value δ ⟨w, x + 1⟩ ⟨wordWidth, 1⟩ = ⟨w, x⟩ := by
  subst word
  rw [BinOp.value_mk]
  simp [BinOp.apply]

theorem signed_pos {w n : Nat} (word : w = wordWidth) (few : n + 1 < twoPow 31) :
    0 < (Vec.mk w (.ofNat w (n + 1))).signed := by
  subst word
  have bound : twoPow 31 = 2147483648 := by
    rw [twoPow_eq]
    norm_num
  have value : (BitVec.ofNat 32 (n + 1)).toInt = ((n + 1 : Nat) : Int) := by
    rw [BitVec.toInt_ofNat']
    exact Int.bmod_eq_of_le (by omega) (by omega)
  have positive : 0 < (BitVec.ofNat 32 (n + 1)).toInt := by omega
  exact positive

namespace Subject
variable {s : Subject} {l : Loop} {δ : ZeroDivision}

section
variable {marked : List BlockId} {i : LoopId} {e : BlockId} {iv cond : ValueId} {t f : BlockId} {bound : List Clause}
  {incoming : List (BlockId × ValueId)} {enter back : BlockId × ValueId} {current : Valuation s.program}
  (ssa : s.program.Ssa) (made : Survey.ofProgram s.program marked = .ok s.survey)
  (hl : s.survey.loops[i]? = some l) (natural : IsNatural s.program e l)
  (sized : ∀ v op, s.Own l v → s.program.op? v = .ok (some op) → op.Sized s.program)
  (counts : Counts s.program l iv incoming enter back) (recurrent : s.recurrentBound l iv cond t = .ok bound)
include ssa made hl natural sized counts recurrent

/-- In the first iteration there are values of an iteration earlier for which the bound is true. -/
theorem exists_bound_first (zero : current.read iv = ⟨wordWidth, 0⟩) :
    ∃ earlier : Valuation s.program, ∀ c ∈ bound, c.denote δ (current.withEarlier earlier) = true := by
  obtain ⟨-, -, body, hbody, bound_iff⟩ := recurrentBound_iff (δ := δ) recurrent
  obtain ⟨σ, same, ivEarlier, holds⟩ := exists_earlier_first (δ := δ) ssa made hl natural sized hbody counts current
    (x := BinOp.sub.value δ (current.read iv) ⟨wordWidth, 1⟩) (current.width_read iv)
  refine ⟨σ, (bound_iff current σ).2 ⟨fun c mem => ?_, ivEarlier, .inl zero⟩⟩
  rw [denote_earlier (stated_of_mem_body ssa hbody mem) (fun _ _ => rfl) fun v out => (same v out).symm]
  exact holds c mem

/-- In any other iteration these are the values at the end of the iteration before. -/
theorem exists_bound_later {now last : Passage s.program} {rest rest' beyond : List (Passage s.program)} {n k : Nat}
    (reducible : s.Reducible l e) (isRound : Round l (now :: rest)) (isRound' : Round l (last :: rest'))
    (trace : Trace s.program δ e ((now :: rest) ++ last :: (rest' ++ beyond)))
    (stable : ∀ u d, s.Bears l u → s.program.home? u = some d → l.contains d = true → s.ownBlock l d = false →
      now.values.value u = last.values.value u)
    (latch : last.block = back.1) (value : now.values.value iv = last.values.read back.2)
    (count : now.values.value iv = ⟨s.program.modelWidth iv, .ofNat _ (n + 1)⟩) (few : n + 1 < twoPow 31)
    (available : s.program.Available cond last.block)
    (takes : Takes s.program δ last.values.env (.condBr cond t f) k)
    (edge : (Terminator.condBr cond t f).successors[k]? = some l.header) (leaves : ¬(t = l.header ∧ f = l.header))
    (bears : s.Bears l cond) (ivCurrent : current.read iv = now.values.value iv)
    (other : ∀ v, ¬s.Own l v → current.value v = now.values.value v) :
    ∃ earlier : Valuation s.program, ∀ c ∈ bound, c.denote δ (current.withEarlier earlier) = true := by
  obtain ⟨wordIv, boolCond, body, hbody, bound_iff⟩ := recurrentBound_iff (δ := δ) recurrent
  obtain ⟨σ, same, ivEarlier, tested, holds⟩ := exists_earlier_later (δ := δ) ssa made hl natural reducible sized hbody
    counts isRound isRound' trace stable
  -- Where the test is not of the loop's own, its earlier value occurs nowhere else.
  let earlier : Valuation s.program := .mix (s.Own l) σ (σ.set cond (.ofBool (t = l.header)) boolCond.symm)
  have ivOwn := own_of_mem_header ssa made hl natural counts.listed
  have own (v : ValueId) (own : s.Own l v) : earlier.value v = σ.value v := Valuation.value_mix_pos own
  refine ⟨earlier, (bound_iff current earlier).2 ⟨fun c mem => ?_, ?_, .inr ⟨?_, ?_⟩⟩⟩
  · rw [denote_earlier (stated_of_mem_body ssa hbody mem) own fun v out => (other v out).trans (same v out).symm]
    exact holds c mem
  · obtain ⟨x, now_eq, next⟩ := trace.drop.read_back ssa natural.entry counts latch
    rw [own iv ivOwn, ivEarlier, ← last.values.read_of_op counts.isPhi, now_eq, ivCurrent, value, next,
      sub_one_value wordIv]
  · rw [ivCurrent, count]
    exact signed_pos wordIv few
  · by_cases isOwn : s.Own l cond
    · obtain ⟨d, home, ownD⟩ := isOwn
      have run : Trace s.program δ e ([] ++ last :: rest' ++ beyond) := trace.drop
      have visited := Round.mem_of_dominates natural run isRound' (ownBlock_iff.1 ownD).1
        (available _ _ d natural.entry home)
      obtain ⟨r, hr, rfl⟩ := List.mem_map.1 visited
      rw [own cond ⟨_, home, ownD⟩, tested cond ⟨_, home, ownD⟩ bears ⟨r, hr, home⟩,
        ← last.values.read_inst home, takes.read_eq edge leaves boolCond]
    · exact (Valuation.value_mix_neg isOwn).trans (Valuation.value_set_self _)

end

/-- Take a program in static single assignment form and a loop of it without a trip count, whose latch does not lead to
the header both ways. Let the constants of the loop's own instructions fit into words, and let every cycle through the
loop's own blocks that does not pass the header have a block that dominates the others. A run that is in the loop
consists of iterations. In an iteration before number `2 ^ 31` there are values of one iteration earlier under which all
that is said of the loop is true, where every value that is not of the loop's own or has been computed in the iteration
is the current one; provided that the values of inner loops on which the test of the latch depends are those of the end
of the iteration before. -/
theorem inLoop_holds {marked : List BlockId} {i : LoopId} {e : BlockId} {cs : List Clause} {now : Passage s.program}
    {before : List (Passage s.program)} (ssa : s.program.Ssa)
    (made : Survey.ofProgram s.program marked = .ok s.survey) (hl : s.survey.loops[i]? = some l)
    (endless : l.tripCount = none)
    (leaves : ∀ a x cond, l.contains a = true → s.program.blocks[a]? = some x →
      x.term ≠ .condBr cond l.header l.header)
    (he : s.program.IsEntry l.func e) (reducible : s.Reducible l e)
    (sized : ∀ v op, s.Own l v → s.program.op? v = .ok (some op) → op.Sized s.program) (found : s.inLoop l = .ok cs)
    (trace : Trace s.program δ e (now :: before)) (inside : l.contains now.block = true) :
    ∃ rest older outside, now :: before = (now :: rest) ++ older.flatten ++ outside ∧
      Iterations l ((now :: rest) :: older) outside ∧
      (older.length < twoPow 31 →
        (∀ last rest' older', older = (last :: rest') :: older' → ∀ u d, s.Bears l u →
          s.program.home? u = some d → l.contains d = true → s.ownBlock l d = false →
          now.values.value u = last.values.value u) →
        ∃ current earlier : Valuation s.program,
          (∀ v, (s.Own l v → ∃ t ∈ now :: rest, s.program.home? v = some t.block) →
            current.value v = now.values.value v) ∧
          ∀ c ∈ cs, c.denote δ (current.withEarlier earlier) = true) := by
  obtain ⟨e', natural⟩ := Survey.exists_natural ssa.regular ssa.confined made hl
  obtain rfl := natural.entry.unique he
  obtain ⟨rest, older, outside, split, its⟩ := trace.exists_iterations natural (List.contains_iff_mem.1 inside)
  refine ⟨rest, older, outside, split, its, fun few stable => ?_⟩
  rw [split] at trace
  rcases exists_recurrent made hl endless found with
    rfl | ⟨iv, incoming, enter, back, x, cond, t, f, bound, body, counts, hx, term, recurrent, hbody, rfl⟩
  · exact ⟨now.values, now.values, fun _ _ => rfl, by simp⟩
  have isRound := its.round _ List.mem_cons_self
  obtain ⟨current, agrees, holds⟩ := exists_current (δ := δ) ssa made hl natural reducible sized hbody isRound
    (by rwa [List.append_assoc] at trace)
  have ivNow := its.value_eq ssa natural counts trace
  have ivCurrent : current.read iv = now.values.value iv := by
    rw [current.read_of_op counts.isPhi]
    refine agrees iv fun _ => ?_
    obtain ⟨front, head, eq, header, -⟩ := isRound.starts
    exact ⟨head, by simp [eq], header ▸ ssa.regular.home?_eq counts.listed⟩
  have other (v : ValueId) (out : ¬s.Own l v) : current.value v = now.values.value v :=
    agrees v fun own => absurd own out
  suffices ∃ earlier : Valuation s.program, ∀ c ∈ bound, c.denote δ (current.withEarlier earlier) = true by
    obtain ⟨earlier, boundHolds⟩ := this
    refine ⟨current, earlier, agrees, List.forall_mem_append.2 ⟨boundHolds, fun c mem => ?_⟩⟩
    rw [Valuation.denote_withEarlier (stated_of_mem_body ssa hbody mem)]
    exact holds c mem
  cases older with
  | nil =>
    refine exists_bound_first ssa made hl natural sized counts recurrent ?_
    rw [ivCurrent, ivNow, (recurrentBound_iff (δ := δ) recurrent).1]
    rfl
  | cons round older =>
    obtain ⟨last, rest', rfl⟩ := (its.round round (by simp)).exists_eq_cons
    obtain ⟨latch, value, y, k, hy, takes, edge⟩ := its.value_later ssa natural counts trace
    cases hx.symm.trans (latch ▸ hy)
    rw [term] at takes edge
    have within := counts.edges.2.2
    have returns : t = l.header ∨ f = l.header := (List.mem_pair.1 (List.mem_of_getElem? edge)).imp .symm .symm
    rw [List.flatten_cons, List.append_assoc, List.append_assoc, List.cons_append] at trace
    exact exists_bound_later ssa made hl natural sized counts recurrent reducible isRound (its.round _ (by simp)) trace
      (stable last rest' older rfl) latch value ivNow few (ssa.conditions _ x hy cond (by rw [term]; rfl)) takes edge
      (fun both => leaves _ x cond within hx (by rw [term, both.1, both.2])) (.test within hx term returns) ivCurrent
      other

end Subject

/-! ### A loop with an instruction that is skipped -/

namespace Program

def skipping : Program where
  values := #[
    { ty := .int 32, kind := .param 0 0 },
    { ty := .int 32, kind := .const 0 },
    { ty := .int 32, kind := .const 1 },
    { ty := .int 32, kind := .const 5 },
    { ty := .int 32, kind := .inst 1 (.phi [(0, 1), (3, 7)]) },
    { ty := .int 1, kind := .inst 1 (.icmp .eq 4 1) },
    { ty := .int 32, kind := .inst 2 (.binary .add 4 3) },
    { ty := .int 32, kind := .inst 3 (.binary .add 4 2) },
    { ty := .int 1, kind := .inst 3 (.icmp .slt 7 0) }]
  blocks := #[
    { func := 0, name := "entry", term := .br 1 },
    { func := 0, name := "loop", insts := [4, 5], term := .condBr 5 2 3 },
    { func := 0, name := "first", insts := [6], term := .br 3 },
    { func := 0, name := "latch", insts := [7, 8], term := .condBr 8 1 4 },
    { func := 0, name := "exit", term := .ret none }]
  functions := #[{ name := "main", params := [0], ret := .void, blocks := [0, 1, 2, 3, 4] }]

theorem skipping_ssa : skipping.Ssa := ssa_of_test (by decide) (by decide) (by cbv)

theorem skipping_readings : (Survey.ofProgram skipping []).toOption.map Survey.readings =
    some (.ofLoops #[{ func := 0, header := 1, blocks := [1, 2, 3], induction := some 4 }]
      #[none, some 0, some 0, some 0, none]) := by
  cbv

end Program

namespace Subject

theorem inLoop_holds_skipping :
    Program.skipping.Ssa ∧ ∃ survey l cs, Survey.ofProgram .skipping [] = .ok survey ∧ survey.loops[0]? = some l ∧
      l.tripCount = none ∧
      (∀ a x cond, l.contains a = true → Program.skipping.blocks[a]? = some x →
        x.term ≠ .condBr cond l.header l.header) ∧
      Program.skipping.IsEntry l.func 0 ∧ Reducible { program := .skipping, survey } l 0 ∧
      (∀ v op, Own { program := .skipping, survey } l v → Program.skipping.op? v = .ok (some op) → op.Sized .skipping) ∧
      inLoop { program := .skipping, survey } l = .ok cs ∧ cs.length = 10 ∧
      ∃ (δ : ZeroDivision) (now : Passage .skipping) (before : List (Passage .skipping)),
        Trace .skipping δ 0 (now :: before) ∧ l.contains now.block = true ∧
        now.values.read 4 = ⟨32, 1⟩ ∧ now.values.read 6 = ⟨32, 5⟩ ∧
        ∃ rest older outside, now :: before = (now :: rest) ++ older.flatten ++ outside ∧
          Iterations l ((now :: rest) :: older) outside ∧ older.length < twoPow 31 ∧
          ∃ current earlier : Valuation .skipping,
            (∀ v, (Own { program := .skipping, survey } l v →
              ∃ t ∈ now :: rest, Program.skipping.home? v = some t.block) → current.value v = now.values.value v) ∧
            ∀ c ∈ cs, c.denote δ (current.withEarlier earlier) = true := by
  let l : Loop := { func := 0, header := 1, blocks := [1, 2, 3], induction := some 4 }
  let r : Survey.Readings := .ofLoops #[l] #[none, some 0, some 0, some 0, none]
  obtain ⟨s, made⟩ := Survey.exists_withReadings (r := r) Program.skipping_readings
  have leaves : ∀ a x cond, l.contains a = true → Program.skipping.blocks[a]? = some x →
      x.term ≠ .condBr cond l.header l.header := by
    intro a x cond inside hx same
    simp only [l, Loop.contains, List.contains_iff_mem, List.mem_cons, List.not_mem_nil, or_false] at inside
    rcases inside with rfl | rfl | rfl <;> cases hx <;> cases same
  have sized : ∀ v op, Program.skipping.op? v = .ok (some op) → op.Sized .skipping := by
    intro v op isOp
    obtain ⟨k, kind, named⟩ := Checked.bind_eq_ok.1 isOp
    obtain ⟨x, hx, rfl⟩ := Option.map_eq_some_iff.1 (Program.kind_eq_ok.1 kind)
    have mem := Array.mem_of_getElem? hx
    simp only [Program.skipping, List.mem_toArray, List.mem_cons, List.not_mem_nil, or_false] at mem
    rcases mem with rfl | rfl | rfl | rfl | rfl | rfl | rfl | rfl | rfl <;> cases named <;> trivial
  obtain ⟨cs, facts, length⟩ :
      ∃ cs, inLoop { program := .skipping, survey := s.withReadings r } l = .ok cs ∧ cs.length = 10 := ⟨_, rfl, rfl⟩
  have run : (Program.skipping.run? (fun _ _ x => x) 0 (.uniform _ 3) 5).map (fun all => all.head?.map fun now =>
      (now.block, all.tail.length, now.values.read 4, now.values.read 6)) = some (some (3, 5, ⟨32, 1⟩, ⟨32, 5⟩)) := rfl
  obtain ⟨now, before, trace, view⟩ := Trace.exists_of_run? (fun now before =>
    (now.block, before.length, now.values.read 4, now.values.read 6)) run
  simp only [Prod.mk.injEq] at view
  obtain ⟨block, steps, counter, skipped⟩ := view
  have inside : l.contains now.block = true := by
    rw [block]
    rfl
  have ascending : ∀ a ∈ Program.skipping.blockIds, ∀ b ∈ Program.skipping.targets a, b = 1 ∨ a < b := by decide
  have reducible : Reducible { program := .skipping, survey := s.withReadings r } l 0 := .of_ascending ascending
  have hl : (s.withReadings r).loops[0]? = some l := rfl
  obtain ⟨rest, older, outside, split, its, holds⟩ := inLoop_holds (s := { program := .skipping, survey := _ })
    Program.skipping_ssa made hl rfl leaves ⟨_, rfl, rfl⟩ reducible (fun v op _ => sized v op) facts trace inside
  have few : older.length < twoPow 31 := by
    have rounds := its.length_le
    have visits := congrArg List.length split
    have small : 6 < twoPow 31 := by decide +kernel
    simp only [List.length_append, List.length_cons, List.flatten_cons, steps] at rounds visits
    omega
  obtain ⟨current, earlier, agrees, all⟩ := holds few fun last rest' older' _ u d _ _ within apart => by
    simp only [l, Loop.contains, List.contains_iff_mem, List.mem_cons, List.not_mem_nil, or_false] at within
    rcases within with rfl | rfl | rfl <;> cases apart
  exact ⟨Program.skipping_ssa, _, l, cs, made, hl, rfl, leaves, ⟨_, rfl, rfl⟩, reducible, fun v op _ => sized v op,
    facts, length, _, now, before, trace, inside, counter, skipped, rest, older, outside, split, its, few, current,
    earlier, agrees, all⟩

end Subject

/-! ### Loops for which the facts fail -/

namespace Passage
variable {p : Program} {δ : ZeroDivision} {now : Passage p} {cond : ValueId} {cs : List Clause}

/-- Whether for either value of the test `cond` one iteration earlier a clause is false that says nothing else of that
iteration. -/
def refutes (now : Passage p) (δ : ZeroDivision) (cond : ValueId) (cs : List Clause) : Bool :=
  [false, true].all fun b => cs.any fun c =>
    (c.leaves.all fun x => match x.ref with | .previous v => v == cond | _ => true) &&
      !c.denote δ fun x => match x.ref with | .previous _ => .ofBool b | _ => now.values.env x

theorem exists_false_of_refutes (bool : p.modelWidth cond = boolWidth) (refuted : now.refutes δ cond cs = true)
    (earlier : Valuation p) : ∃ c ∈ cs, c.denote δ (now.values.withEarlier earlier) = false := by
  obtain ⟨b, value⟩ := Vec.exists_bool ((earlier.width_value cond).trans bool)
  have either := List.all_eq_true.1 refuted b (by cases b <;> decide)
  obtain ⟨c, mem, fails⟩ := List.any_eq_true.1 either
  rw [Bool.and_eq_true, List.all_eq_true, Bool.not_eq_true'] at fails
  refine ⟨c, mem, fails.2 ▸ Clause.denote_congr fun x hx => ?_⟩
  have only := fails.1 x hx
  cases ref : x.ref with
  | previous v =>
    simp only [ref, beq_iff_eq] at only
    simp only [Valuation.withEarlier, ref, only, value]
  | _ => simp only [Valuation.withEarlier, ref]

end Passage

namespace Program

/-- At the end of an iteration of a loop that has an induction variable, no trip count and a latch that leaves it, the
current values and no values of one iteration earlier make all true that is said of the loop. -/
def BeliesLoop (p : Program) : Prop :=
  ∃ (survey : Survey) (l : Loop) (iv : ValueId) (incoming : List (BlockId × ValueId)) (cs : List Clause)
    (δ : ZeroDivision) (now : Passage p) (before : List (Passage p)) (x : Block) (cond : ValueId) (t f : BlockId),
    Survey.ofProgram p [] = .ok survey ∧ survey.loops[0]? = some l ∧ l.induction = some iv ∧ l.tripCount = none ∧
      p.op? iv = .ok (some (.phi incoming)) ∧ (∀ a, a ∈ incoming.map (·.1) ↔ l.header ∈ p.targets a) ∧
      Subject.inLoop { program := p, survey } l = .ok cs ∧ p.IsEntry l.func 0 ∧ Trace p δ 0 (now :: before) ∧
      before.length < twoPow 31 ∧ l.contains now.block = true ∧ p.blocks[now.block]? = some x ∧
      x.term = .condBr cond t f ∧ t ≠ f ∧ (t = l.header ∨ f = l.header) ∧
      ∀ earlier : Valuation p, ∃ c ∈ cs, c.denote δ (now.values.withEarlier earlier) = false

theorem beliesLoop_of_run {p : Program} {r : Survey.Readings} {iv : ValueId} {incoming : List (BlockId × ValueId)}
    {x : Block} {t f : BlockId} (l : Loop) (latch : BlockId) (cond : ValueId) (ρ : Valuation p) (steps : Nat)
    (found : (Survey.ofProgram p []).toOption.map Survey.readings = some r) (hl : r.loops[0]? = some l)
    (induction : l.induction = some iv) (trip : l.tripCount = none) (isPhi : p.op? iv = .ok (some (.phi incoming)))
    (sources : p.sourcesTest l.header incoming = true) (entry : p.IsEntry l.func 0)
    (inside : l.contains latch = true) (hx : p.blocks[latch]? = some x) (term : x.term = .condBr cond t f)
    (leaves : t ≠ f) (back : t = l.header ∨ f = l.header) (bool : p.modelWidth cond = boolWidth)
    (few : steps < twoPow 31)
    (run : (p.run? (fun _ _ x => x) 0 ρ steps).map (fun all => all.head?.map fun now =>
      (now.block, all.tail.length,
        (Subject.inLoop { program := p, survey := Survey.withReadings default r } l).toOption.map
          (now.refutes (fun _ _ x => x) cond))) = some (some (latch, steps, some true))) : p.BeliesLoop := by
  obtain ⟨s, made⟩ := Survey.exists_withReadings found
  obtain ⟨now, before, trace, view⟩ := Trace.exists_of_run? (fun now before =>
    (now.block, before.length,
      (Subject.inLoop { program := p, survey := Survey.withReadings default r } l).toOption.map
        (now.refutes (fun _ _ x => x) cond))) run
  simp only [Prod.mk.injEq] at view
  obtain ⟨rfl, rfl, view⟩ := view
  rw [Subject.inLoop_withReadings default s] at view
  cases facts : Subject.inLoop { program := p, survey := s.withReadings r } l with
  | error fault =>
    rw [facts] at view
    cases view
  | ok cs =>
    rw [facts] at view
    exact ⟨_, l, iv, incoming, cs, _, now, before, x, cond, t, f, made, hl, induction, trip, isPhi,
      sources_of_test sources, facts, entry, trace, few, inside, hx, term, leaves, back,
      Passage.exists_false_of_refutes bool (Option.some.inj view)⟩

theorem skipping_belies : skipping.BeliesLoop :=
  beliesLoop_of_run { func := 0, header := 1, blocks := [1, 2, 3], induction := some 4 } 3 8 (.uniform _ 3) 5
    skipping_readings rfl rfl rfl rfl rfl ⟨_, rfl, rfl⟩ rfl rfl rfl (by decide) (.inl rfl) rfl (by decide +kernel)
    (by decide +kernel)

def probing : Program where
  values := #[
    { ty := .int 1, kind := .param 0 0 },
    { ty := .int 32, kind := .const 0 },
    { ty := .int 32, kind := .const 1 },
    { ty := .int 32, kind := .const 2 },
    { ty := .int 32, kind := .inst 1 (.phi [(0, 1), (3, 6)]) },
    { ty := .int 32, kind := .inst 2 (.binary .add 4 2) },
    { ty := .int 32, kind := .inst 3 (.binary .add 4 2) },
    { ty := .int 1, kind := .inst 3 (.icmp .slt 5 3) }]
  blocks := #[
    { func := 0, name := "entry", term := .br 1 },
    { func := 0, name := "loop", insts := [4], term := .br 2 },
    { func := 0, name := "inner", insts := [5], term := .condBr 0 2 3 },
    { func := 0, name := "latch", insts := [6, 7], term := .condBr 7 1 4 },
    { func := 0, name := "exit", term := .ret none }]
  functions := #[{ name := "main", params := [0], ret := .void, blocks := [0, 1, 2, 3, 4] }]

theorem probing_belies : probing.BeliesLoop := by
  let outer : Loop := { func := 0, header := 1, blocks := [1, 2, 3], children := [1], induction := some 4 }
  let inner : Loop := { func := 0, header := 2, blocks := [2], depth := 2, parent := some 0 }
  exact beliesLoop_of_run (r := .ofLoops #[outer, inner] #[none, some 0, some 1, some 0, none]) outer 3 7
    (.uniform _ 0) 6 (by cbv) rfl rfl rfl rfl rfl ⟨_, rfl, rfl⟩ rfl rfl rfl (by decide) (.inl rfl) rfl
    (by decide +kernel) (by decide +kernel)

/-- A loop in which two blocks branch to each other that are both entered from the header. -/
def weaving : Program where
  values := #[
    { ty := .int 1, kind := .param 0 0 },
    { ty := .int 32, kind := .const 0 },
    { ty := .int 32, kind := .const 1 },
    { ty := .int 32, kind := .const 2 },
    { ty := .int 32, kind := .inst 1 (.phi [(0, 1), (3, 8)]) },
    { ty := .int 32, kind := .inst 2 (.phi [(1, 1), (3, 7)]) },
    { ty := .int 32, kind := .inst 3 (.phi [(1, 3), (2, 5)]) },
    { ty := .int 32, kind := .inst 3 (.binary .add 6 2) },
    { ty := .int 32, kind := .inst 3 (.binary .add 4 2) },
    { ty := .int 1, kind := .inst 3 (.icmp .slt 7 3) }]
  blocks := #[
    { func := 0, name := "entry", term := .br 1 },
    { func := 0, name := "loop", insts := [4], term := .condBr 0 2 3 },
    { func := 0, name := "left", insts := [5], term := .br 3 },
    { func := 0, name := "right", insts := [6, 7, 8, 9], term := .condBr 9 2 1 }]
  functions := #[{ name := "main", params := [0], ret := .void, blocks := [0, 1, 2, 3] }]

theorem weaving_belies : weaving.BeliesLoop := by
  let l : Loop := { func := 0, header := 1, blocks := [1, 2, 3], induction := some 4 }
  exact beliesLoop_of_run (r := .ofLoops #[l] #[none, some 0, some 0, some 0]) l 3 9 (.uniform _ 1) 5 (by cbv) rfl rfl
    rfl rfl rfl ⟨_, rfl, rfl⟩ rfl rfl rfl (by decide) (.inr rfl) rfl (by decide +kernel) (by decide +kernel)

def scaling : Program where
  values := #[
    { ty := .int 64, kind := .param 0 0 },
    { ty := .int 64, kind := .const 0 },
    { ty := .int 64, kind := .const 1 },
    { ty := .int 64, kind := .const 4294967296 },
    { ty := .int 64, kind := .inst 1 (.phi [(0, 1), (1, 6)]) },
    { ty := .int 64, kind := .inst 1 (.binary .mul 4 3) },
    { ty := .int 64, kind := .inst 1 (.binary .add 4 2) },
    { ty := .int 1, kind := .inst 1 (.icmp .slt 6 0) }]
  blocks := #[
    { func := 0, name := "entry", term := .br 1 },
    { func := 0, name := "loop", insts := [4, 5, 6, 7], term := .condBr 7 1 2 },
    { func := 0, name := "exit", term := .ret none }]
  functions := #[{ name := "main", params := [0], ret := .void, blocks := [0, 1, 2] }]

theorem scaling_belies : scaling.BeliesLoop := by
  let l : Loop := { func := 0, header := 1, blocks := [1], induction := some 4 }
  exact beliesLoop_of_run (r := .ofLoops #[l] #[none, some 0, none]) l 1 7 (.uniform _ 3) 2 (by cbv) rfl rfl rfl rfl rfl
    ⟨_, rfl, rfl⟩ rfl rfl rfl (by decide) (.inl rfl) rfl (by decide +kernel) (by decide +kernel)

def trailing : Program where
  values := #[
    { ty := .int 32, kind := .param 0 0 },
    { ty := .int 32, kind := .const 0 },
    { ty := .int 32, kind := .const 1 },
    { ty := .int 32, kind := .const 5 },
    { ty := .int 32, kind := .inst 1 (.phi [(0, 1), (2, 7)]) },
    { ty := .int 32, kind := .inst 2 (.binary .add 4 3) },
    { ty := .int 32, kind := .inst 1 (.binary .add 5 2) },
    { ty := .int 32, kind := .inst 2 (.binary .add 4 2) },
    { ty := .int 1, kind := .inst 2 (.icmp .slt 7 0) }]
  blocks := #[
    { func := 0, name := "entry", term := .br 1 },
    { func := 0, name := "loop", insts := [4, 6], term := .br 2 },
    { func := 0, name := "latch", insts := [5, 7, 8], term := .condBr 8 1 3 },
    { func := 0, name := "exit", term := .ret none }]
  functions := #[{ name := "main", params := [0], ret := .void, blocks := [0, 1, 2, 3] }]

theorem trailing_belies : trailing.BeliesLoop := by
  let l : Loop := { func := 0, header := 1, blocks := [1, 2], induction := some 4 }
  exact beliesLoop_of_run (r := .ofLoops #[l] #[none, some 0, some 0, none]) l 2 8 (.uniform _ 3) 2 (by cbv) rfl rfl
    rfl rfl rfl ⟨_, rfl, rfl⟩ rfl rfl rfl (by decide) (.inl rfl) rfl (by decide +kernel) (by decide +kernel)

end Program

namespace Subject

/-- The facts fail where an instruction of the loop is skipped, where the latch tests a value of an inner loop, where
two blocks of the loop branch to each other, where a factor is a multiple of `2 ^ 32`, and where an operand is defined
after its use. -/
theorem inLoop_belied :
    (Program.skipping.Ssa ∧ Program.skipping.BeliesLoop) ∧ (Program.probing.Ssa ∧ Program.probing.BeliesLoop) ∧
      (Program.weaving.Ssa ∧ Program.weaving.BeliesLoop) ∧ (Program.scaling.Ssa ∧ Program.scaling.BeliesLoop) ∧
      Program.trailing.BeliesLoop := by
  have probing : Program.probing.Ssa := Program.ssa_of_test (by decide) (by decide) (by cbv)
  have weaving : Program.weaving.Ssa := Program.ssa_of_test (by decide) (by decide) (by cbv)
  have scaling : Program.scaling.Ssa := Program.ssa_of_test (by decide) (by decide) (by cbv)
  exact ⟨⟨Program.skipping_ssa, Program.skipping_belies⟩, ⟨probing, Program.probing_belies⟩,
    ⟨weaving, Program.weaving_belies⟩, ⟨scaling, Program.scaling_belies⟩, Program.trailing_belies⟩

end Subject
end SsaFacts
