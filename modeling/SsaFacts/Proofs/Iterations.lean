import SsaFacts.Proofs.LoopBodies

/-! Iterations of a loop. -/
namespace SsaFacts

open LoopForest (IsNatural)

section
variable {p : Program} {l : Loop}

/-- An iteration of a loop, the latest visit first: it starts at the header and goes on within the loop. -/
structure Round (l : Loop) (round : List (Passage p)) : Prop where
  starts : ∃ front head, round = front ++ [head] ∧ head.block = l.header ∧ ∀ t ∈ front, t.block ≠ l.header
  inside : ∀ t ∈ round, t.block ∈ l.blocks

structure Iterations (l : Loop) (rounds : List (List (Passage p))) (outside : List (Passage p)) : Prop where
  round : ∀ round ∈ rounds, Round l round
  outside : ∀ t ∈ outside.head?, t.block ∉ l.blocks

end

theorem Trace.exists_iterations {p : Program} {δ : ZeroDivision} {e : BlockId} {l : Loop} {now : Passage p}
    {before : List (Passage p)} (natural : IsNatural p e l) (trace : Trace p δ e (now :: before))
    (inside : now.block ∈ l.blocks) :
    ∃ rest older outside, now :: before = (now :: rest) ++ older.flatten ++ outside ∧
      Iterations l ((now :: rest) :: older) outside := by
  induction before generalizing now with
  | nil =>
    have start : now.block = l.header := by
      cases trace with
      | enter here body =>
        rw [here] at inside ⊢
        exact ((natural.mem_blocks e).1 inside).dominates.eq_start.symm
    refine ⟨[], [], [], rfl, ⟨fun round mem => ?_, by simp⟩⟩
    obtain rfl := List.mem_singleton.1 mem
    exact ⟨⟨[], now, rfl, start, by simp⟩, by simpa using inside⟩
  | cons t earlier ih =>
    have first (start : now.block = l.header) : Round l [now] :=
      ⟨⟨[], now, rfl, start, by simp⟩, by simpa using inside⟩
    by_cases within : t.block ∈ l.blocks
    · obtain ⟨rest, older, outside, split, its⟩ := ih trace.previous within
      by_cases start : now.block = l.header
      · refine ⟨[], (t :: rest) :: older, outside, ?_, ?_, its.outside⟩
        · simpa using split
        · simpa using ⟨first start, by simpa using its.round⟩
      · refine ⟨t :: rest, older, outside, by rw [split]; rfl, ?_, its.outside⟩
        obtain ⟨round, others⟩ := List.forall_mem_cons.1 its.round
        obtain ⟨⟨front, head, same, header, out⟩, inside'⟩ := round
        refine List.forall_mem_cons.2 ⟨⟨⟨now :: front, head, ?_, header, ?_⟩, ?_⟩, others⟩
        · rw [same]
          rfl
        · exact List.forall_mem_cons.2 ⟨start, out⟩
        · exact List.forall_mem_cons.2 ⟨inside, inside'⟩
    · obtain ⟨x, k, hx, -, edge, -⟩ := trace.arrives
      have start := natural.eq_header_of_edge (Program.mem_targets.2 ⟨x, hx, List.mem_of_getElem? edge⟩) inside within
      exact ⟨[], [], t :: earlier, rfl, by simpa using first start, by simpa using within⟩

/-! ### Counting -/

section
variable {p : Program} {δ : ZeroDivision} {e : BlockId} {l : Loop} {iv : ValueId} {now last : Passage p}
  {rest rest' outside : List (Passage p)} {older : List (List (Passage p))} {incoming : List (BlockId × ValueId)}
  {enter back : BlockId × ValueId}

theorem Round.exists_eq_cons {round : List (Passage p)} (isRound : Round l round) :
    ∃ last rest, round = last :: rest := by
  obtain ⟨front, head, rfl, -⟩ := isRound.starts
  cases front <;> exact ⟨_, _, rfl⟩

theorem Trace.before_round {round : List (Passage p)}
    (trace : Trace p δ e (round ++ ((last :: rest') :: older).flatten ++ outside)) :
    Trace p δ e ((last :: rest') ++ older.flatten ++ outside) := by
  rw [List.flatten_cons, List.append_assoc, List.append_assoc, List.cons_append] at trace
  rw [List.append_assoc]
  exact trace.drop

namespace Iterations

theorem tail {round : List (Passage p)} (its : Iterations l (round :: older) outside) : Iterations l older outside :=
  ⟨fun round mem => its.round round (.tail _ mem), its.outside⟩

theorem length_le {rounds : List (List (Passage p))} (its : Iterations l rounds outside) :
    rounds.length ≤ rounds.flatten.length := by
  rw [List.length_flatten, ← List.length_map (f := List.length)]
  refine List.length_le_sum_of_one_le _ (List.forall_mem_map.2 fun round mem => ?_)
  obtain ⟨last, rest, rfl⟩ := (its.round round mem).exists_eq_cons
  exact Nat.succ_pos _

section
variable (ssa : p.Ssa) (natural : IsNatural p e l) (counts : Counts p l iv incoming enter back)

theorem exists_head (ssa : p.Ssa) (counts : Counts p l iv incoming enter back)
    (its : Iterations l ((now :: rest) :: older) outside)
    (trace : Trace p δ e ((now :: rest) ++ older.flatten ++ outside)) :
    ∃ head, head.block = l.header ∧ head.block ∈ l.blocks ∧ now.values.value iv = head.values.value iv ∧
      Trace p δ e (head :: (older.flatten ++ outside)) := by
  obtain ⟨⟨front, head, split, header, out⟩, inside⟩ := its.round _ List.mem_cons_self
  rw [split, List.append_assoc, List.append_assoc, List.singleton_append] at trace
  refine ⟨head, header, inside head (by rw [split]; simp), ?_, trace.drop⟩
  refine trace.value_eq ssa (by rw [← split]; rfl) fun t mem home => out t mem ?_
  rw [ssa.regular.home?_eq counts.listed] at home
  exact (Option.some.inj home).symm

include ssa natural counts

theorem value_first (its : Iterations l [now :: rest] outside) (trace : Trace p δ e ((now :: rest) ++ outside)) :
    now.values.value iv = ⟨p.modelWidth iv, 0⟩ := by
  obtain ⟨head, header, inside, same, trace⟩ := its.exists_head ssa counts (by simpa using trace)
  rw [List.flatten_nil, List.nil_append] at trace
  obtain ⟨t, earlier, rfl, cases⟩ := trace.loop_cases ssa natural counts inside
  rcases cases with ⟨-, -, -, value⟩ | ⟨-, -, within, -⟩ | ⟨ne, -⟩
  · have width := now.values.width_value iv
    rw [same, value, t.values.read_const counts.zero] at width ⊢
    rw [← width]
    simp
  · exact absurd within (its.outside t rfl)
  · exact absurd header ne

theorem value_later (its : Iterations l ((now :: rest) :: (last :: rest') :: older) outside)
    (trace : Trace p δ e ((now :: rest) ++ ((last :: rest') :: older).flatten ++ outside)) :
    last.block = back.1 ∧ now.values.value iv = last.values.read back.2 ∧
      ∃ x k, p.blocks[last.block]? = some x ∧ Takes p δ last.values.env x.term k ∧
        x.term.successors[k]? = some l.header := by
  obtain ⟨head, header, inside, same, trace⟩ := its.exists_head ssa counts trace
  rw [List.flatten_cons, List.append_assoc, List.cons_append] at trace
  obtain ⟨x, k, hx, takes, edge, -⟩ := trace.arrives
  have within := (its.round (last :: rest') (by simp)).inside last List.mem_cons_self
  obtain ⟨t, earlier, ⟨⟩, cases⟩ := trace.loop_cases ssa natural counts inside
  rcases cases with ⟨-, -, out, -⟩ | ⟨-, latch, -, value⟩ | ⟨ne, -⟩
  · exact absurd within out
  · exact ⟨latch, same.trans value, x, k, hx, takes, header ▸ edge⟩
  · exact absurd header ne

theorem value_eq (its : Iterations l ((now :: rest) :: older) outside)
    (trace : Trace p δ e ((now :: rest) ++ older.flatten ++ outside)) :
    now.values.value iv = ⟨p.modelWidth iv, .ofNat _ older.length⟩ := by
  induction older generalizing now rest with
  | nil => exact its.value_first ssa natural counts (by simpa using trace)
  | cons round older ih =>
    obtain ⟨last, rest', rfl⟩ := (its.round round (by simp)).exists_eq_cons
    obtain ⟨latch, value, -⟩ := its.value_later ssa natural counts trace
    have before := trace.before_round
    have read := last.values.read_of_op counts.isPhi
    rw [ih its.tail before] at read
    obtain ⟨x, now_eq, next⟩ := before.read_back ssa natural.entry counts latch
    rw [read] at now_eq
    cases now_eq
    rw [value, next, List.length_cons, BitVec.ofNat_add]
    rfl

end
end Iterations
end

/-! ### Instructions that run in an iteration -/

namespace Round
variable {s : Subject} {marked : List BlockId} {i : LoopId} {l : Loop} {e d : BlockId} {δ : ZeroDivision}
  {t now : Passage s.program} {round later rest earlier : List (Passage s.program)}

theorem exists_start (isRound : Round l (later ++ t :: rest)) :
    ∃ front head, t :: rest = front ++ [head] ∧ head.block = l.header ∧
      ∀ r ∈ later ++ front, r.block ≠ l.header := by
  obtain ⟨front, head, split, header, out⟩ := isRound.starts
  obtain ⟨front', head', last⟩ := (List.eq_nil_or_concat' (t :: rest)).resolve_left (List.cons_ne_nil t rest)
  rw [last, ← List.append_assoc] at split
  obtain ⟨rfl, same⟩ := List.append_inj' split rfl
  exact ⟨front', head', last, List.singleton_inj.1 same ▸ header, out⟩

section
variable (natural : IsNatural s.program e l) (trace : Trace s.program δ e (later ++ t :: rest ++ earlier))
  (isRound : Round l (later ++ t :: rest))
include natural trace isRound

/-- What dominates a block of an iteration and is in the loop has been visited in the iteration. -/
theorem mem_of_dominates (inside : d ∈ l.blocks) (dominates : Dominates s.program.targets e d t.block) :
    d ∈ (t :: rest).map (·.block) := by
  obtain ⟨front, head, split, header, -⟩ := isRound.exists_start
  have path : Path s.program.targets l.header (front.map (·.block) ++ [l.header]) t.block := by
    rw [split, List.append_assoc, List.append_assoc, List.singleton_append] at trace
    exact header ▸ trace.path_between (by rw [← split]; rfl)
  rw [split, List.map_append, List.map_singleton, header]
  by_cases same : d = l.header
  · simp [same]
  · have first : Avoids s.program.targets d e l.header := not_dominates_iff.1 fun back =>
      same (back.antisymm ((natural.mem_blocks d).1 inside).dominates natural.reaches_header)
    exact List.mem_append_left _ (dominates.mem_of_avoids first path)

variable (ssa : s.program.Ssa) (made : Survey.ofProgram s.program marked = .ok s.survey)
  (hl : s.survey.loops[i]? = some l) (reducible : s.Reducible l e)
include ssa made hl reducible

/-- After a block of the loop's own nothing is visited again that has been visited in the iteration before. -/
theorem not_revisited (own : s.ownBlock l t.block = true) :
    ∀ r ∈ later, r.block ∉ (t :: rest).map (·.block) := by
  intro r mem again
  obtain ⟨q, hq, same⟩ := List.mem_map.1 again
  obtain ⟨after, between, rfl⟩ := List.append_of_mem mem
  obtain ⟨since, front, split⟩ := List.append_of_mem hq
  have reaches : Reaches s.program.targets e t.block := by
    rw [List.append_assoc, List.cons_append] at trace
    exact ⟨_, trace.drop.path⟩
  -- From the visit before to the one after there is a cycle, which passes the block of the loop's own.
  have cycle : Path s.program.targets r.block ((r :: between ++ since).map (·.block) ++ [r.block]) r.block := by
    have trace : Trace s.program δ e (after ++ (r :: between ++ since ++ q :: (front ++ earlier))) := by
      simpa [split] using trace
    have path := trace.path_between (t := r) rfl
    rwa [same] at path
  have here : t.block ∈ (r :: between ++ since).map (·.block) ++ [r.block] := by
    cases since with
    | nil =>
      cases split
      simp [same]
    | cons _ since =>
      cases split
      simp
  obtain ⟨ws, turn, turns, mem_iff⟩ := cycle.rotate here (by simp)
  have header := (mem_iff _).1 (Subject.header_mem_cycle ssa made hl natural reducible own reaches turn turns)
  have apart : ∀ x ∈ r :: between ++ since, x.block ≠ l.header := by
    have isRound : Round l ((after ++ (r :: between ++ since)) ++ q :: front) := by
      simpa [split] using isRound
    obtain ⟨_, _, -, -, out⟩ := isRound.exists_start
    exact fun x hx => out x (List.mem_append_left _ (List.mem_append_right _ hx))
  rcases List.mem_append.1 header with hit | hit
  · obtain ⟨x, hx, eq⟩ := List.mem_map.1 hit
    exact apart x hx eq
  · exact apart r List.mem_cons_self (List.mem_singleton.1 hit).symm

theorem home_ne (own : s.ownBlock l t.block = true) {u : ValueId}
    (visited : ∀ d, s.program.home? u = some d → d ∈ l.blocks → d ∈ (t :: rest).map (·.block)) :
    ∀ r ∈ later, s.program.home? u ≠ some r.block := fun r hr home =>
  not_revisited natural trace isRound ssa made hl reducible own r hr
    (visited r.block home (isRound.inside r (List.mem_append_left _ hr)))

/-- What a φ of the loop's own has read along an edge within the iteration is still there. -/
theorem exists_read {v : ValueId} {incoming : List (BlockId × ValueId)} (own : s.ownBlock l t.block = true)
    (apart : t.block ≠ l.header) (here : s.program.home? v = some t.block)
    (isPhi : s.program.op? v = .ok (some (.phi incoming))) (head : (later ++ [t]).head? = some now) :
    ∃ edge ∈ incoming, now.values.value v = now.values.read edge.2 ∧
      ∀ d, s.program.home? edge.2 = some d → d ∈ l.blocks → d ∈ (t :: rest).map (·.block) := by
  obtain ⟨r, front, rfl⟩ : ∃ r front, rest = r :: front := by
    obtain ⟨front, head, split, header, -⟩ := isRound.exists_start
    cases rest with
    | cons r front => exact ⟨r, front, rfl⟩
    | nil =>
      cases front with
      | nil => exact absurd (by simp_all) apart
      | cons _ front => simp at split
  have run : Trace s.program δ e (later ++ t :: (r :: (front ++ earlier))) := by simpa using trace
  obtain ⟨_, _, u, ⟨⟩, edge, value⟩ := run.drop.reads ssa (ssa.listed v _ here) isPhi
  have split : later ++ t :: r :: front = (later ++ [t]) ++ r :: front := by simp
  have visited : ∀ d, s.program.home? u = some d → d ∈ l.blocks → d ∈ (r :: front).map (·.block) := by
    intro d home inside
    rw [split] at trace isRound
    exact mem_of_dominates natural trace isRound inside
      (ssa.incoming v incoming isPhi _ edge _ _ d natural.entry home)
  have later_ne := home_ne natural trace isRound ssa made hl reducible own (u := u) fun d home inside =>
    .tail _ (visited d home inside)
  -- If the value were computed here, the block would have been visited before.
  have here_ne : s.program.home? u ≠ some t.block := by
    intro home
    obtain ⟨q, hq, same⟩ := List.mem_map.1 (visited _ home (isRound.inside t (by simp)))
    obtain ⟨between, front', eq⟩ := List.append_of_mem hq
    rw [eq, ← List.cons_append, ← List.append_assoc] at trace isRound
    exact not_revisited natural trace isRound ssa made hl reducible (same ▸ own) t (by simp) (by simp [same])
  refine ⟨_, edge, ?_, fun d home inside => .tail _ (visited d home inside)⟩
  have own_value : now.values.value v = t.values.value v :=
    run.value_eq ssa head (home_ne natural trace isRound ssa made hl reducible own fun d home _ => by
      rw [here] at home
      cases home
      simp)
  rw [own_value, value]
  rw [List.append_cons] at run
  refine (Valuation.read_congr (run.value_eq ssa ?_ fun q hq => ?_)).symm
  · cases later <;> exact head
  · rcases List.mem_append.1 hq with hq | hq
    · exact later_ne q hq
    · exact List.mem_singleton.1 hq ▸ here_ne

/-- The fact that defines an instruction of an iteration is true at its end, and stays true if other values
change than those that have been computed in the iteration and those from outside the loop. -/
theorem fact_holds (sized : ∀ v op, s.Own l v → s.program.op? v = .ok (some op) → op.Sized s.program)
    {v : ValueId} {c : Clause} {op : Op} (asserts : s.Asserts l v c) (isOp : s.program.op? v = .ok (some op))
    (here : s.program.home? v = some t.block) (head : (later ++ [t]).head? = some now) {σ : Valuation s.program}
    (same : σ.value v = now.values.value v)
    (operands : ∀ u ∈ op.operands, (∀ d, s.program.home? u = some d → d ∈ l.blocks →
      d ∈ (later ++ t :: rest).map (·.block)) → σ.read u = now.values.read u) : c.denote δ σ.env = true := by
  obtain ⟨⟨b, home, own⟩, observed, found⟩ := asserts
  cases here.symm.trans home
  have mem := ssa.listed v _ here
  have late {d : BlockId} (mem : d ∈ (t :: rest).map (·.block)) : d ∈ (later ++ t :: rest).map (·.block) := by
    rw [List.map_append]
    exact List.mem_append_right _ mem
  by_cases phi : ∃ incoming, op = .phi incoming
  · obtain ⟨incoming, rfl⟩ := phi
    have apart : t.block ≠ l.header := by
      intro same
      rw [Subject.inUser_phi_of_header ssa made natural (same ▸ mem) isOp] at found
      cases found
    obtain ⟨edge, into, value, visited⟩ :=
      exists_read natural trace isRound ssa made hl reducible own apart here isOp head
    refine (Subject.inPhi_iff isOp found).2.2 ⟨edge, into, ?_⟩
    rw [σ.read_of_op isOp, same, value]
    exact (operands edge.2 (List.mem_map_of_mem into) fun d home inside => late (visited d home inside)).symm
  · have notPhi : ∀ incoming, op ≠ .phi incoming := fun incoming same => phi ⟨incoming, same⟩
    have visited {u : ValueId} (used : u ∈ op.operands) : ∀ d, s.program.home? u = some d → d ∈ l.blocks →
        d ∈ (t :: rest).map (·.block) := fun d home inside =>
      mem_of_dominates natural trace isRound inside
        ((ssa.operands _ v op mem isOp notPhi u used).1 _ _ d natural.entry home)
    have run : Trace s.program δ e (later ++ t :: (rest ++ earlier)) := by
      rwa [List.append_assoc, List.cons_append] at trace
    have computes := run.computes_kept ssa head mem isOp notPhi fun u hu => by
      refine home_ne natural trace isRound ssa made hl reducible own fun d homeU inside => ?_
      rcases List.mem_cons.1 hu with rfl | used
      · rw [← Option.some.inj (here.symm.trans homeU)]
        simp
      · exact visited used d homeU inside
    obtain ⟨x, result, fixes⟩ :=
      Subject.inUser_fixes (δ := δ) (ρ := σ) isOp notPhi (sized v op ⟨_, home, own⟩ isOp) found
    have reads : ∀ u ∈ op.operands, σ.read u = now.values.read u := fun u used =>
      operands u used fun d home inside => late (visited used d home inside)
    rw [Op.result?_congr reads] at result
    rw [fixes.denote_iff, σ.read_of_op isOp, same]
    exact computes.value_eq x result

end
end Round
end SsaFacts
