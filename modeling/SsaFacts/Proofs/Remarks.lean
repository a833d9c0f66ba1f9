import SsaFacts.Proofs.Tables

/-! Remarks are only ever added. What a computation returns, and what it remarks on, does not depend on the
remarks made before it; so the facts of a task are the same whenever they are stated. -/
namespace SsaFacts

/-- The computation returns and remarks the same whatever was remarked before. -/
def Oblivious {α : Type} (x : Noted α) : Prop := ∃ r added, ∀ ns, x ns = (r, ns ++ added)

namespace Oblivious
variable {α β : Type} {x : Noted α} {ns ns' : List Notice}

protected theorem pure (a : α) : Oblivious (pure a) := ⟨.ok a, [], fun ns => by rw [List.append_nil]; rfl⟩

protected theorem throw (f : Fault) : Oblivious (throw f : Noted α) :=
  ⟨.error f, [], fun ns => by rw [List.append_nil]; rfl⟩

protected theorem lift (x : Checked α) : Oblivious (liftM x) :=
  ⟨x, [], fun ns => by rw [List.append_nil]; rfl⟩

protected theorem bind {f : α → Noted β} (hx : Oblivious x) (hf : ∀ a, Oblivious (f a)) :
    Oblivious (x >>= f) := by
  obtain ⟨r, added, hx⟩ := hx
  cases r with
  | error e => exact ⟨.error e, added, fun ns => run_bind_error (hx ns)⟩
  | ok a =>
    obtain ⟨r, later, hf⟩ := hf a
    exact ⟨r, added ++ later, fun ns => by rw [run_bind_ok (hx ns), hf, List.append_assoc]⟩

theorem stepwise : Stepwise Noted Oblivious := ⟨Oblivious.pure, Oblivious.bind⟩

theorem mapM {f : α → Noted β} {xs : List α} (hf : ∀ a ∈ xs, Oblivious (f a)) : Oblivious (xs.mapM f) :=
  stepwise.mapM hf

theorem filterMapM {f : α → Noted (Option β)} {xs : List α} (hf : ∀ a ∈ xs, Oblivious (f a)) :
    Oblivious (xs.filterMapM f) := stepwise.filterMapM hf

theorem run_eq {r : Except Fault α} (hx : Oblivious x) (run : x ns = (r, ns')) (ms : List Notice) :
    ∃ ms', x ms = (r, ms') := by
  obtain ⟨r', added, hx⟩ := hx
  have same : r' = r := congrArg Prod.fst ((hx ns).symm.trans run)
  exact ⟨_, (hx ms).trans (by rw [same])⟩

end Oblivious

theorem oblivious_note (n : Notice) : Oblivious (note n) := by
  refine (Oblivious.stepwise.forM fun l _ => ?_).bind fun _ => ⟨.ok (), [n], fun ns => rfl⟩
  exact (Oblivious.lift l.print).bind fun _ => .pure _

namespace Subject
variable (s : Subject)

theorem oblivious_excludeEdge (b : BlockId) (i : Nat) : Oblivious (s.excludeEdge b i) := by
  refine (Oblivious.lift (s.program.block b)).bind fun x => ?_
  split
  · exact (oblivious_note _).bind fun _ => .lift _
  · exact .lift _

theorem oblivious_edgeExclusions (f : FuncId) : Oblivious (s.edgeExclusions f) := by
  refine (Oblivious.lift (s.program.function f)).bind fun fn => ?_
  split
  · refine Oblivious.bind (.mapM fun b _ => ?_) fun facts => .pure _
    refine (Oblivious.lift (s.program.block b)).bind fun x => ?_
    dsimp only
    split
    · exact .filterMapM fun e _ => s.oblivious_excludeEdge b e.2
    · exact .pure _
  · exact .pure _

theorem oblivious_marker? (inst : ValueId) : Oblivious (s.marker? inst) := by
  have malformed : Oblivious (do note (.malformedMarker inst); return none : Noted (Option (ValueId × ValueId))) :=
    (oblivious_note _).bind fun _ => .pure _
  refine (Oblivious.lift (s.program.calleeName? inst)).bind fun name => ?_
  split
  · split
    · exact .pure _
    refine (Oblivious.lift (s.program.callArgs inst)).bind fun args => ?_
    split
    · refine (Oblivious.lift (s.program.width _)).bind fun w => ?_
      refine (Oblivious.lift (s.program.width _)).bind fun w' => ?_
      split
      · exact .pure _
      · exact malformed
    · exact malformed
  · exact .pure _

theorem oblivious_markerFacts (f : FuncId) : Oblivious (s.markerFacts f) := by
  refine .filterMapM fun i _ => (s.oblivious_marker? i).bind fun o => ?_
  split
  · exact .pure _
  · exact (Oblivious.lift (s.equal _ _)).bind fun c => .pure _

theorem oblivious_unreachableFacts (f : FuncId) : Oblivious (s.unreachableFacts f) :=
  (s.oblivious_edgeExclusions f).bind fun _ => (s.oblivious_markerFacts f).bind fun _ => .pure _

theorem oblivious_inFunction (f : FuncId) : Oblivious (s.inFunction f) := by
  unfold inFunction
  split
  · exact .pure _
  · refine (Oblivious.lift (s.program.function f)).bind fun fn => ?_
    refine (Oblivious.mapM fun i _ => .lift (s.inInstruction i)).bind fun facts => ?_
    exact (s.oblivious_unreachableFacts f).bind fun edges => .pure _

theorem oblivious_branchFacts (b : BlockId) : Oblivious (s.branchFacts b) := by
  refine (Oblivious.mapM fun step _ => ?_).bind fun facts => .pure _
  refine (Oblivious.lift (s.program.block step.1)).bind fun x => ?_
  exact .filterMapM fun e _ => s.oblivious_excludeEdge step.1 e.2

theorem oblivious_bindingFacts (site : ValueId) (callee : FuncId) : Oblivious (s.bindingFacts site callee) := by
  refine (Oblivious.lift (s.program.function callee)).bind fun f => ?_
  refine (Oblivious.lift (s.program.spawned? site)).bind fun spawned => ?_
  refine (Oblivious.lift (s.program.callArgs site)).bind fun args => ?_
  split
  · exact (oblivious_note _).bind fun _ => .pure _
  · exact .filterMapM fun x _ => .lift _

theorem oblivious_taskFacts (t : Task) : Oblivious (s.taskFacts t) := by
  cases t with
  | function f => exact s.oblivious_inFunction f
  | loop l => exact (Oblivious.lift (s.survey.loop l)).bind fun x => .lift _
  | branches b => exact s.oblivious_branchFacts b
  | exits b => exact .lift _
  | argument v => exact (Oblivious.lift (s.inArgument v)).bind fun c => .pure _
  | nothing v => exact .pure _
  | binding site callee => exact s.oblivious_bindingFacts site callee
  | absent v => exact .throw _

theorem oblivious_stateAll (c : Capture) (needs : List Need) : Oblivious (s.stateAll c needs) :=
  (Oblivious.mapM fun n _ => (s.oblivious_taskFacts n.task).bind fun _ => .pure _).bind fun _ => .pure _

theorem oblivious_realize (c : Capture) (q : Clause) : Oblivious (s.realize c q) := by
  rw [realize_eq]
  exact s.oblivious_stateAll c _

end Subject
end SsaFacts
