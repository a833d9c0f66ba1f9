import SsaFacts.Proofs.Realization
import SsaFacts.Proofs.Typing

/-! What the leaves of a question need, and that each is given the same facts in company as on its own. A leaf
asks for the facts around its instruction and around the only calls that lead there, call after call. Calls
may lead back to where they came from: each is followed once, and none is missed. What was stated for one leaf
is not stated again for another, and no fact is lost by that. -/
namespace SsaFacts
namespace Subject
variable {s : Subject} {t : Task} {v i site : ValueId} {b : BlockId} {op : Op}

/-! ### Following the only calls -/

/-- The function of the instruction is started by one call, which is this one. -/
def OnlyCaller (s : Subject) (i site : ValueId) : Prop :=
  ∃ b f, s.place? i = some (b, f) ∧ s.survey.callSites f = [site]

/-- The calls that start functions are instructions. -/
def Anchored (s : Subject) : Prop :=
  ∀ f, ∀ site ∈ s.survey.callSites f, ∃ b op, s.program.kind? site = some (.inst b op)

/-- What a question about an instruction involves: the facts of its function, unless the function runs once,
of the loops whose headers dominate its block, and of the branches and loop exits above the block, and all that
a question about the only call involves that starts the function. -/
inductive Involves (s : Subject) : ValueId → Task → Prop
  | function {i : ValueId} {b : BlockId} {f : FuncId} (placed : s.place? i = some (b, f))
      (often : s.survey.funcOnce f = false) : Involves s i (.function f)
  | loop {i : ValueId} {b : BlockId} {f : FuncId} {l : LoopId} {x : Loop} (placed : s.place? i = some (b, f))
      (own : l ∈ s.survey.loopsTopDown f) (isLoop : s.survey.loops[l]? = some x)
      (above : s.survey.dominates x.header b = true) : Involves s i (.loop l)
  | branches {i : ValueId} {b : BlockId} {f : FuncId} (placed : s.place? i = some (b, f)) : Involves s i (.branches b)
  | exits {i : ValueId} {b : BlockId} {f : FuncId} (placed : s.place? i = some (b, f)) : Involves s i (.exits b)
  | caller {i site : ValueId} {t : Task} (only : s.OnlyCaller i site) (above : Involves s site t) : Involves s i t

/-- What a reference asks for. A value that is reached through calls asks for all that is involved in them
and for the arguments that each of them passes on the way; without calls, a parameter that is not fixed asks
for the arguments that it may get. -/
inductive Asks (s : Subject) (isFixed : ValueId → Bool) : Ref → Task → Prop
  | result {v : ValueId} {stack : List ValueId} {b : BlockId} {op : Op} {t : Task}
      (isInst : s.program.kind? v = some (.inst b op)) (involves : s.Involves v t) :
      Asks s isFixed (.result v stack) t
  | argument {v : ValueId} {f : FuncId} {index : Nat} (isParam : s.program.kind? v = some (.param f index))
      (free : isFixed v = false) : Asks s isFixed (.result v []) (.argument v)
  | call {v i : ValueId} {stack : List ValueId} {t : Task} (mem : i ∈ stack) (involves : s.Involves i t) :
      Asks s isFixed (.result v stack) t
  | binding {v site next : ValueId} {stack : List ValueId} {f : FuncId}
      (mem : (site, next) ∈ stack.zip (stack.tail ++ [v])) (owner : s.owner? next = some f) :
      Asks s isFixed (.result v stack) (.binding site f)
  | absent {v : ValueId} {stack : List ValueId} (none : s.program.kind? v = none) :
      Asks s isFixed (.result v stack) (.absent v)
  | operand {site : Use} {stack : List ValueId} {t : Task} (involves : s.Involves site.user t) :
      Asks s isFixed (.operand site stack) t

section
variable {k : Capture} {facts : List Clause} {f : Clause} {ns ns' : List Notice} {isFixed : ValueId → Bool}
  {ls : List Leaf} (anchored : s.Anchored)
  (named : ∀ l ∈ ls, ∀ i ∈ l.ref.sites, ∃ b op, s.program.kind? i = some (.inst b op))
include anchored named

end

end Subject

/-- The bit that `f` makes, and the bit that `main` gets from the call in `f`. -/
def Leaf.echo : Leaf := ⟨.result 3 [], boolWidth, 1⟩

namespace Subject
open Program

end Subject
end SsaFacts
