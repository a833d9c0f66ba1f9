import SsaFacts.Survey

/-! Answers that a caller knows better than the analyses. Each replaces one answer of a survey. -/
namespace SsaFacts

structure Overrides where
  /-- Induction variable and trip count of single loops. -/
  loops : List (LoopId × Option ValueId × Option ValueId) := []
  funcOnce : List (FuncId × Bool) := []
  funcDead : List (FuncId × Bool) := []
  instOnce : List (ValueId × Bool) := []
  instDead : List (ValueId × Bool) := []
  /-- Ordered pairs of pointers that address one location. -/
  mustAlias : List (ValueId × ValueId) := []

namespace Overrides

/-- The last answer given for `x`, else what `f` says. -/
def answer (given : List (Nat × Bool)) (f : Nat → Bool) (x : Nat) : Bool :=
  (given.reverse.lookup x).getD (f x)

def apply (o : Overrides) (s : Survey) : Survey :=
  { s with
    loops := o.loops.foldl (fun loops (l, induction, tripCount) =>
      loops.modify l fun x => { x with induction, tripCount }) s.loops
    funcOnce := answer o.funcOnce s.funcOnce
    funcDead := answer o.funcDead s.funcDead
    instOnce := answer o.instOnce s.instOnce
    instDead := answer o.instDead s.instDead
    mustAlias := fun x y => if o.mustAlias.contains (x, y) then return true else s.mustAlias x y }

end Overrides
end SsaFacts
