import SsaFacts.Engine.Basic

/-! Discovery of values that are constant in every execution although the program does not spell them as
literals. One model of the facts gives a guess for each candidate; a guess that cannot be avoided is
confirmed, and a model that avoids one also refutes the other guesses it departs from. -/
namespace SsaFacts

structure Guess where
  value : ValueId
  expr : Expr
  literal : Literal

namespace Dialogue

/-- Looks for a model that departs from a guess. If there is one, it returns the later guesses from which
the model does not depart. -/
def refute (g : Guess) (later : List Guess) : Dialogue (Option (List Guess)) := do
  assert (← Talk.ofChecked (Clause.compare .ne g.expr (.literal g.literal)))
  match ← check with
  | .unsat => return none
  | .sat =>
    let values ← modelValues (later.map Guess.expr)
    return some (((later.zip values).filter fun (h, value) => h.literal = value).map (·.1))
  | .unknown =>
    Talk.fail (.undecided ("v" ++ toString g.value ++ " != " ++ g.literal.text))

def confirm : Nat → List Guess → Dialogue (List (ValueId × Literal))
  | 0, _ | _, [] => return []
  | steps + 1, g :: later => do
    match ← inScope (refute g later) with
    | none => return (g.value, g.literal) :: (← confirm steps later)
    | some rest => confirm steps rest

def constants (candidates : List (ValueId × Expr)) : Dialogue (List (ValueId × Literal)) := do
  if (← check) ≠ .sat then Talk.fail (.undecided "model of the captured facts")
  let values ← modelValues (candidates.map (·.2))
  let guesses := (candidates.zip values).map fun ((value, expr), literal) => { value, expr, literal }
  confirm guesses.length guesses

end Dialogue

namespace Engine

def mentions (e : Engine) (v : ValueId) : Bool := e.facts.any fun c => c.leaves.any (·.value = v)

/-- Fixed values that represent their class and are spoken of. A value that no fact mentions is not
constrained. -/
def candidates (e : Engine) : List ValueId :=
  e.capture.fixed.filter fun v =>
    !e.program.isConstant v && e.classes.root (.value v) = .value v && e.mentions v

def knownConstants (e : Engine) : List (ValueId × Literal) :=
  e.capture.fixed.filterMap fun v => (e.literalOf? v).map (v, ·)

end Engine

namespace Inquiry

/-- Finds the constants among the fixed values, and returns all that are known then. -/
def identifyConstants : Inquiry (List (ValueId × Literal)) := do
  let e ← engine
  let candidates ← e.candidates.mapM fun v => return (v, ← Talk.ofChecked (e.program.leaf v))
  let confirmed ← withSolver (Dialogue.constants candidates)
  let classes ← Talk.ofNoted (confirmed.foldlM
    (fun classes (v, l) => classes.identify (.value v) (.literal l)) e.classes)
  setEngine fun e => { e with classes }
  return (← engine).knownConstants

end Inquiry
end SsaFacts
