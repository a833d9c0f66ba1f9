import SsaFacts.Classes
import SsaFacts.Realize
import SsaFacts.Simplify
import SsaFacts.Solver.Session

/-! The engine: the facts of a program reduced by the equalities among them, and the solver that holds
them. The solver is started by the first question that needs it, and then has to find the facts
consistent. -/
namespace SsaFacts

structure Engine where
  subject : Subject
  config : Config
  capture : Capture
  /-- Fixed values known to be equal. -/
  classes : Classes
  /-- The captured facts in terms of class representatives, without those that simplify to true. -/
  facts : List Clause
  /-- Holds the facts, once it is started. -/
  solver : Option Solver := none

structure Situation where
  world : World
  engine : Engine

/-- A computation on an engine. Engine and world survive a failure. -/
abbrev Inquiry (α : Type) := ExceptT Failure (StateM Situation) α

namespace Engine

def reduce (classes : Classes) (cs : List Clause) : Checked (List Clause) :=
  Clause.nontrivial (cs.map classes.canonical)

def ofSubject (subject : Subject) (config : Config) : Noted Engine := do
  let capture ← subject.capture config.disable
  let (classes, _) ← Classes.empty.absorb (capture.isFixed subject.program) capture.facts
  let facts ← reduce classes capture.facts
  return { subject, config, capture, classes, facts }

def program (e : Engine) : Program := e.subject.program

def literalOf? (e : Engine) (v : ValueId) : Option Literal :=
  match e.classes.root (.value v) with
  | .literal l => some l
  | .value _ => none

/-- The literal that a value is or is known to equal. -/
def fixedValue? (e : Engine) (v : ValueId) : Checked (Option Literal) := do
  match ← e.program.const? v with
  | some c => return some (.ofInt (← e.program.width v) c)
  | none => return e.literalOf? v

def realized (e : Engine) (c : Clause) : Noted (List Clause) := do
  reduce e.classes (← e.subject.realize e.capture c)

end Engine

namespace Dialogue

def assertAll (cs : List Clause) : Dialogue Unit := cs.forM assert

/-- Drops one fact after the other for as long as what is left has no model; `kept` are the facts
already found to be needed. -/
def shrink (kept : List Clause) : List Clause → Dialogue (List Clause)
  | [] => return kept
  | c :: rest => do
    let answer ← inScope do
      assertAll (kept ++ rest)
      check
    if answer = .unsat then shrink kept rest else shrink (kept ++ [c]) rest

def diagnose (captured : List Clause) : Dialogue Error := do
  Talk.ofNoted (note .diagnosing)
  restart
  let core ← shrink [] (← Talk.ofChecked (Clause.nontrivial captured))
  return .inconsistent (core.map Clause.text)

def load (e : Engine) : Dialogue Unit := do
  assertAll e.facts
  match ← check with
  | .sat => return ()
  | .unsat => Talk.fail (← diagnose e.capture.facts)
  | .unknown => Talk.fail (.undecided "consistency of the captured facts")

end Dialogue

namespace Inquiry

def ofTalk {α : Type} (t : Talk α) : Inquiry α := fun s =>
  let (r, world) := t.run' s.world
  (r, { s with world })

instance : MonadLift Talk Inquiry := ⟨ofTalk⟩

def engine : Inquiry Engine := fun s => (.ok s.engine, s)

def setEngine (f : Engine → Engine) : Inquiry Unit := fun s =>
  (.ok (), { s with engine := f s.engine })

/-- Runs a dialogue with a solver, which is returned whether or not the dialogue fails. -/
def converse {α : Type} (solver : Solver) (d : Dialogue α) : Inquiry (Except Failure α × Solver) :=
  fun s =>
    let (r, session) := (ExceptT.run d).run { world := s.world, solver }
    (.ok (r, session.solver), { s with world := session.world })

/-- Starts a solver that holds the facts. If it does not come to hold them it is given up. -/
def start : Inquiry Solver := do
  let e ← engine
  let fresh ← Solver.acquire e.config
  match ← converse fresh (Dialogue.load e) with
  | (.ok (), solver) => return solver
  | (.error failure, _) =>
    Solver.release
    throw failure

def checkConsistency : Inquiry Unit := do
  if (← engine).solver.isNone then
    let solver ← start
    setEngine fun e => { e with solver := some solver }

/-- Runs a dialogue with a solver, which the engine keeps however the dialogue ends. -/
def consult {α : Type} (solver : Solver) (d : Dialogue α) : Inquiry α := do
  let (r, solver) ← converse solver d
  setEngine fun e => { e with solver := some solver }
  match r with
  | .ok a => return a
  | .error failure => throw failure

def withSolver {α : Type} (d : Dialogue α) : Inquiry α := do
  match (← engine).solver with
  | some solver => consult solver d
  | none => consult (← start) d

def close : Inquiry Unit := do
  if (← engine).solver.isSome then
    Solver.release
    setEngine fun e => { e with solver := none }

def recalculate : Inquiry Unit := do
  close
  let e ← engine
  let fresh ← Talk.ofNoted (Engine.ofSubject e.subject e.config)
  setEngine fun _ => fresh
  checkConsistency

end Inquiry
end SsaFacts
