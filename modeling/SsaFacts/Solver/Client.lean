import SsaFacts.Solver.World

/-! The client of a solver process: how a process is started, what it is told first, and which replies are taken
for an answer. Nothing here knows of clauses or scopes. -/
namespace SsaFacts

open Smt

namespace Talk

def send (process : Nat) (c : Command) : Talk Sexp := fun w =>
  (.ok (w.host.reply w.history process c),
    { w with history := .sent process c :: w.history, replay := w.replay.map (c :: ·) })

/-- Sends a command that has to be answered by success. -/
def acknowledge (process : Nat) (c : Command) : Talk Unit := do
  match ← send process c with
  | .atom "success" => return ()
  | reply => fail (.process (.unexpectedReply reply.text))

/-- Creates an empty replay file, if one is asked for. -/
def createReplay (config : Config) : Talk Unit := do
  if let some path := config.replay then
    unless (← world).host.creates path do fail (.process .notFound)
    update fun w => { w with replay := some [] }

def spawn (config : Config) : Talk Nat := do
  unless (← world).host.launches config.program config.args do fail (.process .notFound)
  let process := (← world).processes
  update fun w => { w with history := .started process :: w.history }
  return process

/-- Starts a process with an empty replay file and sets its options. -/
def launch (config : Config) : Talk Nat := do
  createReplay config
  let process ← spawn config
  acknowledge process (.enable "print-success")
  acknowledge process (.enable "produce-models")
  acknowledge process (.enable "produce-models")
  return process

end Talk

def Smt.readPairs (items : List Sexp) : Checked (List (Sexp × Sexp)) :=
  items.mapM fun
    | .list [term, value] => .ok (term, value)
    | _ => .error .malformedModel

end SsaFacts
