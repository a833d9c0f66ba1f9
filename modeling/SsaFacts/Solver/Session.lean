import SsaFacts.Solver.Client

/-! A solver and the operations on it. Names are declared when they are first needed and forgotten with
the scope in which they were declared. At most one solver is alive at a time. -/
namespace SsaFacts

open Smt

structure Solver where
  config : Config
  process : Nat
  /-- Names declared and not forgotten. -/
  declared : List String := []
  /-- The names declared at each open level, innermost level first. -/
  scopes : List (List String) := [[]]

structure Session where
  world : World
  solver : Solver

/-- A computation on a solver. Solver and world survive a failure. -/
abbrev Dialogue (α : Type) := ExceptT Failure (StateM Session) α

inductive Response
  | sat
  | unsat
  | unknown
  deriving DecidableEq, Repr

namespace Solver

/-- Takes the lease and starts a process. A failed start gives the lease back. -/
def acquire (config : Config) : Talk Solver := do
  if (← Talk.world).leased then Talk.fail .solverBusy
  Talk.update fun w => { w with leased := true }
  let process ← tryCatch (Talk.launch config) fun e => do
    Talk.update fun w => { w with leased := false }
    throw e
  return { config, process }

def release : Talk Unit := Talk.update fun w => { w with leased := false }

end Solver

namespace Dialogue

def ofTalk {α : Type} (t : Talk α) : Dialogue α := fun s =>
  let (r, world) := t.run' s.world
  (r, { s with world })

instance : MonadLift Talk Dialogue := ⟨ofTalk⟩

def solver : Dialogue Solver := fun s => (.ok s.solver, s)

def setSolver (f : Solver → Solver) : Dialogue Unit := fun s =>
  (.ok (), { s with solver := f s.solver })

def send (c : Command) : Dialogue Sexp := do Talk.send (← solver).process c

def acknowledge (c : Command) : Dialogue Unit := do Talk.acknowledge (← solver).process c

def restart : Dialogue Unit := do
  let process ← Talk.launch (← solver).config
  setSolver fun s => { s with process, declared := [], scopes := [[]] }

def declare (name : String) (width : Nat) : Dialogue Unit := do
  unless (← solver).declared.contains name do
    acknowledge (.declare name width)
    setSolver fun s =>
      { s with
        declared := name :: s.declared
        scopes := match s.scopes with
          | [] => []
          | top :: below => (name :: top) :: below }

def prepare : Mention → Dialogue Unit
  | .leaf l => declare l.solverName l.width
  | .const l =>
    if l.width ≤ widestConstant then return () else throw (.fault (.constantTooWide l.width))

def push : Dialogue Unit := do
  acknowledge .push
  setSolver fun s => { s with scopes := [] :: s.scopes }

/-- Closes the innermost scope and forgets its names. -/
def pop : Dialogue Unit := do
  acknowledge .pop
  setSolver fun s =>
    match s.scopes with
    | [] => s
    | top :: below => { s with declared := s.declared.filter (!top.contains ·), scopes := below }

/-- Closes the innermost scope; a refusal is only remarked on. -/
def close : Dialogue Unit :=
  tryCatch pop fun
    | .error e => Talk.ofNoted (note (.scopeLeftOpen e.message))
    | .fault f => throw (.fault f)

/-- Runs `body` in a scope of its own, which is closed however the body ends. -/
def inScope {α : Type} (body : Dialogue α) : Dialogue α := do
  push
  let result ← tryCatch (Except.ok <$> body) fun e => return .error e
  close
  match result with
  | .ok a => return a
  | .error e => throw e

/-- Asserts a clause together with its side conditions. -/
def assert (c : Clause) : Dialogue Unit := do
  let guards := (← solver).config.guards
  (c.mentions guards).forM prepare
  acknowledge (.assert (c.encode guards))
  (c.guards guards).forM fun f => acknowledge (.assert f)

def check : Dialogue Response := do
  match ← send .checkSat with
  | .atom "sat" => return .sat
  | .atom "unsat" => return .unsat
  | .atom "unknown" => return .unknown
  | reply => Talk.fail (.process (.unexpectedReply reply.text))

/-- The formula of a clause, whose names are declared but which is not asserted. -/
def display (c : Clause) : Dialogue String := do
  let guards := (← solver).config.guards
  (c.mentions guards).forM prepare
  return (c.encode guards).text

end Dialogue

namespace Smt

def digit? (base : Nat) (c : Char) : Option Nat :=
  let n :=
    if '0' ≤ c ∧ c ≤ '9' then some (c.toNat - '0'.toNat)
    else if 'a' ≤ c ∧ c ≤ 'f' then some (c.toNat - 'a'.toNat + 10)
    else if 'A' ≤ c ∧ c ≤ 'F' then some (c.toNat - 'A'.toNat + 10)
    else none
  n.filter (· < base)

/-- A numeral below `2 ^ 64`. It may start with a plus sign. -/
def numeral? (base : Nat) (cs : List Char) : Option Nat := do
  let digits := match cs with
    | '+' :: rest => rest
    | _ => cs
  if digits.isEmpty then none
  let n ← digits.foldlM (fun n c => return n * base + (← digit? base c)) 0
  if n < twoPow 64 then some n else none

/-- The literal that a model value denotes at the given width. -/
def readLiteral (width : Nat) (value : Sexp) : Except Error Literal :=
  let read : Option Nat := match value with
    | .atom s => match s.toList with
      | '#' :: 'b' :: digits => numeral? 2 digits
      | '#' :: 'x' :: digits => numeral? 16 digits
      | _ => none
    | .string _ | .list _ => none
  match read with
  | some n => .ok (.ofInt width n)
  | none => .error (.unexpectedModel value.text)

end Smt

namespace Dialogue

/-- The values of expressions in the model of the last check, in order, as far as the reply goes. -/
def modelValues (es : List Expr) : Dialogue (List Literal) := do
  if es.isEmpty then return []
  let guards := (← solver).config.guards
  (es.flatMap (Expr.mentions guards)).forM prepare
  match ← send (.getValue (es.map (Expr.encode guards))) with
  | .atom _ | .string _ => Talk.fail (.process .unreadableModel)
  | .list items =>
    let pairs ← Talk.ofChecked (readPairs items)
    (pairs.zip es).mapM fun ((_, value), e) =>
      match readLiteral e.width value with
      | .ok l => return l
      | .error err => Talk.fail err

end Dialogue
end SsaFacts
