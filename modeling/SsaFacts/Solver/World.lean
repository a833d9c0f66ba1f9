import SsaFacts.Failure
import SsaFacts.Notice
import SsaFacts.Smt.Encode
import SsaFacts.Smt.Sexp

/-! The conversation with solver processes as data. A host answers each command from the history that
precedes it; the world keeps that history, the remarks, the lease on the one solver and the replay
file. -/
namespace SsaFacts

open Smt

structure Config where
  program : String := "z3"
  args : List String := ["-smt2", "-in"]
  /-- File that receives a copy of every command. -/
  replay : Option String := none
  /-- Keep no facts. -/
  disable : Bool := false
  guards : Guards := {}

/-- One event: a process, numbered from 0, was started, or a command was sent to it. -/
inductive Entry
  | started (process : Nat)
  | sent (process : Nat) (c : Command)

structure Host where
  /-- Whether the program can be run with these arguments. -/
  launches : String → List String → Bool
  /-- Whether the file can be created. -/
  creates : String → Bool
  /-- The reply of a process to a command, given all that happened before it, latest first. -/
  reply : List Entry → Nat → Command → Sexp

structure World where
  host : Host
  /-- Look for counterexamples, and remark on them. -/
  debug : Bool := false
  /-- Latest first. -/
  history : List Entry := []
  notices : List Notice := []
  /-- Whether a solver is alive. -/
  leased : Bool := false
  /-- The replay file once it was created, latest command first. -/
  replay : Option (List Command) := none

def World.processes (w : World) : Nat :=
  w.history.countP fun
    | .started _ => true
    | .sent .. => false

/-- A computation in a world. The world survives a failure. -/
abbrev Talk (α : Type) := ExceptT Failure (StateM World) α

namespace Talk

def run' {α : Type} (t : Talk α) (w : World) : Except Failure α × World :=
  (ExceptT.run t).run w

def world : Talk World := fun w => (.ok w, w)

def update (f : World → World) : Talk Unit := fun w => (.ok (), f w)

def fail {α : Type} (e : Error) : Talk α := throw (.error e)

def ofNoted {α : Type} (x : Noted α) : Talk α := fun w =>
  let (r, notices) := (ExceptT.run x).run w.notices
  (r.mapError .fault, { w with notices })

def ofChecked {α : Type} (x : Checked α) : Talk α := fun w => (x.mapError .fault, w)

end Talk
end SsaFacts
