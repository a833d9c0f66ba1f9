import SsaFacts.Solver.World

/-! Hosts that decide nothing and answer from a script. -/
namespace SsaFacts

open Smt

inductive ModelReply
  /-- Values paired with the terms in order. -/
  | inOrder (values : List String)
  /-- Values by the text of the term; zero for one that is not listed. -/
  | byTerm (values : List (String × String))
  /-- The reply itself. -/
  | raw (reply : String)

structure Script where
  /-- Replies to the checks, in order; later checks are answered by sat. -/
  checks : List String := []
  /-- Replies to the requests for values, in order. -/
  values : List ModelReply := []
  /-- Replies to single other commands, counted from 0, in place of success. -/
  acks : List (Nat × String) := []

namespace Script

def isCheck : Command → Bool
  | .checkSat => true
  | _ => false

def isGetValue : Command → Bool
  | .getValue _ => true
  | _ => false

def isOther (c : Command) : Bool := !isCheck c && !isGetValue c

/-- The number of commands of a kind that a process has counted: all that were sent before it started,
and those sent to it since. -/
def counted (kind : Command → Bool) (process : Nat) : List Entry → Nat
  | [] => 0
  | .started p :: before =>
    if p = process then before.countP (fun
      | .started _ => false
      | .sent _ c => kind c)
    else counted kind process before
  | .sent p c :: before =>
    counted kind process before + (if p = process && kind c then 1 else 0)

def pairsText (pairs : List (String × String)) : String :=
  "(" ++ " ".intercalate (pairs.map fun (t, v) => "(" ++ t ++ " " ++ v ++ ")") ++ ")"

def modelText (terms : List String) : ModelReply → String
  | .inOrder values => pairsText (terms.zip values)
  | .byTerm values => pairsText (terms.map fun t => (t, (values.lookup t).getD "#b0"))
  | .raw reply => reply

def replyText (s : Script) (history : List Entry) (process : Nat) : Command → String
  | .checkSat => s.checks.getD (counted isCheck process history) "sat"
  | .getValue terms =>
    modelText (terms.map Term.text)
      (s.values.getD (counted isGetValue process history) (.byTerm []))
  | _ => (s.acks.lookup (counted isOther process history)).getD "success"

def texts (s : Script) : List String :=
  s.checks ++ s.acks.map Prod.snd ++ s.values.flatMap fun
    | .inOrder values => values
    | .byTerm values => values.map Prod.snd
    | .raw reply => [reply]

/-- The lines that a process has written and that were not read, latest event first. One expression is
read after each command, so a reply with more lines than it takes leaves some. -/
def unread (s : Script) (process : Nat) : List Entry → List String
  | [] => []
  | .started p :: before => if p = process then [] else unread s process before
  | .sent p c :: before =>
    if p = process then
      let written := unread s process before ++ Sexp.linesOf (s.replyText before process c)
      ((Sexp.readLines [] written).map Prod.snd).getD []
    else unread s process before

/-- The first expression of what is unread. Where every reply is one line, nothing was left over. -/
def reply (s : Script) (history : List Entry) (process : Nat) (c : Command) : Sexp :=
  let text := s.replyText history process c
  let left := if s.texts.any (·.contains '\n') then s.unread process history else []
  match Sexp.readLines [] (left ++ Sexp.linesOf text) with
  | some (e, _) => e
  | none => .atom text

def host (s : Script) (launches creates : Bool) : Host where
  launches := fun _ _ => launches
  creates := fun _ => creates
  reply := s.reply

end Script

/-- A host that gives the replies in order, whatever the commands are. -/
def Host.ofReplies (replies : List String) : Host where
  launches := fun _ _ => true
  creates := fun _ => true
  reply := fun history _ _ =>
    let sent := history.countP fun
      | .started _ => false
      | .sent .. => true
    let text := replies.getD sent ""
    (Sexp.parse? text).getD (.atom text)

end SsaFacts
