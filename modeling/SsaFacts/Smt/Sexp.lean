import SsaFacts.Smt.Token
import SsaFacts.Text.Quoted

/-! S-expressions, the form of a solver's replies. -/
namespace SsaFacts.Smt

inductive Sexp
  | atom (text : String)
  | string (text : String)
  | list (items : List Sexp)

namespace Sexp

/-- Items are separated by single blanks. -/
def text : Sexp → String
  | atom s => s
  | string s => Text.quote s
  | list items => "(" ++ " ".intercalate (items.map text) ++ ")"

/-- How far a text was read: to the end of an expression, or with lists still open, innermost first and
each reversed. -/
inductive Progress
  | complete (e : Sexp)
  | pending (stack : List (List Sexp))

def Progress.add (e : Sexp) : List (List Sexp) → Progress
  | [] => complete e
  | top :: below => pending ((e :: top) :: below)

/-- The effect of a token. Nothing happens where a closing parenthesis has no partner. -/
def advance (stack : List (List Sexp)) : Token → Progress
  | .opening => .pending ([] :: stack)
  | .symbol s => .add (atom s) stack
  | .string s => .add (string s) stack
  | .closing => match stack with
    | [] => .pending []
    | top :: below => .add (list top.reverse) below

def assemble (stack : List (List Sexp)) : List Token → Progress
  | [] => .pending stack
  | token :: rest =>
    match advance stack token with
    | .complete e => .complete e
    | .pending stack => assemble stack rest

/-- Reads lines up to the end of the first expression, and drops the rest of the line on which it ends.
The lines behind it are returned too. -/
def readLines (stack : List (List Sexp)) : List String → Option (Sexp × List String)
  | [] => none
  | line :: rest =>
    match assemble stack (Token.ofLine line) with
    | .complete e => some (e, rest)
    | .pending stack => readLines stack rest

def linesOf (s : String) : List String := (s.splitOn "\n").map (· ++ "\n")

def parse? (s : String) : Option Sexp := (readLines [] (linesOf s)).map Prod.fst

end Sexp
end SsaFacts.Smt
