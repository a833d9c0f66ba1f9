import SsaFacts.Fault

/-! Errors that the solver and the queries report, and the two ways in which an operation fails. -/
namespace SsaFacts

inductive ProcessError
  | notFound
  | unexpectedReply (reply : String)
  | unreadableModel

inductive Error
  /-- The captured facts have no model; `core` is a minimal such subset. -/
  | inconsistent (core : List String)
  /-- The solver could not decide `subject`. -/
  | undecided (subject : String)
  | solverBusy
  | widthMismatch (lhs rhs : Nat)
  | unexpectedModel (value : String)
  | process (cause : ProcessError)

inductive Failure
  | error (e : Error)
  | fault (f : Fault)

def ProcessError.message : ProcessError → String
  | notFound => "No such file or directory (os error 2)"
  | unexpectedReply reply => "Unexpected result from solver: " ++ reply
  | unreadableModel => "Failed to parse solver output"

def Error.message : Error → String
  | inconsistent core =>
    "captured constraints are inconsistent, minimal core:\n" ++ "\n".intercalate core
  | undecided subject => "solver answered unknown for " ++ subject
  | solverBusy => "another solver instance is still alive"
  | widthMismatch lhs rhs => "operand widths differ: " ++ toString lhs ++ " vs " ++ toString rhs
  | unexpectedModel value => "unexpected model value \x60" ++ value ++ "\x60"
  | process cause => "solver process: " ++ cause.message

end SsaFacts
