/-! Faults: an operation was applied outside its domain. They stop a computation for good and are
kept apart from the errors that a solver or a query reports. -/
namespace SsaFacts

inductive Fault
  /-- Two operands that have to agree in width do not. -/
  | widthMismatch (left right : Nat)
  /-- A signed reading was asked of a literal whose width is not between 1 and 64. -/
  | widthOutOfRange (width : Nat)
  | unknownValue (id : Nat)
  | unknownBlock (id : Nat)
  | unknownFunction (id : Nat)
  | unknownLoop (id : Nat)
  /-- A constant byte offset leaves the signed 64-bit range. -/
  | offsetOverflow
  /-- A constant has more bits than can be written. -/
  | constantTooWide (width : Nat)
  /-- A model is not a list of pairs. -/
  | malformedModel
  deriving DecidableEq, Repr

/-- A computation that may run into a fault. -/
abbrev Checked (α : Type) := Except Fault α

end SsaFacts
