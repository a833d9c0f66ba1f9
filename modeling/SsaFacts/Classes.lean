import SsaFacts.Notice

/-! Classes of values and literals known to be equal, as a forest of parent links. A literal is never
linked below another node, so it is the root of its class; two literals never share a class. -/
namespace SsaFacts

inductive Node
  | value (v : ValueId)
  | literal (l : Literal)
  deriving DecidableEq

structure Classes where
  parents : List (ValueId × Node) := []

namespace Classes

def empty : Classes := {}

def parent? (c : Classes) (v : ValueId) : Option Node := c.parents.lookup v

def link (c : Classes) (v : ValueId) (n : Node) : Classes :=
  { parents := (v, n) :: c.parents.filter (·.1 ≠ v) }

@[simp] theorem parent?_empty (v : ValueId) : empty.parent? v = none := rfl

def climb (c : Classes) : Nat → Node → Node
  | 0, n => n
  | _, .literal l => .literal l
  | steps + 1, .value v =>
    match c.parent? v with
    | none => .value v
    | some n => c.climb steps n

/-- The representative of a node's class. No path has more links than there are. -/
def root (c : Classes) (n : Node) : Node := c.climb c.parents.length n

/-- Relinks the nodes on the path from a node straight to `top`. -/
def shorten (top : Node) : Nat → Classes → Node → Classes
  | 0, c, _ => c
  | _, c, .literal _ => c
  | steps + 1, c, .value v =>
    match c.parent? v with
    | none => c
    | some n => if n = top then c else shorten top steps (c.link v top) n

def find (c : Classes) (n : Node) : Node × Classes :=
  (c.root n, shorten (c.root n) c.parents.length c n)

/-- Joins two classes. Two different literals are left apart and returned as a conflict. -/
def unite (c : Classes) (a b : Node) : Classes × Option (Literal × Literal) :=
  let (ra, c) := c.find a
  let (rb, c) := c.find b
  if ra = rb then (c, none)
  else match ra, rb with
    | .literal la, .literal lb => (c, some (la, lb))
    | .literal _, .value v => (c.link v ra, none)
    | .value v, _ => (c.link v rb, none)

def identify (c : Classes) (a b : Node) : Noted Classes := do
  let (c, conflict) := c.unite a b
  if let some (la, lb) := conflict then note (.conflictingLiterals la lb)
  return c

/-- What a leaf becomes: the literal of its class, or a reference to the representative. An operand is
read as the result that it holds. -/
def canonicalLeaf (c : Classes) (l : Leaf) : Expr :=
  match c.root (.value l.value), l.ref with
  | .literal k, _ => .literal k
  | .value v, .result _ stack => .leaf { l with ref := .result v stack }
  | .value v, .operand _ stack => .leaf { l with ref := .result v stack }
  | .value v, .previous _ => .leaf { l with ref := .previous v }

def canonicalExpr (c : Classes) (e : Expr) : Expr := e.subst c.canonicalLeaf

def canonical (c : Classes) (f : Clause) : Clause := f.subst c.canonicalLeaf

end Classes

/-- The node of a literal, or of a result in the default activation. -/
def Expr.plainNode? : Expr → Option Node
  | .literal l => some (.literal l)
  | .leaf { ref := .result v [], context := 0, .. } => some (.value v)
  | _ => none

def Clause.simpleEq? : Clause → Option (Node × Node)
  | .atom .eq l r => do return (← l.plainNode?, ← r.plainNode?)
  | _ => none

def Node.fixed (isFixed : ValueId → Bool) : Node → Bool
  | .value v => isFixed v
  | .literal _ => true

namespace Classes

/-- Joins the sides of every simple equality between fixed nodes, and counts those equalities. -/
def absorb (isFixed : ValueId → Bool) (c : Classes) (facts : List Clause) : Noted (Classes × Nat) :=
  facts.foldlM (fun (c, merged) f => do
    match f.simpleEq? with
    | some (a, b) =>
      if a.fixed isFixed && b.fixed isFixed then return (← c.identify a b, merged + 1)
      else return (c, merged)
    | none => return (c, merged)) (c, 0)

end Classes
end SsaFacts
