/-! Search in finite graphs whose nodes are numbers. -/
namespace SsaFacts

/-- The nodes of `remaining` that are reached from `pending` through nodes of `remaining`. Every node
that is taken leaves `remaining`, which bounds the search. -/
def closure (next : Nat → List Nat) (remaining pending : List Nat) : List Nat :=
  match pending with
  | [] => []
  | x :: rest =>
    if _taken : x ∈ remaining then x :: closure next (remaining.erase x) (next x ++ rest)
    else closure next remaining rest
termination_by (remaining.length, pending.length)
decreasing_by
  · have shorter := List.length_erase_of_mem _taken
    have pos := List.length_pos_of_mem _taken
    exact Prod.Lex.left _ _ (by omega)
  · exact Prod.Lex.right _ (by simp)

/-- The nodes of a list that are open and not marked, in order. Each is marked as soon as it is found. -/
def fresh (isOpen : Nat → Bool) (marked : List Nat) : List Nat → List Nat
  | [] => []
  | y :: rest =>
    if isOpen y && !marked.contains y then y :: fresh isOpen (y :: marked) rest else fresh isOpen marked rest

theorem mem_fresh {isOpen : Nat → Bool} {marked ys : List Nat} {y : Nat} :
    y ∈ fresh isOpen marked ys ↔ y ∈ ys ∧ isOpen y = true ∧ y ∉ marked := by
  induction ys generalizing marked with
  | nil => simp [fresh]
  | cons z rest ih =>
    rw [fresh]
    by_cases same : y = z
    · subst same
      split <;> simp_all
    · split <;> simp [ih, same]

/-- The nodes that a walk through `nodes` has marked when its queue is empty. A node is marked when it is
queued; the last one queued is looked at first. -/
def flood (next : Nat → List Nat) (nodes marked queue : List Nat) : List Nat :=
  match queue with
  | [] => marked
  | x :: rest =>
    let found := (fresh nodes.contains marked (next x)).reverse
    flood next nodes (found ++ marked) (found ++ rest)
termination_by ((nodes.filter (!marked.contains ·)).length, queue.length)
decreasing_by
  by_cases none : fresh nodes.contains marked (next x) = []
  · rw [none]
    exact Prod.Lex.right _ (Nat.lt_succ_self _)
  · refine Prod.Lex.left _ _ ?_
    obtain ⟨y, rest, new⟩ := List.exists_cons_of_ne_nil none
    have mem : y ∈ fresh nodes.contains marked (next x) := new ▸ List.mem_cons_self
    obtain ⟨-, inside, unmarked⟩ := mem_fresh.1 mem
    have fewer : nodes.filter (!((fresh nodes.contains marked (next x)).reverse ++ marked).contains ·) =
        (nodes.filter (!marked.contains ·)).filter (!(fresh nodes.contains marked (next x)).contains ·) := by
      rw [List.filter_filter]
      refine List.filter_congr fun z _ => ?_
      simp
    rw [fewer]
    refine List.length_filter_lt_length_iff_exists.2 ⟨y, ?_, by simp [mem]⟩
    exact List.mem_filter.2 ⟨by simpa using inside, by simp [unmarked]⟩

/-- The nodes that a depth-first search has left, the last one first. The search is inside the nodes of
`stack`, innermost first, each with the successors that it has yet to look at; it has left the nodes of
`done`, and it has not seen those of `remaining`. -/
def depthFirst (next : Nat → List Nat) (remaining : List Nat) (stack : List (Nat × List Nat))
    (done : List Nat) : List Nat :=
  match stack with
  | [] => done
  | (x, []) :: below => depthFirst next remaining below (x :: done)
  | (x, y :: later) :: below =>
    if _unseen : y ∈ remaining then
      depthFirst next (remaining.erase y) ((y, next y) :: (x, later) :: below) done
    else depthFirst next remaining ((x, later) :: below) done
termination_by (remaining.length, (stack.flatMap Prod.snd).length + stack.length)
decreasing_by
  · exact Prod.Lex.right _ (by simp)
  · have shorter := List.length_erase_of_mem _unseen
    have pos := List.length_pos_of_mem _unseen
    exact Prod.Lex.left _ _ (by omega)
  · exact Prod.Lex.right _ (by simp)

end SsaFacts
