import Mathlib.Algebra.BigOperators.Group.Finset.Basic
import Mathlib.Algebra.Order.Ring.Int

/-!
# Depth-first searches of a graph

Searches over a directed graph given by neighbour lists. In the first, vertices are coloured when
they are put on the stack, so each is expanded at most once; `visits` lists the vertices in the
order in which they are taken from the stack, and `newly` those a search from one vertex colours.
The second hunts for a cycle: a vertex is marked as arrived when it pushes its first child, and as
departed when its edges are used up, and an edge into a vertex that has arrived and not departed
closes a cycle.
-/

namespace Sol25

namespace Graph

variable {α : Type*} [DecidableEq α]

/-- Look at the vertices of a list in turn; colour and push those that have no colour yet. Returns
the coloured vertices and the stack. -/
def scan : List α → List α → List α → List α × List α
  | [], colored, stack => (colored, stack)
  | v :: rest, colored, stack =>
    if v ∈ colored then scan rest colored stack
    else scan rest (v :: colored) (v :: stack)

/-- The vertices taken from the stack until it is empty, in order. -/
def visits (nbr : α → List α) : ℕ → List α → List α → List α
  | 0, _, _ => []
  | _ + 1, [], _ => []
  | fuel + 1, v :: stack, colored =>
    v :: visits nbr fuel (scan (nbr v) colored stack).2 (scan (nbr v) colored stack).1

/-- The vertices coloured by a search that starts with only `v` on the stack. -/
def newly (nbr : α → List α) (fuel : ℕ) (v : α) (colored : List α) : List α :=
  (visits nbr (fuel + 1) [v] colored).tail

/-- What the remaining edges of a vertex lead to. -/
inductive Advance (α : Type*)
  /-- a vertex that has not arrived, and the edges behind it -/
  | child (target : α) (rest : List α)
  /-- a vertex that has arrived and not departed -/
  | closes (target : α)
  /-- only vertices that have departed -/
  | exhausted

/-- Go through the remaining edges up to the first that does not lead to a departed vertex. -/
def advance (arrived departed : List α) : List α → Advance α
  | [] => .exhausted
  | target :: rest =>
    if target ∉ arrived then .child target rest
    else if target ∉ departed then .closes target
    else advance arrived departed rest

/-- The search itself: does it meet a cycle? The stack holds vertices with their unused edges. -/
def hunt (succ : α → List α) : ℕ → List (α × List α) → List α → List α → Bool
  | 0, _, _, _ => false
  | _ + 1, [], _, _ => false
  | fuel + 1, (vertex, edges) :: stack, arrived, departed =>
    match advance arrived departed edges with
    | .child target rest =>
      hunt succ fuel ((target, succ target) :: (vertex, rest) :: stack) (vertex :: arrived) departed
    | .closes _ => true
    | .exhausted => hunt succ fuel stack arrived (vertex :: departed)

end Graph

end Sol25
