import Mathlib.Algebra.Order.Ring.Int
import Mathlib.Data.List.Nodup

/-!
# Rings

Cells that are linked both ways and closed to a ring, by the functions that give the cell behind and
the cell in front of each.  A ring has no first cell of its own: a cell that comes in between the
last cell and the first one of the list is in front of the one or behind the other, as one likes.
-/

namespace Sol25.Ring

open Function List

variable {α : Type*} {next prev next' prev' : α → α} {l : List α} {a b c x : α}

/-- The links from a cell along some others to a last one. -/
def Path (next prev : α → α) : α → List α → α → Prop
  | a, [], b => next a = b ∧ prev b = a
  | a, c :: l, b => (next a = c ∧ prev c = a) ∧ Path next prev c l b

/-- Different cells in a ring. -/
structure Closed (next prev : α → α) (first : α) (l : List α) : Prop where
  path : Path next prev first l first
  nodup : (first :: l).Nodup

theorem closed_single (next_eq : next a = a) (prev_eq : prev a = a) : Closed next prev a [] :=
  ⟨⟨next_eq, prev_eq⟩, nodup_singleton a⟩

theorem Path.snoc (path : Path next prev a l b) (next_eq : next b = c) (prev_eq : prev c = b) :
    Path next prev a (l ++ [b]) c := by
  induction l generalizing a with
  | nil => exact ⟨path, next_eq, prev_eq⟩
  | cons d l ih => exact ⟨path.1, ih path.2⟩

/-- The second cell is as good as the first one to start from. -/
theorem Closed.rotate (closed : Closed next prev a (b :: l)) : Closed next prev b (l ++ [a]) :=
  ⟨closed.path.2.snoc closed.path.1.1 closed.path.1.2,
    (perm_append_singleton a (b :: l)).nodup_iff.2 closed.nodup⟩

/-- The last cell of a path is in front of where the path leads. -/
theorem Path.prev_eq (path : Path next prev a l b) : prev b = (a :: l).getLast (by simp) := by
  induction l generalizing a with
  | nil => exact path.2
  | cons d l ih => exact ih path.2

/-- A path is led elsewhere from its last cell. -/
theorem Path.redirect (path : Path next prev a l b) (nodup : (a :: l).Nodup)
    (next_last : next' ((a :: l).getLast (by simp)) = x)
    (prev_x : prev' x = (a :: l).getLast (by simp))
    (next_eq : ∀ u ∈ a :: l, u ≠ (a :: l).getLast (by simp) → next' u = next u)
    (prev_eq : ∀ u ∈ l, prev' u = prev u) : Path next' prev' a l x := by
  induction l generalizing a with
  | nil => exact ⟨next_last, prev_x⟩
  | cons d l ih =>
    have ne_last : a ≠ (d :: l).getLast (by simp) := fun eq =>
      (nodup_cons.1 nodup).1 (eq ▸ getLast_mem _)
    refine ⟨⟨?_, ?_⟩, ih path.2 (nodup_cons.1 nodup).2 next_last prev_x
      (fun u mem => next_eq u (mem_cons_of_mem a mem))
      fun u mem => prev_eq u (mem_cons_of_mem d mem)⟩
    · rw [next_eq a mem_cons_self ne_last]
      exact path.1.1
    · rw [prev_eq d mem_cons_self]
      exact path.1.2

section Insert

variable [DecidableEq α]

/-- The links behind the cells once one has come in front of another. -/
def insertNext (next prev : α → α) (a x : α) : α → α := update (update next x a) (prev a) x

/-- The links in front of the cells once one has come in front of another. -/
def insertPrev (prev : α → α) (a x : α) : α → α := update (update prev x (prev a)) a x

/-- A new cell in front of the first one. -/
theorem Closed.insert (closed : Closed next prev a l) (new : x ∉ a :: l) :
    Closed (insertNext next prev a x) (insertPrev prev a x) x (a :: l) := by
  have last_eq := closed.path.prev_eq
  have last_mem : prev a ∈ a :: l := by
    rw [last_eq]
    exact getLast_mem _
  have x_ne_last : x ≠ prev a := fun eq => new (eq ▸ last_mem)
  have x_ne : x ≠ a := fun eq => new (eq ▸ mem_cons_self)
  refine ⟨⟨⟨?_, ?_⟩, closed.path.redirect closed.nodup ?_ ?_ (fun u mem ne => ?_)
    fun u mem => ?_⟩, nodup_cons.2 ⟨new, closed.nodup⟩⟩
  · rw [insertNext, update_of_ne x_ne_last, update_self]
  · rw [insertPrev, update_self]
  · rw [← last_eq, insertNext, update_self]
  · rw [← last_eq, insertPrev, update_of_ne x_ne, update_self]
  · rw [← last_eq] at ne
    have ne_x : u ≠ x := fun eq => new (eq ▸ mem)
    rw [insertNext, update_of_ne ne, update_of_ne ne_x]
  · have ne_first : u ≠ a := fun eq => (nodup_cons.1 closed.nodup).1 (eq ▸ mem)
    have ne_x : u ≠ x := fun eq => new (eq ▸ mem_cons_of_mem a mem)
    rw [insertPrev, update_of_ne ne_first, update_of_ne ne_x]

/-- A new cell behind the last one. -/
theorem Closed.append (closed : Closed next prev a l) (new : x ∉ a :: l) :
    Closed (insertNext next prev a x) (insertPrev prev a x) a (l ++ [x]) :=
  (closed.insert new).rotate

end Insert

end Sol25.Ring
