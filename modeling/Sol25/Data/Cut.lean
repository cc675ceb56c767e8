import Mathlib.Algebra.Order.Ring.Int
import Mathlib.Data.List.Basic

/-!
# Lists cut at a separator

A list is cut at the first separator, or into all the pieces that end in one.
-/

namespace Sol25

open List

variable {α : Type*} [DecidableEq α] {sep : α} {front back l : List α} {fs : List (List α)}

/-- What is in front of the first separator and what is behind it. -/
def cut (sep : α) : List α → Option (List α × List α)
  | [] => none
  | x :: l =>
    if x = sep then some ([], l) else (cut sep l).map fun (front, back) => (x :: front, back)

/-- The pieces that end in a separator. -/
def pieces (sep : α) : List α → List (List α)
  | [] => []
  | x :: l =>
    if x = sep then [] :: pieces sep l
    else
      match pieces sep l with
      | [] => []
      | f :: fs => (x :: f) :: fs

theorem cut_append (plain : sep ∉ front) : cut sep (front ++ sep :: back) = some (front, back) := by
  induction front with
  | nil => rw [nil_append, cut, if_pos rfl]
  | cons x front ih =>
    obtain ⟨ne, plain⟩ := not_or.1 (mt mem_cons.2 plain)
    rw [cons_append, cut, if_neg (Ne.symm ne), ih plain]
    rfl

theorem cut_eq_some : cut sep l = some (front, back) ↔ l = front ++ sep :: back ∧ sep ∉ front := by
  constructor
  · intro found
    induction l generalizing front with
    | nil => exact nomatch found
    | cons x l ih =>
      rw [cut] at found
      by_cases here : x = sep
      · rw [if_pos here] at found
        obtain ⟨rfl, rfl⟩ := Prod.mk.inj (Option.some.inj found)
        exact ⟨by rw [here, nil_append], not_mem_nil⟩
      · rw [if_neg here, Option.map_eq_some_iff] at found
        obtain ⟨⟨front, back⟩, later, rest⟩ := found
        obtain ⟨rfl, rfl⟩ := Prod.mk.inj rest
        obtain ⟨rfl, plain⟩ := ih later
        exact ⟨rfl, mt mem_cons.1 (not_or.2 ⟨Ne.symm here, plain⟩)⟩
  · rintro ⟨rfl, plain⟩
    exact cut_append plain

theorem pieces_append (plain : sep ∉ front) :
    pieces sep (front ++ sep :: back) = front :: pieces sep back := by
  induction front with
  | nil => rw [nil_append, pieces, if_pos rfl]
  | cons x front ih =>
    obtain ⟨ne, plain⟩ := not_or.1 (mt mem_cons.2 plain)
    rw [cons_append, pieces, if_neg (Ne.symm ne), ih plain]

/-- Lists without separators come back from the list of all of them. -/
theorem pieces_flatten (plain : ∀ f ∈ fs, sep ∉ f) :
    pieces sep ((fs.map (· ++ [sep])).flatten ++ back) = fs ++ pieces sep back := by
  induction fs with
  | nil => rfl
  | cons f fs ih =>
    obtain ⟨here, plain⟩ := forall_mem_cons.1 plain
    rw [map_cons, flatten_cons, append_assoc, append_assoc,
      singleton_append, pieces_append here, ih plain, cons_append]

/-- The first piece goes on with all that has no separator. -/
theorem pieces_prefix (plain : sep ∉ front) {f : List α}
    (eq : pieces sep (front ++ back) = f :: fs) : ∃ f', f = front ++ f' := by
  induction front generalizing f fs with
  | nil => exact ⟨f, rfl⟩
  | cons x front ih =>
    obtain ⟨ne, plain⟩ := not_or.1 (mt mem_cons.2 plain)
    rw [cons_append, pieces, if_neg (Ne.symm ne)] at eq
    cases later : pieces sep (front ++ back) with
    | nil =>
      rw [later] at eq
      exact nomatch eq
    | cons first others =>
      rw [later] at eq
      obtain ⟨rfl, -⟩ := cons.inj eq
      obtain ⟨f', rfl⟩ := ih plain later
      exact ⟨f', rfl⟩

end Sol25
