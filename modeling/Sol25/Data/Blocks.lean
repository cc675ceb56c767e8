import Mathlib.Algebra.Order.Ring.Int
import Mathlib.Data.List.Pairwise
import Mathlib.Data.List.Perm.Basic

/-!
# Blocks of memory

A block is a pair of a first place and the place behind its last one.  Blocks that lie apart stay
apart when one of them is cut into smaller ones.
-/

namespace Sol25.Blocks

open List

variable {α : Type*} [Preorder α] {a b c : α × α} {l l' new : List (α × α)}

/-- One of the blocks ends before the other begins. -/
def Apart (a b : α × α) : Prop := a.2 ≤ b.1 ∨ b.2 ≤ a.1

/-- A block lies within another one. -/
def Inside (a b : α × α) : Prop := b.1 ≤ a.1 ∧ a.2 ≤ b.2

theorem Apart.symm (apart : Apart a b) : Apart b a := Or.symm apart

theorem Inside.refl (a : α × α) : Inside a a := ⟨le_rfl, le_rfl⟩

theorem Inside.trans (inside : Inside a b) (inside' : Inside b c) : Inside a c :=
  ⟨inside'.1.trans inside.1, inside.2.trans inside'.2⟩

theorem Inside.apart (inside : Inside a b) (apart : Apart b c) : Apart a c := by
  obtain ⟨first, last⟩ := inside
  rcases apart with before | after
  · exact Or.inl (last.trans before)
  · exact Or.inr (after.trans first)

/-- Blocks that lie apart from each other. -/
def Separate (l : List (α × α)) : Prop := l.Pairwise Apart

theorem Separate.perm (separate : Separate l) (perm : l.Perm l') : Separate l' :=
  (perm.pairwise_iff Apart.symm).1 separate

theorem Separate.sublist (separate : Separate l) (sublist : l'.Sublist l) : Separate l' :=
  Pairwise.sublist sublist separate

/-- A block is cut into smaller ones. -/
theorem Separate.cut (separate : Separate (b :: l)) (inside : ∀ a ∈ new, Inside a b)
    (pieces : Separate new) : Separate (new ++ l) := by
  obtain ⟨apart, rest⟩ := pairwise_cons.1 separate
  exact pairwise_append.2
    ⟨pieces, rest, fun a a_mem c c_mem => (inside a a_mem).apart (apart c c_mem)⟩

/-- Blocks within a new one that lies apart from all others. -/
theorem Separate.append (separate : Separate l) (apart : ∀ c ∈ l, Apart b c)
    (inside : ∀ a ∈ new, Inside a b) (pieces : Separate new) : Separate (new ++ l) :=
  Separate.cut (pairwise_cons.2 ⟨apart, separate⟩) inside pieces

end Sol25.Blocks
