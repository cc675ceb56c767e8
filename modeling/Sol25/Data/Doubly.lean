import Mathlib.Algebra.Order.Ring.Int
import Mathlib.Data.List.Nodup

/-!
# Doubly linked lists

Cells with `next` and `prev` links between a first and a last cell.  `Holds` says that the links are
those of a list; putting a cell between two neighbours and taking one out are the only changes.
-/

namespace Sol25

open List

/-- The links of some cells, and both ends. -/
structure Doubly (α : Type*) where
  next : α → Option α
  prev : α → Option α
  first : Option α
  last : Option α

namespace Doubly

variable {α : Type*}

/-- The links of the cells of a list that stands between two cells. -/
def Seg (next prev : α → Option α) : Option α → List α → Option α → Prop
  | _, [], _ => True
  | before, x :: xs, after =>
    prev x = before ∧ next x = xs.head?.or after ∧ Seg next prev (some x) xs after

/-- The links are those of a list of distinct cells. -/
structure Holds (d : Doubly α) (cells : List α) : Prop where
  nodup : cells.Nodup
  seg : Seg d.next d.prev none cells none
  first : d.first = cells.head?
  last : d.last = cells.getLast?

/-- No cells. -/
def empty : Doubly α := ⟨fun _ => none, fun _ => none, none, none⟩

theorem empty_holds : Holds (empty : Doubly α) [] := ⟨nodup_nil, trivial, rfl, rfl⟩

variable {d : Doubly α} {cells front : List α} {after before : Option α} {x : α}
  {next next' prev prev' : α → Option α}

theorem seg_congr (same : ∀ x ∈ cells, next' x = next x ∧ prev' x = prev x)
    (seg : Seg next prev before cells after) : Seg next' prev' before cells after := by
  induction cells generalizing before with
  | nil => trivial
  | cons x xs ih =>
    obtain ⟨prev_eq, next_eq, rest⟩ := seg
    obtain ⟨next_same, prev_same⟩ := same x mem_cons_self
    exact ⟨prev_same.trans prev_eq, next_same.trans next_eq,
      ih (fun y member => same y (mem_cons_of_mem _ member)) rest⟩

theorem seg_append (front back : List α) :
    Seg next prev before (front ++ back) after ↔ Seg next prev before front (back.head?.or after) ∧
        Seg next prev (front.getLast?.or before) back after := by
  induction front generalizing before with
  | nil => simp [Seg]
  | cons x xs ih =>
    have head_eq : (xs ++ back).head?.or after = xs.head?.or (back.head?.or after) := by
      cases xs <;> simp
    have last_eq : (x :: xs).getLast?.or before = xs.getLast?.or (some x) := by
      cases xs with
      | nil => simp
      | cons y ys =>
        rw [getLast?_cons_cons]
        cases last : (y :: ys).getLast? with
        | none => simp [getLast?_eq_none_iff] at last
        | some z => rfl
    simp only [cons_append, Seg, ih, head_eq, last_eq]
    tauto

/-- Only the links of the cells matter. -/
theorem Holds.congr {d' : Doubly α} (holds : Holds d cells)
    (same : ∀ x ∈ cells, d'.next x = d.next x ∧ d'.prev x = d.prev x) (first : d'.first = d.first)
    (last : d'.last = d.last) : Holds d' cells :=
  ⟨holds.nodup, seg_congr same holds.seg, first.trans holds.first, last.trans holds.last⟩

/-- The segment in front of a cell that changes: its last cell gets another successor. -/
theorem seg_retarget {after' : Option α} (nodup : cells.Nodup)
    (same_prev : ∀ x ∈ cells, prev' x = prev x)
    (same_next : ∀ x ∈ cells, some x ≠ cells.getLast? → next' x = next x)
    (last_next : ∀ x, some x = cells.getLast? → next' x = after')
    (seg : Seg next prev before cells after) : Seg next' prev' before cells after' := by
  induction cells generalizing before with
  | nil => trivial
  | cons x xs ih =>
    obtain ⟨prev_eq, next_eq, rest⟩ := seg
    refine ⟨(same_prev x mem_cons_self).trans prev_eq, ?_, ?_⟩
    · cases xs with
      | nil => exact last_next x rfl
      | cons y ys =>
        rw [same_next x mem_cons_self]
        · exact next_eq
        · rw [getLast?_cons_cons]
          intro same
          exact (nodup_cons.1 nodup).1 (mem_of_getLast? same.symm)
    · refine ih (nodup_cons.1 nodup).2 (fun y member => same_prev y
        (mem_cons_of_mem _ member)) ?_ ?_ rest
      · intro y member ne
        refine same_next y (mem_cons_of_mem _ member) ?_
        cases xs with
        | nil => exact absurd member not_mem_nil
        | cons z zs => rwa [getLast?_cons_cons]
      · intro y is_last
        refine last_next y ?_
        cases xs with
        | nil => simp at is_last
        | cons z zs => rwa [getLast?_cons_cons]

/-- The segment behind a cell that changes: its first cell gets another predecessor. -/
theorem seg_rebase {before' : Option α} (nodup : cells.Nodup)
    (same_next : ∀ x ∈ cells, next' x = next x)
    (same_prev : ∀ x ∈ cells, some x ≠ cells.head? → prev' x = prev x)
    (first_prev : ∀ x, some x = cells.head? → prev' x = before')
    (seg : Seg next prev before cells after) : Seg next' prev' before' cells after := by
  cases cells with
  | nil => trivial
  | cons x xs =>
    obtain ⟨-, next_eq, rest⟩ := seg
    refine ⟨first_prev x rfl, (same_next x mem_cons_self).trans next_eq, ?_⟩
    refine seg_congr (fun y member => ?_) rest
    refine ⟨same_next y (mem_cons_of_mem _ member), same_prev y (mem_cons_of_mem _ member) ?_⟩
    rintro ⟨⟩
    exact (nodup_cons.1 nodup).1 member

theorem ends_apart {back : List α} (apart : ∀ y ∈ front, ∀ z ∈ back, y ≠ z) :
    (∀ y ∈ front, some y ≠ back.head?) ∧ ∀ y ∈ back, some y ≠ front.getLast? :=
  ⟨fun y member same => apart y member y (mem_of_head? same.symm) rfl,
    fun y member same => apart y (mem_of_getLast? same.symm) y member rfl⟩

section Changes

variable [DecidableEq α]

/-- Put a cell between two neighbours. -/
def link (d : Doubly α) (before : Option α) (x : α) (after : Option α) : Doubly α where
  next := fun y => if y = x then after else if some y = before then some x else d.next y
  prev := fun y => if y = x then before else if some y = after then some x else d.prev y
  first := if before = none then some x else d.first
  last := if after = none then some x else d.last

/-- Take the cell between two neighbours out. -/
def unlink (d : Doubly α) (before : Option α) (x : α) (after : Option α) : Doubly α where
  next := fun y => if y = x then none else if some y = before then after else d.next y
  prev := fun y => if y = x then none else if some y = after then before else d.prev y
  first := if before = none then after else d.first
  last := if after = none then before else d.last

theorem Holds.link {back : List α} (holds : Holds d (front ++ back)) (fresh : x ∉ front ++ back) :
    Holds (d.link front.getLast? x back.head?) (front ++ x :: back) := by
  have nodup := holds.nodup
  have seg := (seg_append front back).1 holds.seg
  simp only [Option.or_none] at seg
  rw [nodup_append] at nodup
  obtain ⟨front_nodup, back_nodup, apart⟩ := nodup
  simp only [mem_append, not_or] at fresh
  have front_ne : ∀ y ∈ front, y ≠ x := fun y member same => fresh.1 (same ▸ member)
  have back_ne : ∀ y ∈ back, y ≠ x := fun y member same => fresh.2 (same ▸ member)
  obtain ⟨front_head, back_last⟩ := ends_apart apart
  refine ⟨?_, ?_, ?_, ?_⟩
  · rw [nodup_append, nodup_cons]
    refine ⟨front_nodup, ⟨fresh.2, back_nodup⟩, ?_⟩
    intro y member z z_mem
    rcases mem_cons.1 z_mem with rfl | behind
    · exact front_ne y member
    · exact apart y member z behind
  · rw [seg_append]
    refine ⟨?_, ?_, ?_, ?_⟩
    · refine seg_retarget front_nodup ?_ ?_ ?_ seg.1
      · intro y member
        simp [Doubly.link, front_ne y member, front_head y member]
      · intro y member ne
        simp [Doubly.link, front_ne y member, ne]
      · intro y is_last
        have := front_ne y (mem_of_getLast? is_last.symm)
        simp [Doubly.link, this, is_last]
    · simp [Doubly.link]
    · simp [Doubly.link]
    · refine seg_rebase back_nodup ?_ ?_ ?_ seg.2
      · intro y member
        simp [Doubly.link, back_ne y member, back_last y member]
      · intro y member ne
        simp [Doubly.link, back_ne y member, ne]
      · intro y is_first
        have := back_ne y (mem_of_head? is_first.symm)
        simp [Doubly.link, this, is_first]
  · cases front with
    | nil => simp [Doubly.link]
    | cons y ys => simp [Doubly.link, holds.first, getLast?_eq_none_iff]
  · cases back with
    | nil => simp [Doubly.link]
    | cons y ys => simp [Doubly.link, holds.last, getLast?_append, getLast?_cons_cons]

theorem Holds.unlink {back : List α} (holds : Holds d (front ++ x :: back)) :
    Holds (d.unlink front.getLast? x back.head?) (front ++ back) := by
  have nodup := holds.nodup
  have seg := (seg_append front (x :: back)).1 holds.seg
  rw [nodup_append, nodup_cons] at nodup
  obtain ⟨front_nodup, ⟨fresh, back_nodup⟩, apart⟩ := nodup
  obtain ⟨front_seg, -, -, back_seg⟩ := seg
  have front_ne : ∀ y ∈ front, y ≠ x := fun y member => apart y member x mem_cons_self
  have back_ne : ∀ y ∈ back, y ≠ x := fun y member same => fresh (same ▸ member)
  have apart' : ∀ y ∈ front, ∀ z ∈ back, y ≠ z := fun y member z behind =>
    apart y member z (mem_cons_of_mem _ behind)
  obtain ⟨front_head, back_last⟩ := ends_apart apart'
  refine ⟨?_, ?_, ?_, ?_⟩
  · rw [nodup_append]
    exact ⟨front_nodup, back_nodup, apart'⟩
  · rw [seg_append]
    simp only [Option.or_none]
    refine ⟨?_, ?_⟩
    · refine seg_retarget front_nodup ?_ ?_ ?_ front_seg
      · intro y member
        simp [Doubly.unlink, front_ne y member, front_head y member]
      · intro y member ne
        simp [Doubly.unlink, front_ne y member, ne]
      · intro y is_last
        have := front_ne y (mem_of_getLast? is_last.symm)
        simp [Doubly.unlink, this, is_last]
    · refine seg_rebase back_nodup ?_ ?_ ?_ back_seg
      · intro y member
        simp [Doubly.unlink, back_ne y member, back_last y member]
      · intro y member ne
        simp [Doubly.unlink, back_ne y member, ne]
      · intro y is_first
        have := back_ne y (mem_of_head? is_first.symm)
        simp [Doubly.unlink, this, is_first]
  · cases front with
    | nil => simp [Doubly.unlink]
    | cons y ys => simp [Doubly.unlink, holds.first, getLast?_eq_none_iff]
  · cases back with
    | nil => simp [Doubly.unlink]
    | cons y ys => simp [Doubly.unlink, holds.last, getLast?_append, getLast?_cons_cons]

end Changes

/-! ### Reading the links -/

theorem Holds.neighbours {back : List α} (holds : Holds d (front ++ x :: back)) :
    d.prev x = front.getLast? ∧ d.next x = back.head? := by
  have seg := (seg_append front (x :: back)).1 holds.seg
  obtain ⟨-, prev_eq, next_eq, -⟩ := seg
  exact ⟨by simpa using prev_eq, by simpa using next_eq⟩

/-- Follow the links as long as a test holds; there is no result when they end first. -/
def walk (d : Doubly α) (test : α → Bool) : ℕ → Option α → Option α
  | 0, _ => none
  | _ + 1, none => none
  | fuel + 1, some x => if test x then walk d test fuel (d.next x) else some x

theorem Holds.walk {back : List α} (holds : Holds d (front ++ back)) {test : α → Bool} {fuel : ℕ}
    (enough : back.length ≤ fuel) :
    d.walk test (fuel + 1) back.head? = (back.dropWhile test).head? := by
  induction back generalizing front fuel with
  | nil => cases fuel <;> rfl
  | cons x xs ih =>
    have next_eq := holds.neighbours.2
    simp only [head?_cons, Doubly.walk]
    by_cases passes : test x
    · rw [if_pos passes, dropWhile_cons_of_pos passes, next_eq]
      obtain ⟨fuel', rfl⟩ : ∃ fuel', fuel = fuel' + 1 :=
        ⟨fuel - 1, by simp only [length_cons] at enough; omega⟩
      have holds' : Holds d ((front ++ [x]) ++ xs) := by simpa using holds
      exact ih holds' (by simpa using enough)
    · rw [if_neg passes, dropWhile_cons_of_neg passes]
      rfl

/-- The cells along the links. -/
def toList (d : Doubly α) : ℕ → Option α → List α
  | 0, _ => []
  | _ + 1, none => []
  | fuel + 1, some x => x :: toList d fuel (d.next x)

theorem Holds.toList_from {back : List α} (holds : Holds d (front ++ back)) {fuel : ℕ}
    (enough : back.length ≤ fuel) : d.toList fuel back.head? = back := by
  induction back generalizing front fuel with
  | nil => cases fuel <;> rfl
  | cons x xs ih =>
    obtain ⟨fuel', rfl⟩ : ∃ fuel', fuel = fuel' + 1 :=
      ⟨fuel - 1, by simp only [length_cons] at enough; omega⟩
    have holds' : Holds d ((front ++ [x]) ++ xs) := by simpa using holds
    simp only [head?_cons, Doubly.toList]
    rw [holds.neighbours.2, ih holds' (by simpa using enough)]

theorem Holds.toList (holds : Holds d cells) {fuel : ℕ} (enough : cells.length ≤ fuel) :
    d.toList fuel d.first = cells := by
  rw [holds.first]
  exact @Holds.toList_from α d [] cells holds fuel enough

end Doubly

end Sol25
