import Mathlib.Algebra.Order.Ring.Int
import Mathlib.Data.List.Pairwise
import Mathlib.Data.List.TakeWhile

/-!
# Descending lists

Lists in which a rank never rises.  A threshold on the rank cuts such a list in two, and the
elements of one rank stand together.
-/

namespace Sol25

open List

variable {α : Type*}

/-- The rank never rises along the list. -/
def Descending (rank : α → ℕ) (cells : List α) : Prop := cells.Pairwise fun x y => rank y ≤ rank x

/-- A test that holds of everything in front of what passes it. -/
def Threshold (cells : List α) (test : α → Bool) : Prop :=
  cells.Pairwise fun x y => test y = true → test x = true

namespace Descending

variable {rank : α → ℕ} {cells front back : List α}

theorem threshold_le (sorted : Descending rank cells) (bound : ℕ) :
    Threshold cells fun x => decide (bound ≤ rank x) := by
  refine Pairwise.imp ?_ sorted
  intro x y falls reaches
  simp only [decide_eq_true_eq] at reaches ⊢
  omega

theorem threshold_lt (sorted : Descending rank cells) (bound : ℕ) :
    Threshold cells fun x => decide (bound < rank x) := sorted.threshold_le (bound + 1)

theorem last_le (sorted : Descending rank cells) {last : α} (is_last : cells.getLast? = some last) :
    ∀ x ∈ cells, rank last ≤ rank x := by
  intro x member
  obtain ⟨front, rfl⟩ := getLast?_eq_some_iff.1 is_last
  rcases mem_append.1 member with front_mem | last_mem
  · exact (pairwise_append.1 sorted).2.2 x front_mem last (mem_singleton.2 rfl)
  · rw [mem_singleton.1 last_mem]

theorem le_first (sorted : Descending rank cells) {first : α}
    (is_first : cells.head? = some first) : ∀ x ∈ cells, rank x ≤ rank first := by
  intro x member
  obtain ⟨back, rfl⟩ := head?_eq_some_iff.1 is_first
  rcases mem_cons.1 member with rfl | back_mem
  · exact le_refl _
  · exact rel_of_pairwise_cons sorted back_mem

theorem insert (sorted : Descending rank (front ++ back)) {x : α}
    (above : ∀ y ∈ front, rank x ≤ rank y) (below : ∀ y ∈ back, rank y ≤ rank x) :
    Descending rank (front ++ x :: back) := by
  obtain ⟨front_sorted, back_sorted, apart⟩ := pairwise_append.1 sorted
  refine pairwise_append.2 ⟨front_sorted, pairwise_cons.2 ⟨below, back_sorted⟩, ?_⟩
  intro y front_mem z back_mem
  rcases mem_cons.1 back_mem with rfl | back_mem
  · exact above y front_mem
  · exact apart y front_mem z back_mem

/-- Below a bound, the elements that reach it stand at the front. -/
theorem head_filter (sorted : Descending rank cells) {bound : ℕ}
    (below : ∀ x ∈ cells, rank x ≤ bound) :
    (cells.filter fun x => decide (rank x = bound)).head? =
      cells.head?.filter fun x => decide (rank x = bound) := by
  cases cells with
  | nil => rfl
  | cons x xs =>
    by_cases reaches : rank x = bound
    · simp [reaches, Option.filter]
    · have under : rank x < bound := by
        have := below x mem_cons_self
        omega
      have none_left : xs.filter (fun y => decide (rank y = bound)) = [] := by
        rw [filter_eq_nil_iff]
        intro y member
        have := rel_of_pairwise_cons sorted member
        simp only [decide_eq_true_eq]
        omega
      simp [reaches, Option.filter, none_left]

/-- Above a bound, the elements that are not over it stand at the end. -/
theorem last_filter (sorted : Descending rank cells) {bound : ℕ}
    (above : ∀ x ∈ cells, bound ≤ rank x) :
    (cells.filter fun x => decide (rank x = bound)).getLast? =
      cells.getLast?.filter fun x => decide (rank x = bound) := by
  cases is_last : cells.getLast? with
  | none =>
    rw [getLast?_eq_none_iff] at is_last
    subst is_last
    rfl
  | some last =>
    obtain ⟨front, rfl⟩ := getLast?_eq_some_iff.1 is_last
    by_cases reaches : rank last = bound
    · simp only [filter_append, filter_cons, reaches, filter_nil, decide_true,
        if_true, getLast?_append, getLast?_singleton, Option.some_or, Option.filter]
    · have higher : bound < rank last := by
        have := above last (by simp)
        omega
      have none_left : front.filter (fun y => decide (rank y = bound)) = [] := by
        rw [filter_eq_nil_iff]
        intro y member
        have := sorted.last_le is_last y (mem_append_left _ member)
        simp only [decide_eq_true_eq]
        omega
      simp [reaches, Option.filter, none_left]

/-- The elements of one rank stand together. -/
theorem split_at (sorted : Descending rank cells) (bound : ℕ) : ∃ front back,
    cells = front ++ (cells.filter fun x => decide (rank x = bound)) ++ back ∧
      (∀ x ∈ front, bound < rank x) ∧ ∀ x ∈ back, rank x < bound := by
  induction cells with
  | nil => exact ⟨[], [], rfl, by simp, by simp⟩
  | cons x xs ih =>
    have tail := pairwise_cons.1 sorted
    rcases lt_trichotomy (rank x) bound with under | here | higher
    · have none_left : (x :: xs).filter (fun y => decide (rank y = bound)) = [] := by
        rw [filter_eq_nil_iff]
        intro y member
        have := sorted.le_first rfl y member
        simp only [decide_eq_true_eq]
        omega
      refine ⟨[], x :: xs, by rw [none_left]; rfl, by simp, ?_⟩
      intro y member
      have := sorted.le_first rfl y member
      omega
    · obtain ⟨front, back, parts, front_over, back_under⟩ := ih tail.2
      have front_nil : front = [] := by
        rw [eq_nil_iff_forall_not_mem]
        intro y member
        have in_tail : y ∈ xs := by
          rw [parts]
          simp [member]
        have := front_over y member
        have := tail.1 y in_tail
        omega
      subst front_nil
      refine ⟨[], back, ?_, by simp, back_under⟩
      rw [filter_cons_of_pos (by simpa using here)]
      simpa using parts
    · obtain ⟨front, back, parts, front_over, back_under⟩ := ih tail.2
      refine ⟨x :: front, back, ?_, ?_, back_under⟩
      · rw [filter_cons_of_neg (by simp only [decide_eq_true_eq]; omega)]
        simpa using parts
      · intro y member
        rcases mem_cons.1 member with rfl | later
        · exact higher
        · exact front_over y later

end Descending

namespace Threshold

variable {cells : List α} {test : α → Bool}

theorem of_mem_dropWhile (threshold : Threshold cells test) :
    ∀ x ∈ cells.dropWhile test, test x = false := by
  induction cells with
  | nil => intro x member; exact absurd member not_mem_nil
  | cons y ys ih =>
    have tail := pairwise_cons.1 threshold
    intro x member
    by_cases passes : test y = true
    · rw [dropWhile_cons_of_pos passes] at member
      exact ih tail.2 x member
    · rw [dropWhile_cons_of_neg passes] at member
      rcases mem_cons.1 member with rfl | later
      · simpa using passes
      · by_contra reaches
        exact passes (tail.1 x later (by simpa using reaches))

/-- When the last element passes, all do. -/
theorem all_of_last (threshold : Threshold cells test) {last : α}
    (is_last : cells.getLast? = some last) (passes : test last = true) :
    ∀ x ∈ cells, test x = true := by
  intro x member
  obtain ⟨front, rfl⟩ := getLast?_eq_some_iff.1 is_last
  rcases mem_append.1 member with front_mem | last_mem
  · exact (pairwise_append.1 threshold).2.2 x front_mem last (mem_singleton.2 rfl) passes
  · rwa [mem_singleton.1 last_mem]

theorem dropWhile_ne_nil {last : α} (is_last : cells.getLast? = some last)
    (fails : test last = false) : cells.dropWhile test ≠ [] := by
  rw [Ne, dropWhile_eq_nil_iff]
  intro all
  rw [all last (mem_of_getLast? is_last)] at fails
  exact Bool.noConfusion fails

end Threshold

theorem dropWhile_congr {cells : List α} {test test' : α → Bool}
    (same : ∀ x ∈ cells, test' x = test x) : cells.dropWhile test' = cells.dropWhile test := by
  induction cells with
  | nil => rfl
  | cons x xs ih =>
    rw [dropWhile_cons, dropWhile_cons, same x mem_cons_self,
      ih fun y member => same y (mem_cons_of_mem _ member)]

/-- Two searches in a row, the first for a stronger test. -/
theorem dropWhile_dropWhile {cells : List α} {first second test : α → Bool}
    (weaker : ∀ x ∈ cells, first x = true → test x = true)
    (same : ∀ x ∈ cells.dropWhile first, second x = test x) :
    (cells.dropWhile first).dropWhile second = cells.dropWhile test := by
  induction cells with
  | nil => rfl
  | cons x xs ih =>
    by_cases passes : first x = true
    · rw [dropWhile_cons_of_pos passes] at same ⊢
      rw [dropWhile_cons_of_pos (weaker x mem_cons_self passes)]
      exact ih (fun y member => weaker y (mem_cons_of_mem _ member)) same
    · rw [dropWhile_cons_of_neg passes] at same ⊢
      exact dropWhile_congr same

end Sol25
