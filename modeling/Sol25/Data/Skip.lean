import Mathlib.Algebra.Order.Ring.Int
import Mathlib.Data.List.Induction
import Mathlib.Data.List.Nodup

/-!
# Skip lists

Cells of different levels in one order.  On each level a cell leads to the next one that reaches the
level.  A place is a cell, or the head in front of all of them, which reaches every level.
-/

namespace Sol25

open Function List Option

/-- The levels of some cells, and where each place leads on each level. -/
structure Skips (α : Type*) where
  level : α → ℕ
  next : ℕ → Option α → Option α

namespace Skips

variable {α : Type*} {d : Skips α} {i : ℕ} {front back mid : List α} {x : α}

/-- The first cell of a list that reaches a level. -/
def ahead (d : Skips α) (i : ℕ) (l : List α) : Option α := (l.filter fun a => i ≤ d.level a).head?

/-- The last cell of a list that reaches a level, or the head. -/
def behind (d : Skips α) (i : ℕ) (l : List α) : Option α :=
  (l.filter fun a => i ≤ d.level a).getLast?

def Reaches (d : Skips α) (i : ℕ) (place : Option α) : Prop := ∀ a, place = some a → i ≤ d.level a

/-- The cells of a list, in its order. -/
def Holds (d : Skips α) (l : List α) : Prop :=
  ∀ front back, l = front ++ back → ∀ i, d.Reaches i front.getLast? →
    d.next i front.getLast? = d.ahead i back

theorem ahead_append : d.ahead i (front ++ back) = (d.ahead i front).or (d.ahead i back) := by
  rw [ahead, filter_append, head?_append]
  rfl

theorem behind_append : d.behind i (front ++ back) = (d.behind i back).or (d.behind i front) := by
  rw [behind, filter_append, getLast?_append]
  rfl

theorem ahead_eq_none : d.ahead i front = none ↔ ∀ a ∈ front, ¬ i ≤ d.level a := by
  simp only [ahead, head?_eq_none_iff, filter_eq_nil_iff, decide_eq_true_eq]

theorem behind_eq_none : d.behind i front = none ↔ ∀ a ∈ front, ¬ i ≤ d.level a := by
  simp only [behind, getLast?_eq_none_iff, filter_eq_nil_iff, decide_eq_true_eq]

theorem mem_of_behind (is_behind : d.behind i front = some x) : x ∈ front ∧ i ≤ d.level x := by
  have mem := mem_of_getLast? is_behind
  simpa only [mem_filter, decide_eq_true_eq] using mem

theorem reaches_behind : d.Reaches i (d.behind i front) :=
  fun _ is_behind => (mem_of_behind is_behind).2

theorem reaches_none : d.Reaches i none := fun _ impossible => nomatch impossible

theorem Reaches.mono {j : ℕ} {place : Option α} (reaches : d.Reaches i place) (le : j ≤ i) :
    d.Reaches j place := fun a is_place => Nat.le_trans le (reaches a is_place)

/-- The last place, when it reaches the level. -/
theorem behind_eq_getLast? (reaches : d.Reaches i front.getLast?) :
    d.behind i front = front.getLast? := by
  rcases eq_nil_or_concat front with rfl | ⟨rest, x, rfl⟩
  · rfl
  · have high : i ≤ d.level x := reaches x (by simp)
    simp [behind, filter_append, high]

/-- A list splits behind the last place that reaches a level. -/
theorem exists_split (d : Skips α) (i : ℕ) (l : List α) :
    ∃ front back, l = front ++ back ∧ front.getLast? = d.behind i l ∧ ∀ a ∈ back,
      ¬ i ≤ d.level a := by
  induction l using List.reverseRecOn with
  | nil => exact ⟨[], [], rfl, rfl, fun a mem => nomatch mem⟩
  | append_singleton l x ih =>
    by_cases high : i ≤ d.level x
    · exact ⟨l ++ [x], [], by simp, by simp [behind, filter_append, high], fun a mem => nomatch mem⟩
    · obtain ⟨front, back, rfl, last, low⟩ := ih
      refine ⟨front, back ++ [x], by simp, ?_, ?_⟩
      · rw [last]
        simp [behind, filter_append, high]
      · intro a mem
        rcases mem_append.1 mem with mem | mem
        · exact low a mem
        · rw [mem_singleton.1 mem]
          exact high

/-- Where the last place that reaches a level leads. -/
theorem Holds.next_behind (holds : d.Holds (front ++ back)) (i : ℕ) :
    d.next i (d.behind i front) = d.ahead i back := by
  obtain ⟨first, rest, rfl, last, low⟩ := d.exists_split i front
  have reaches : d.Reaches i first.getLast? := by
    rw [last]
    exact reaches_behind
  have leads := holds first (rest ++ back) (append_assoc _ _ _) i reaches
  rw [last] at leads
  rw [leads, ahead_append, ahead_eq_none.2 low, none_or]

/-- A place in front of the last one that reaches a level is not it. -/
theorem getLast?_ne_behind (nodup : (front ++ mid).Nodup) (high : d.behind i mid ≠ none) :
    front.getLast? ≠ d.behind i (front ++ mid) := by
  obtain ⟨a, is_behind⟩ := ne_none_iff_exists'.1 high
  rw [behind_append, is_behind, some_or]
  intro same
  exact (nodup_append.1 nodup).2.2 a (mem_of_getLast? same) a
    (mem_of_behind is_behind).1 rfl

theorem behind_eq_none_iff : d.behind i mid = none ↔ d.ahead i mid = none := by
  rw [ahead_eq_none, behind_eq_none]

section Changes

variable [DecidableEq α]

/-- Put a cell behind the last places of a list that reach the levels. -/
def insert (d : Skips α) (front : List α) (x : α) (level : ℕ) : Skips α where
  level := update d.level x level
  next := fun i place =>
    if i ≤ level then
      if place = some x then d.next i (d.behind i front)
      else if place = d.behind i front then some x
      else d.next i place
    else d.next i place

/-- Take the cell behind a list out. -/
def erase (d : Skips α) (front : List α) (x : α) : Skips α where
  level := d.level
  next := fun i place =>
    if i ≤ d.level x ∧ place = d.behind i front then d.next i (some x) else d.next i place

theorem insert_ahead {level : ℕ} (outside : x ∉ mid) :
    (d.insert front x level).ahead i mid = d.ahead i mid := by
  rw [ahead, ahead]
  congr 1
  refine filter_congr fun a mem => ?_
  have distinct : a ≠ x := fun same => outside (same ▸ mem)
  simp only [insert, update_of_ne distinct]

theorem insert_reaches {level : ℕ} {place : Option α} (outside : place ≠ some x) :
    (d.insert front x level).Reaches i place ↔ d.Reaches i place := by
  refine forall_congr' fun a => forall_congr' fun is_place => ?_
  have distinct : a ≠ x := fun same => outside (same ▸ is_place)
  simp only [insert, update_of_ne distinct]

theorem insert_ahead_cons {level : ℕ} (outside : x ∉ mid) :
    (d.insert front x level).ahead i (x :: mid) = if i ≤ level then some x else d.ahead i mid := by
  have rest : (d.insert front x level).ahead i mid = d.ahead i mid := insert_ahead outside
  rw [← rest, ahead, ahead]
  have level_eq : (d.insert front x level).level x = level := update_self _ _ _
  rw [filter_cons, level_eq]
  split_ifs with high high' high'
  · rfl
  · exact absurd (of_decide_eq_true high) high'
  · exact absurd (decide_eq_true high') high
  · rfl

/-- A place in front of the new cell. -/
theorem Holds.insert_front (holds : d.Holds (front ++ mid ++ back)) (nodup : (front ++ mid).Nodup)
    (x_front : x ∉ front ++ mid) (x_back : x ∉ back) {level : ℕ}
    (reaches : d.Reaches i front.getLast?) :
    (d.insert (front ++ mid) x level).next i front.getLast? =
      (d.insert (front ++ mid) x level).ahead i (mid ++ x :: back) := by
  have leads := holds front (mid ++ back) (append_assoc _ _ _) i reaches
  have not_x : front.getLast? ≠ some x := by
    intro same
    exact x_front (mem_append_left _ (mem_of_getLast? same))
  have x_mid : x ∉ mid := fun mem => x_front (mem_append_right _ mem)
  rw [ahead_append, insert_ahead x_mid, insert_ahead_cons x_back]
  by_cases low : d.ahead i mid = none
  · -- Nothing up to the new cell reaches the level, so the place leads to it if it does.
    have here : d.behind i (front ++ mid) = front.getLast? := by
      rw [behind_append, behind_eq_none_iff.2 low, none_or, behind_eq_getLast? reaches]
    rw [ahead_append, low, none_or] at leads
    simp only [insert, here, if_neg not_x, if_true, low, none_or]
    split_ifs
    · rfl
    · exact leads
  · obtain ⟨a, is_ahead⟩ := ne_none_iff_exists'.1 low
    have not_here := getLast?_ne_behind nodup (mt behind_eq_none_iff.1 low)
    rw [ahead_append, is_ahead, some_or] at leads
    simp only [insert, if_neg not_x, if_neg not_here, ite_self, is_ahead, some_or]
    exact leads

theorem Holds.insert (holds : d.Holds (front ++ back)) (nodup : (front ++ x :: back).Nodup)
    (level : ℕ) :
    (d.insert front x level).Holds (front ++ x :: back) := by
  obtain ⟨front_nodup, back_nodup, apart⟩ := nodup_append.1 nodup
  obtain ⟨x_back, -⟩ := nodup_cons.1 back_nodup
  have x_front : x ∉ front := fun mem => apart x mem x mem_cons_self rfl
  intro front' back' split i reaches
  rcases append_eq_append_iff.1 split with ⟨mid, rfl, rest⟩ | ⟨mid, rfl, rfl⟩
  · rcases mid with _ | ⟨y, mid⟩
    · obtain rfl : x :: back = back' := rest
      simp only [append_nil] at reaches ⊢
      have not_x : front.getLast? ≠ some x := fun same => x_front (mem_of_getLast? same)
      have := @Holds.insert_front α d i front back [] x _ (by simpa using holds)
        (by simpa using front_nodup)
        (by simpa using x_front) x_back level ((insert_reaches not_x).1 reaches)
      simpa using this
    · obtain ⟨rfl, back_eq⟩ : x = y ∧ back = mid ++ back' := by simpa using rest
      subst back_eq
      rcases eq_nil_or_concat' mid with rfl | ⟨mid, z, rfl⟩
      · -- The new cell leads where the places in front of it led.
        rw [getLast?_concat] at reaches ⊢
        have high : i ≤ level := by
          have reached : i ≤ update d.level x level x := reaches x rfl
          rwa [update_self] at reached
        rw [insert_ahead (by simpa using x_back)]
        simp only [insert, if_pos high, if_true]
        exact holds.next_behind i
      · have z_mem : z ∈ (mid ++ [z]) ++ back' := by simp
        have is_z : (front ++ x :: (mid ++ [z])).getLast? = some z := by
          rw [← cons_append, ← append_assoc, getLast?_concat]
        have is_z' : (front ++ (mid ++ [z])).getLast? = some z := by simp
        have not_x : some z ≠ some x := by
          rintro ⟨⟩
          exact x_back z_mem
        have not_behind : some z ≠ d.behind i front := by
          intro same
          exact apart z (mem_of_behind same.symm).1 z (mem_cons_of_mem _ z_mem) rfl
        rw [is_z] at reaches ⊢
        rw [insert_reaches not_x] at reaches
        have leads := holds (front ++ (mid ++ [z])) back' (by simp) i (by rwa [is_z'])
        rw [insert_ahead fun mem => x_back (mem_append_right _ mem), ← leads, is_z']
        simp only [insert, if_neg not_x, if_neg not_behind, ite_self]
  · have not_x : front'.getLast? ≠ some x :=
      fun same => x_front (mem_append_left _ (mem_of_getLast? same))
    exact holds.insert_front front_nodup x_front x_back ((insert_reaches not_x).1 reaches)

theorem Holds.erase (holds : d.Holds (front ++ x :: back)) (nodup : (front ++ x :: back).Nodup) :
    (d.erase front x).Holds (front ++ back) := by
  obtain ⟨front_nodup, back_nodup, apart⟩ := nodup_append.1 nodup
  have x_leads : ∀ i ≤ d.level x, d.next i (some x) = d.ahead i back := by
    intro i high
    have leads := holds (front ++ [x]) back (by simp) i
    rw [getLast?_concat] at leads
    refine leads ?_
    rintro a ⟨⟩
    exact high
  intro front' back' split i (reaches : d.Reaches i front'.getLast?)
  change (if i ≤ d.level x ∧ front'.getLast? = d.behind i front then d.next i (some x)
    else d.next i front'.getLast?) = d.ahead i back'
  rcases append_eq_append_iff.1 split with ⟨mid, rfl, rfl⟩ | ⟨mid, rfl, rfl⟩
  · rcases eq_nil_or_concat' mid with rfl | ⟨mid, z, rfl⟩
    · simp only [append_nil, nil_append] at reaches holds x_leads ⊢
      rw [behind_eq_getLast? reaches]
      by_cases high : i ≤ d.level x
      · rw [if_pos ⟨high, rfl⟩, x_leads i high]
      · rw [if_neg (fun both => high both.1), holds front _ rfl i reaches]
        simp [ahead, high]
    · have z_mem : z ∈ x :: ((mid ++ [z]) ++ back') := by simp
      have is_z : (front ++ (mid ++ [z])).getLast? = some z := by simp
      have is_z' : (front ++ x :: (mid ++ [z])).getLast? = some z := by
        rw [← cons_append, ← append_assoc, getLast?_concat]
      have not_behind : some z ≠ d.behind i front := by
        intro same
        exact apart z (mem_of_behind same.symm).1 z z_mem rfl
      rw [is_z] at reaches ⊢
      rw [if_neg (fun both => not_behind both.2), ← is_z']
      exact holds (front ++ x :: (mid ++ [z])) back' (by simp) i (by rwa [is_z'])
  · have leads := holds front' (mid ++ x :: back) (by simp) i reaches
    rw [leads, ahead_append, ahead_append]
    by_cases low : d.ahead i mid = none
    · have here : d.behind i (front' ++ mid) = front'.getLast? := by
        rw [behind_append, behind_eq_none_iff.2 low, none_or, behind_eq_getLast? reaches]
      rw [here, low, none_or, none_or]
      by_cases high : i ≤ d.level x
      · rw [if_pos ⟨high, rfl⟩, x_leads i high]
      · rw [if_neg (fun both => high both.1)]
        simp [ahead, high]
    · obtain ⟨a, is_ahead⟩ := ne_none_iff_exists'.1 low
      have not_here := getLast?_ne_behind front_nodup (mt behind_eq_none_iff.1 low)
      rw [if_neg (fun both => not_here both.2), is_ahead, some_or, some_or]

end Changes

end Skips

end Sol25
