import Mathlib.Algebra.Order.Ring.Int
import Mathlib.Data.List.Basic
import Mathlib.Data.List.Pairwise

/-!
# Gaps between intervals

Half-open intervals that lie one behind the other within two bounds.  What lies between two of them,
or between one of them and a bound, is a gap; the gaps that are not empty are the largest intervals
that meet none of them.
-/

namespace Sol25

open List

variable {α : Type*} [LinearOrder α]

/-- Intervals that are not empty, one behind the other, from a bound to another one. -/
def Laid : α → List (α × α) → α → Prop
  | bot, [], top => bot ≤ top
  | bot, (start, stop) :: l, top => bot ≤ start ∧ start < stop ∧ Laid stop l top

/-- What lies between the intervals, from the first bound to the last. -/
def gaps : α → List (α × α) → α → List (α × α)
  | bot, [], top => [(bot, top)]
  | bot, (start, stop) :: l, top => (bot, start) :: gaps stop l top

/-- An interval meets none of some others. -/
def Clear (l : List (α × α)) (lo hi : α) : Prop :=
  ∀ a ∈ l, ∀ x, lo ≤ x → x < hi → ¬ (a.1 ≤ x ∧ x < a.2)

/-- A largest interval that meets none of the others. -/
structure IsGap (bot : α) (l : List (α × α)) (top lo hi : α) : Prop where
  lt : lo < hi
  bot_le : bot ≤ lo
  le_top : hi ≤ top
  clear : Clear l lo hi
  largest : ∀ lo' hi', bot ≤ lo' → lo' ≤ lo → hi ≤ hi' → hi' ≤ top → Clear l lo' hi' →
    lo' = lo ∧ hi' = hi

variable {bot top lo hi start stop : α} {l : List (α × α)}

section

variable (laid : Laid bot l top)

include laid

theorem Laid.bot_le_top : bot ≤ top := by
  induction l generalizing bot with
  | nil => exact laid
  | cons a l ih =>
    obtain ⟨bot_le, lt, rest⟩ := laid
    exact bot_le.trans (lt.le.trans (ih rest))

theorem Laid.mem {a : α × α} (a_mem : a ∈ l) :
    bot ≤ a.1 ∧ a.1 < a.2 ∧ a.2 ≤ top := by
  induction l generalizing bot with
  | nil => exact nomatch a_mem
  | cons b l ih =>
    obtain ⟨bot_le, lt, rest⟩ := laid
    rcases mem_cons.1 a_mem with rfl | a_mem
    · exact ⟨bot_le, lt, rest.bot_le_top⟩
    · obtain ⟨le, inside⟩ := ih rest a_mem
      exact ⟨bot_le.trans (lt.le.trans le), inside⟩

/-- Every gap lies within the bounds. -/
theorem Laid.gaps_le {a : α × α} (a_mem : a ∈ gaps bot l top) :
    bot ≤ a.1 ∧ a.1 ≤ a.2 ∧ a.2 ≤ top := by
  induction l generalizing bot with
  | nil =>
    obtain rfl := mem_singleton.1 a_mem
    exact ⟨le_refl _, laid, le_refl _⟩
  | cons b l ih =>
    obtain ⟨bot_le, lt, rest⟩ := laid
    rcases mem_cons.1 a_mem with rfl | a_mem
    · exact ⟨le_refl _, bot_le, lt.le.trans rest.bot_le_top⟩
    · obtain ⟨le, inside⟩ := ih rest a_mem
      exact ⟨bot_le.trans (lt.le.trans le), inside⟩

/-- The gaps lie one behind the other. -/
theorem Laid.gaps_pairwise :
    (gaps bot l top).Pairwise fun a b => a.2 ≤ b.1 := by
  induction l generalizing bot with
  | nil => exact pairwise_singleton _ _
  | cons b l ih =>
    obtain ⟨-, lt, rest⟩ := laid
    refine pairwise_cons.2 ⟨fun a a_mem => ?_, ih rest⟩
    exact lt.le.trans (rest.gaps_le a_mem).1

/-- The gaps meet no interval. -/
theorem Laid.clear (mem : (lo, hi) ∈ gaps bot l top) : Clear l lo hi := by
  induction l generalizing bot with
  | nil => exact fun a a_mem => nomatch a_mem
  | cons b l ih =>
    obtain ⟨-, lt, rest⟩ := laid
    rintro a a_mem x lo_le lt_hi ⟨start_le, lt_stop⟩
    rcases mem_cons.1 mem with eq | mem
    · obtain ⟨rfl, rfl⟩ := Prod.mk.inj eq
      rcases mem_cons.1 a_mem with rfl | a_mem
      · exact absurd lt_hi (not_lt.2 start_le)
      · have behind := (rest.mem a_mem).1
        exact absurd lt_hi (not_lt.2 (lt.le.trans (behind.trans start_le)))
    · rcases mem_cons.1 a_mem with rfl | a_mem
      · have behind := (rest.gaps_le mem).1
        exact absurd lt_stop (not_lt.2 (behind.trans lo_le))
      · exact ih rest mem a a_mem x lo_le lt_hi ⟨start_le, lt_stop⟩

/-- An interval that meets none of the others lies within a gap. -/
theorem Laid.exists_gap (lt : lo < hi) (bot_le : bot ≤ lo) (le_top : hi ≤ top)
    (clear : Clear l lo hi) :
    ∃ a ∈ gaps bot l top, a.1 ≤ lo ∧ hi ≤ a.2 := by
  induction l generalizing bot with
  | nil => exact ⟨(bot, top), mem_singleton_self _, bot_le, le_top⟩
  | cons b l ih =>
    obtain ⟨start_ge, b_lt, rest⟩ := laid
    by_cases below : hi ≤ b.1
    · exact ⟨_, mem_cons_self, bot_le, below⟩
    · have above : b.2 ≤ lo := by
        by_contra inside
        have apart := clear b mem_cons_self (max lo b.1) (le_max_left ..)
          (max_lt lt (not_le.1 below))
        exact apart ⟨le_max_right .., max_lt (not_le.1 inside) b_lt⟩
      obtain ⟨a, a_mem, inside⟩ := ih rest above fun a a_mem => clear a (mem_cons_of_mem _ a_mem)
      exact ⟨a, mem_cons_of_mem _ a_mem, inside⟩

/-- Two gaps that share more than an end are the same. -/
theorem Laid.gap_eq {a b : α × α} (a_mem : a ∈ gaps bot l top) (b_mem : b ∈ gaps bot l top)
    (lt : lo < hi) (in_a : a.1 ≤ lo ∧ hi ≤ a.2) (in_b : b.1 ≤ lo ∧ hi ≤ b.2) : a = b := by
  by_contra ne
  have symmetric : Std.Symm fun a b : α × α => a.2 ≤ b.1 ∨ b.2 ≤ a.1 := ⟨fun _ _ => Or.symm⟩
  have pairwise : (gaps bot l top).Pairwise fun a b => a.2 ≤ b.1 ∨ b.2 ≤ a.1 :=
    laid.gaps_pairwise.imp Or.inl
  have apart := pairwise.forall a_mem b_mem ne
  rcases apart with before | after
  · exact absurd (lt.trans_le (in_a.2.trans (before.trans in_b.1))) (lt_irrefl _)
  · exact absurd (lt.trans_le (in_b.2.trans (after.trans in_a.1))) (lt_irrefl _)

/-- The largest intervals that meet none of the others are the gaps that are not empty. -/
theorem Laid.isGap_iff :
    IsGap bot l top lo hi ↔ (lo, hi) ∈ gaps bot l top ∧ lo < hi := by
  constructor
  · intro gap
    obtain ⟨a, a_mem, le_lo, hi_le⟩ := laid.exists_gap gap.lt gap.bot_le gap.le_top gap.clear
    obtain ⟨bot_le, -, le_top⟩ := laid.gaps_le a_mem
    obtain ⟨lo_eq, hi_eq⟩ := gap.largest a.1 a.2 bot_le le_lo hi_le le_top (laid.clear a_mem)
    rw [← lo_eq, ← hi_eq]
    exact ⟨a_mem, le_lo.trans_lt (gap.lt.trans_le hi_le)⟩
  · rintro ⟨mem, lt⟩
    obtain ⟨bot_le, -, le_top⟩ := laid.gaps_le mem
    refine ⟨lt, bot_le, le_top, laid.clear mem, fun lo' hi' bot_le' le_lo hi_le le_top' clear => ?_⟩
    obtain ⟨a, a_mem, a_le, le_a⟩ :=
      laid.exists_gap (le_lo.trans_lt (lt.trans_le hi_le)) bot_le' le_top' clear
    obtain rfl := laid.gap_eq a_mem mem lt ⟨a_le.trans le_lo, hi_le.trans le_a⟩
      ⟨le_refl _, le_refl _⟩
    exact ⟨le_antisymm le_lo a_le, le_antisymm le_a hi_le⟩

end

omit [LinearOrder α] in
theorem gaps_append (m : List (α × α)) :
    gaps bot (l ++ (start, stop) :: m) top = gaps bot l start ++ gaps stop m top := by
  induction l generalizing bot with
  | nil => rfl
  | cons b l ih => exact congrArg ((bot, b.1) :: ·) ih

end Sol25
