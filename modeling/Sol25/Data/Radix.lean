import Mathlib.Algebra.Order.BigOperators.Group.Finset
import Mathlib.Algebra.Order.Floor.Div
import Mathlib.Algebra.BigOperators.Ring.Finset
import Mathlib.Tactic.Ring

/-!
# Trees of one arity

A node of height `k + 1` has `n` children of height `k`, of which some are null.  The leaves below a
node are counted by the digits to base `n` along the path.  A tree in which no node is there in vain
has as many nodes as a full one exactly if no leaf is missing.
-/

namespace Sol25.Radix

open Finset Nat

variable {α : Type*} [DecidableEq α] {null : α} {child : α → ℕ → α} {n k m : ℕ} {p : α}

def leaf (null : α) (child : α → ℕ → α) (n : ℕ) : ℕ → α → ℕ → α
  | 0, p, _ => p
  | k + 1, p, i => if p = null then null else leaf null child n k (child p (i / n ^ k % n)) i

def nodes (null : α) (child : α → ℕ → α) (n : ℕ) : ℕ → α → ℕ
  | 0, p => if p = null then 0 else 1
  | k + 1, p => if p = null then 0 else 1 + ∑ i ∈ range n, nodes null child n k (child p i)

/-- Every node is above one of the first `m` leaves. -/
def Within (null : α) (child : α → ℕ → α) (n : ℕ) : ℕ → α → ℕ → Prop
  | 0, p, m => p ≠ null → 0 < m
  | k + 1, p, m => p ≠ null → 0 < m ∧ ∀ i < n, Within null child n k (child p i) (m - i * n ^ k)

/-- How many nodes a tree has if its first `m` leaves are all there. -/
def full (n k m : ℕ) : ℕ := ∑ j ∈ range (k + 1), m ⌈/⌉ n ^ j

/-! ### Full trees -/

theorem full_zero_right (n k : ℕ) : full n k 0 = 0 := by simp [full]

theorem full_zero (n m : ℕ) : full n 0 m = m := by simp [full]

/-- A quotient that is rounded up is the sum of those of the parts. -/
theorem ceilDiv_split {a b : ℕ} (divides : b ∣ a) (positive : 0 < b) (m N : ℕ) :
    ∑ i ∈ range N, min (m - i * a) a ⌈/⌉ b = min m (N * a) ⌈/⌉ b := by
  induction N with
  | zero => simp
  | succ N ih =>
    obtain ⟨c, rfl⟩ := divides
    rw [sum_range_succ, ih, ceilDiv_eq_add_pred_div, ceilDiv_eq_add_pred_div,
      ceilDiv_eq_add_pred_div]
    rcases le_total m (N * (b * c)) with small | large
    · have none_left : m - N * (b * c) = 0 := by omega
      have same : min m ((N + 1) * (b * c)) = m := by
        rw [Nat.add_mul]
        omega
      rw [none_left, min_eq_left small, same, Nat.zero_min, Nat.zero_add,
        div_eq_of_lt (sub_lt positive Nat.one_pos), Nat.add_zero]
    · have whole : min m ((N + 1) * (b * c)) = b * (N * c) + min (m - N * (b * c)) (b * c) := by
        rw [Nat.add_mul, Nat.mul_left_comm b]
        omega
      rw [min_eq_right large, whole]
      have left : (N * (b * c) + b - 1) / b = N * c := by
        rw [Nat.mul_left_comm, Nat.add_sub_assoc positive, mul_add_div positive,
          div_eq_of_lt (sub_lt positive Nat.one_pos), Nat.add_zero]
      rw [left, Nat.add_sub_assoc positive, Nat.add_sub_assoc positive, Nat.add_assoc,
        mul_add_div positive]

/-- A full tree is a root with full trees below. -/
theorem full_succ (positive : 0 < n) (m : ℕ) :
    full n (k + 1) (min m (n ^ (k + 1))) = min m (n ^ (k + 1)) ⌈/⌉ n ^ (k + 1) + ∑ i ∈ range n,
        full n k (min (m - i * n ^ k) (n ^ k)) := by
  have parts : ∑ i ∈ range n, full n k (min (m - i * n ^ k) (n ^ k)) =
      ∑ j ∈ range (k + 1), min m (n ^ (k + 1)) ⌈/⌉ n ^ j := by
    rw [show (∑ i ∈ range n, full n k (min (m - i * n ^ k) (n ^ k))) =
      ∑ i ∈ range n, ∑ j ∈ range (k + 1), min (m - i * n ^ k) (n ^ k) ⌈/⌉ n ^ j from rfl, sum_comm]
    refine sum_congr rfl fun j member => ?_
    have divides : n ^ j ∣ n ^ k := Nat.pow_dvd_pow n (le_of_lt_succ (mem_range.1 member))
    rw [ceilDiv_split divides (Nat.pow_pos positive), pow_succ, Nat.mul_comm n]
  rw [parts, full, sum_range_succ, Nat.add_comm]

/-- A root is there if there are leaves. -/
theorem root_ceilDiv (positive : 0 < n) (some_leaf : 0 < m) (k : ℕ) :
    min m (n ^ k) ⌈/⌉ n ^ k = 1 := by
  have power : 0 < n ^ k := Nat.pow_pos positive
  rw [ceilDiv_eq_add_pred_div, Nat.div_eq_iff power]
  omega

/-! ### Counting nodes -/

/-- Only the lower digits matter below a node. -/
theorem leaf_mul_add (positive : 0 < n) (k : ℕ) (p : α) (a r : ℕ) :
    leaf null child n k p (a * n ^ k + r) = leaf null child n k p r := by
  induction k generalizing p a with
  | zero => rfl
  | succ k ih =>
    have power : 0 < n ^ k := Nat.pow_pos positive
    have digit : (a * n ^ (k + 1) + r) / n ^ k % n = r / n ^ k % n := by
      rw [pow_succ, Nat.mul_comm (n ^ k), ← Nat.mul_assoc, Nat.add_comm,
        add_mul_div_right _ _ power, add_mul_mod_self_right]
    have lower : a * n ^ (k + 1) + r = a * n * n ^ k + r := by ring
    rw [leaf, leaf, digit, lower, ih]

/-- All of the first leaves are there. -/
def Filled (null : α) (child : α → ℕ → α) (n k : ℕ) (p : α) (m : ℕ) : Prop :=
  ∀ i < min m (n ^ k), leaf null child n k p i ≠ null

theorem filled_succ (positive : 0 < n) (present : p ≠ null) :
    Filled null child n (k + 1) p m ↔
      ∀ i < n, Filled null child n k (child p i) (m - i * n ^ k) := by
  have power : 0 < n ^ k := Nat.pow_pos positive
  constructor
  · intro filled i small r below
    have index : i * n ^ k + r < min m (n ^ (k + 1)) := by
      have upper : (i + 1) * n ^ k ≤ n * n ^ k := mul_le_mul_right _ small
      rw [pow_succ, Nat.mul_comm (n ^ k)]
      rw [Nat.add_mul] at upper
      omega
    have there := filled _ index
    have digit : (i * n ^ k + r) / n ^ k % n = i := by
      rw [Nat.add_comm, add_mul_div_right _ _ power, div_eq_of_lt (by omega), Nat.zero_add,
        mod_eq_of_lt small]
    rw [leaf, if_neg present, digit, leaf_mul_add positive] at there
    exact there
  · intro filled index below
    have small : index / n ^ k < n := by
      rw [div_lt_iff_lt_mul power, Nat.mul_comm, ← pow_succ]
      omega
    have split : index / n ^ k * n ^ k + index % n ^ k = index := div_add_mod' index (n ^ k)
    have lower : index % n ^ k < min (m - index / n ^ k * n ^ k) (n ^ k) := by
      have := mod_lt index power
      omega
    have there := filled _ small _ lower
    rw [leaf, if_neg present, mod_eq_of_lt small, ← split, leaf_mul_add positive, split]
    exact there

/-- A tree has as many nodes as a full one exactly if no leaf is missing, and never more. -/
theorem nodes_spec (positive : 0 < n) (within : Within null child n k p m) :
    nodes null child n k p ≤ full n k (min m (n ^ k)) ∧
      (nodes null child n k p = full n k (min m (n ^ k)) ↔ Filled null child n k p m) := by
  induction k generalizing p m with
  | zero =>
    rw [full_zero, pow_zero, nodes]
    by_cases missing : p = null
    · rw [if_pos missing]
      refine ⟨zero_le _, fun same i below => absurd below (by omega), fun filled => ?_⟩
      by_contra differ
      exact filled 0 (by rw [pow_zero]; omega) missing
    · rw [if_neg missing]
      have := within missing
      exact ⟨by omega, fun _ _ _ => missing, fun _ => by omega⟩
  | succ k ih =>
    rw [full_succ positive, nodes]
    by_cases missing : p = null
    · rw [if_pos missing]
      refine ⟨zero_le _, fun same i below => ?_, fun filled => ?_⟩
      · have some_leaf : 0 < m := by omega
        rw [root_ceilDiv positive some_leaf] at same
        omega
      · have no_leaf : m = 0 := by
          by_contra some_leaf
          have power : 0 < n ^ (k + 1) := Nat.pow_pos positive
          refine filled 0 (by omega) ?_
          rw [leaf, if_pos missing]
        subst no_leaf
        simp [full_zero_right]
    · rw [if_neg missing, filled_succ positive missing]
      obtain ⟨some_leaf, below⟩ := within missing
      rw [root_ceilDiv positive some_leaf]
      have each : ∀ i ∈ range n,
          nodes null child n k (child p i) ≤ full n k (min (m - i * n ^ k) (n ^ k)) :=
        fun i member => (ih (below i (mem_range.1 member))).1
      have same_iff := sum_eq_sum_iff_of_le each
      refine ⟨Nat.add_le_add_left (sum_le_sum each) 1, fun same i small => ?_, fun filled => ?_⟩
      · have sums := same_iff.1 (Nat.add_left_cancel same)
        exact (ih (below i small)).2.1 (sums i (mem_range.2 small))
      · rw [same_iff.2 fun i member => (ih (below i (mem_range.1 member))).2.2
          (filled i (mem_range.1 member))]

end Sol25.Radix
