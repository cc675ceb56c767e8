import Sol25.Libmp.Quotient
import Mathlib.Algebra.BigOperators.Intervals
import Mathlib.Algebra.BigOperators.Ring.Finset
import Mathlib.Data.List.GetD

/-!
# Exact arithmetic

The integer that a `MINT` stands for, and the operations on variables that may be named more than
once.
-/

namespace Sol25.Libmp

open Digits Function List Option Int

variable {junk : ℤ} {a b c : Mint} {n : ℕ} {x y : ℤ} {v : List ℤ} {s : Store}

/-- The integer that a `MINT` stands for. -/
def Mint.toInt (a : Mint) : ℤ :=
  a.len.sign * ∑ i ∈ Finset.range a.len.natAbs, a.val.getD i 0 * 2 ^ (15 * i)

/-- A `MINT` with digits of fifteen bits and without a leading zero. -/
structure Mint.Canonical (a : Mint) : Prop where
  inside : a.len.natAbs ≤ a.val.length
  digits : ∀ i < a.len.natAbs, 0 ≤ a.val.getD i 0 ∧ a.val.getD i 0 ≤ 32767
  top : a.len ≠ 0 → a.val.getD (a.len.natAbs - 1) 0 ≠ 0

theorem value_eq_sum (v : List ℤ) :
    value base v = ∑ i ∈ Finset.range v.length, v.getD i 0 * 2 ^ (15 * i) := by
  induction v with
  | nil => rfl
  | cons d v ih =>
    rw [value, length_cons, Finset.sum_range_succ', ih, Finset.mul_sum, getD_cons_zero,
      Nat.mul_zero, pow_zero, mul_one, add_comm]
    congr 1
    refine Finset.sum_congr rfl fun i _ => ?_
    rw [getD_cons_succ, Nat.mul_succ, pow_add, show base = 2 ^ 15 from rfl]
    ring

theorem Holds.sum_eq (holds : Holds n v x) :
    x = ∑ i ∈ Finset.range n, v.getD i 0 * 2 ^ (15 * i) := by
  obtain ⟨digits, rest, rfl, rfl, -, rfl⟩ := holds
  rw [value_eq_sum]
  refine Finset.sum_congr rfl fun i below => ?_
  rw [getD_append _ _ _ _ (Finset.mem_range.1 below)]

theorem Stands.toInt_eq (stands : Stands a x) : a.toInt = x := by
  obtain ⟨y, holds, -, rfl⟩ := stands
  rw [Mint.toInt, ← holds.sum_eq]

theorem Stands.canonical (stands : Stands a x) : a.Canonical := by
  obtain ⟨y, holds, full, -⟩ := stands
  refine ⟨?_, fun i below => ?_, fun nonzero zero => ?_⟩
  · obtain ⟨digits, rest, val_eq, length_eq, -⟩ := holds
    rw [val_eq, length_append]
    omega
  · obtain ⟨digits, rest, val_eq, length_eq, is_digits, -⟩ := holds
    have inside : i < digits.length := by omega
    rw [val_eq, getD_append _ _ _ _ inside, getD_eq_getElem _ _ inside]
    have digit := is_digits _ (getElem_mem inside)
    simp only [base] at digit
    omega
  · obtain ⟨k, k_eq⟩ : ∃ k, a.len.natAbs = k + 1 := ⟨a.len.natAbs - 1, by omega⟩
    rw [k_eq] at holds full zero
    obtain ⟨d, low, at_k, -, low_holds, y_eq⟩ := holds.succ
    rw [Nat.add_sub_cancel, getD_eq_getElem?_getD, at_k, getD_some] at zero
    rw [zero, mul_zero, add_zero] at y_eq
    have y_le := full (Nat.succ_ne_zero k)
    rw [Nat.add_sub_cancel] at y_le
    have low_lt := low_holds.lt
    omega

theorem Mint.Canonical.stands (canonical : a.Canonical) : Stands a a.toInt := by
  have length_eq : (a.val.take a.len.natAbs).length = a.len.natAbs := by
    rw [length_take, Nat.min_eq_left canonical.inside]
  have is_digits : IsDigits base (a.val.take a.len.natAbs) := by
    intro d mem
    obtain ⟨i, inside, rfl⟩ := getElem_of_mem mem
    have digit := canonical.digits i (by omega)
    have i_lt : i < a.val.length := by
      rw [length_take] at inside
      omega
    rw [getD_eq_getElem _ _ i_lt] at digit
    rw [getElem_take]
    simp only [base]
    omega
  have holds : Holds a.len.natAbs a.val (value base (a.val.take a.len.natAbs)) :=
    ⟨_, a.val.drop a.len.natAbs, (take_append_drop _ _).symm, length_eq, is_digits, rfl⟩
  refine ⟨_, holds, ?_, by rw [Mint.toInt, ← holds.sum_eq]⟩
  intro nonzero
  obtain ⟨k, k_eq⟩ : ∃ k, a.len.natAbs = k + 1 := ⟨a.len.natAbs - 1, by omega⟩
  have top := canonical.top (by omega)
  rw [k_eq, Nat.add_sub_cancel] at top ⊢
  rw [k_eq] at holds
  obtain ⟨d, low, at_k, digit, low_holds, value_eq⟩ := holds.succ
  rw [getD_eq_getElem?_getD, at_k, getD_some] at top
  have power : 0 ≤ base ^ k := pow_nonneg (by decide) k
  have scaled := mul_le_mul_of_nonneg_left (by omega : 1 ≤ d) power
  rw [value_eq]
  linarith [low_holds.nonneg]

/-! ### Comparisons -/

theorem Stands.sign_eq (stands : Stands a x) : a.len.sign = x.sign := by
  by_cases zero : a.len = 0
  · obtain ⟨y, -, -, rfl⟩ := stands
    rw [zero, sign_zero, zero_mul, sign_zero]
  · obtain ⟨y, -, -, y_pos, rfl⟩ := stands.holds_succ zero
    rw [sign_mul, sign_eq_one_of_pos y_pos, mul_one, sign_sign]

theorem Stands.lt_of_shorter (stands_a : Stands a x) (stands_b : Stands b y) (a_nonneg : 0 ≤ a.len)
    (shorter : a.len < b.len) : x < y := by
  obtain ⟨n, a_len, holds_a, -⟩ := stands_a.nonneg_cases a_nonneg
  obtain ⟨m, b_len, holds_b, full_b⟩ := stands_b.nonneg_cases (by omega)
  have power : base ^ n ≤ base ^ (m - 1) := pow_le_pow_right₀ (by decide) (by omega)
  have y_le := full_b (by omega)
  have x_lt := holds_a.lt
  omega

theorem Stands.lt_of_len_lt (stands_a : Stands a x) (stands_b : Stands b y)
    (shorter : a.len < b.len) : x < y := by
  by_cases a_nonneg : 0 ≤ a.len
  · exact stands_a.lt_of_shorter stands_b a_nonneg shorter
  · have x_neg : x < 0 := by
      by_contra x_nonneg
      exact a_nonneg (stands_a.nonneg_iff.2 (by omega))
    by_cases b_nonneg : 0 ≤ b.len
    · exact lt_of_lt_of_le x_neg (stands_b.nonneg_iff.1 b_nonneg)
    · have negated := stands_b.neg.lt_of_shorter stands_a.neg (by dsimp only; omega)
        (by dsimp only; omega)
      omega

theorem mpMcanAt_eq {i : ℕ} (stands : Stands (s i) x) : mpMcanAt s i = some s := by
  rw [mpMcanAt, stands.mpMcan_eq, map_some, update_eq_self]

theorem mcmpAt_spec {i j : ℕ} (stands_a : Stands (s i) x) (stands_b : Stands (s j) y) :
    ∃ res, mcmpAt junk s i j = some res ∧ res.sign = (x - y).sign := by
  rw [mcmpAt, mpMcanAt_eq stands_a, bind_some, mpMcanAt_eq stands_b, bind_some]
  by_cases same : (s i).len = (s j).len
  · obtain ⟨c, subtracted, stands_c⟩ := @msub_spec junk (s i) (s j) x y stands_a stands_b
    rw [if_neg (not_not_intro same), subtracted, map_some]
    exact ⟨c.len, rfl, stands_c.sign_eq⟩
  · rw [if_pos same]
    refine ⟨_, rfl, ?_⟩
    rcases Int.lt_or_gt_of_ne same with shorter | longer
    · have lt := stands_a.lt_of_len_lt stands_b shorter
      rw [sign_eq_neg_one_of_neg (by omega), sign_eq_neg_one_of_neg (by omega)]
    · have lt := stands_b.lt_of_len_lt stands_a longer
      rw [sign_eq_one_of_pos (by omega), sign_eq_one_of_pos (by omega)]

/-- `mdiv` of a number that is not negative by a positive one. -/
theorem mdiv_spec (stands_a : Stands a x) (stands_b : Stands b y) (x_nonneg : 0 ≤ x)
    (y_pos : 0 < y) :
    ∃ q r, mdiv junk a b = some (q, r) ∧ Stands q (x / y) ∧ Stands r (x % y) := by
  obtain ⟨a', moved_a, -, stands_a'⟩ := @Stands.moved junk a x stands_a
  obtain ⟨b', moved_b, -, stands_b'⟩ := @Stands.moved junk b y stands_b
  have a_nonneg := stands_a'.nonneg_iff.2 x_nonneg
  have b_nonneg := stands_b'.nonneg_iff.2 y_pos.le
  have same_a : ({ a' with len := a'.len.natAbs } : Mint) = a' := by
    rw [natAbs_of_nonneg a_nonneg]
  have same_b : ({ b' with len := b'.len.natAbs } : Mint) = b' := by
    rw [natAbs_of_nonneg b_nonneg]
  obtain ⟨q, r, divided, stands_q, stands_r⟩ :=
    @mDiv_spec junk a' b' x y stands_a' stands_b' x_nonneg y_pos
  rw [mdiv, moved_a, moved_b]
  dsimp only
  rw [same_a, same_b, divided, if_neg (by omega), if_neg (by omega), map_some, if_neg (by decide)]
  exact ⟨q, r, rfl, stands_q, stands_r⟩

/-! ### Operations on variables -/

/-- A variable holds a result, and the others are as before. -/
def Result (s s' : Store) (c : ℕ) (x : ℤ) : Prop :=
  (s' c).Canonical ∧ (s' c).toInt = x ∧ ∀ i ≠ c, s' i = s i

theorem result_update {i : ℕ} (stands : Stands c x) : Result s (update s i c) i x := by
  refine ⟨?_, ?_, fun j ne => update_of_ne ne c s⟩
  · rw [update_self]
    exact stands.canonical
  · rw [update_self]
    exact stands.toInt_eq

/-- The operations on canonical numbers are exact, with their operands and results in any variables.
That they give something back says that no value left the range of a `long` and that no access was
outside an array. -/
theorem arithmetic_exact (junk : ℤ) (s : Store) (a b : ℕ) (canonical_a : (s a).Canonical)
    (canonical_b : (s b).Canonical) :
    (∀ c, ∃ s', maddAt junk s a b c = some s' ∧ Result s s' c ((s a).toInt + (s b).toInt)) ∧
    (∀ c, ∃ s', msubAt junk s a b c = some s' ∧ Result s s' c ((s a).toInt - (s b).toInt)) ∧
    (∀ c, ∃ s', multAt junk s a b c = some s' ∧ Result s s' c ((s a).toInt * (s b).toInt)) ∧
    (∃ res, mcmpAt junk s a b = some res ∧ res.sign = ((s a).toInt - (s b).toInt).sign) ∧
    (0 ≤ (s a).toInt → 0 < (s b).toInt →
      (∃ q r, mDiv junk (s a) (s b) = some (q, r) ∧
        (q.Canonical ∧ q.toInt = (s a).toInt / (s b).toInt) ∧
        (r.Canonical ∧ r.toInt = (s a).toInt % (s b).toInt)) ∧
      ∀ q r, q ≠ r → ∃ s', mdivAt junk s a b q r = some s' ∧
        ((s' q).Canonical ∧ (s' q).toInt = (s a).toInt / (s b).toInt) ∧
        ((s' r).Canonical ∧ (s' r).toInt = (s a).toInt % (s b).toInt) ∧ ∀ i, i ≠ q → i ≠ r →
          s' i = s i) := by
  have stands_a := canonical_a.stands
  have stands_b := canonical_b.stands
  refine ⟨fun c => ?_, fun c => ?_, fun c => ?_, mcmpAt_spec stands_a stands_b,
    fun a_nonneg b_pos => ⟨?_, fun q r ne => ?_⟩⟩
  · obtain ⟨sum, added, stands⟩ := @madd_spec junk (s a) (s b) _ _ stands_a stands_b
    rw [maddAt, added]
    exact ⟨_, rfl, result_update stands⟩
  · obtain ⟨difference, subtracted, stands⟩ := @msub_spec junk (s a) (s b) _ _ stands_a stands_b
    rw [msubAt, subtracted]
    exact ⟨_, rfl, result_update stands⟩
  · obtain ⟨product, multiplied, stands⟩ := @multCan_spec junk (s a) (s b) _ _ stands_a stands_b
    rw [multAt, mpMcanAt_eq stands_a, bind_some, mpMcanAt_eq stands_b, bind_some, multiplied]
    exact ⟨_, rfl, result_update stands⟩
  · obtain ⟨q, r, divided, stands_q, stands_r⟩ :=
      @mDiv_spec junk (s a) (s b) _ _ stands_a stands_b a_nonneg b_pos
    exact ⟨q, r, divided, ⟨stands_q.canonical, stands_q.toInt_eq⟩, stands_r.canonical,
      stands_r.toInt_eq⟩
  · obtain ⟨quotient, remainder, divided, stands_q, stands_r⟩ :=
      @mdiv_spec junk (s a) (s b) _ _ stands_a stands_b a_nonneg
      b_pos
    rw [mdivAt, divided, map_some]
    dsimp only
    refine ⟨_, rfl, ?_, ?_, fun i not_q not_r => ?_⟩
    · rw [update_of_ne ne, update_self]
      exact ⟨stands_q.canonical, stands_q.toInt_eq⟩
    · rw [update_self]
      exact ⟨stands_r.canonical, stands_r.toInt_eq⟩
    · rw [update_of_ne not_r, update_of_ne not_q]

/-- A division whose trial quotient is one too large. -/
theorem arithmetic_exact_back :
    ∃ q r, mDiv 0 ⟨3, [0, 0, 16384]⟩ ⟨3, [1, 0, 16384]⟩ = some (q, r) ∧ q.toInt = 0 ∧
      r.toInt = 16384 * 2 ^ 30 := by
  obtain ⟨-, -, -, -, division⟩ :=
    arithmetic_exact 0 (fun i => if i = 0 then ⟨3, [0, 0, 16384]⟩ else ⟨3, [1, 0, 16384]⟩) 0 1
    ⟨by decide, by decide, by decide⟩ ⟨by decide, by decide, by decide⟩
  obtain ⟨⟨q, r, divided, ⟨-, q_eq⟩, ⟨-, r_eq⟩⟩, -⟩ := division (by decide) (by decide)
  exact ⟨q, r, divided, q_eq, r_eq⟩

end Sol25.Libmp
