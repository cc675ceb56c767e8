import Sol25.Disp.Model

/-!
# Active levels

The searches for the highest bit that is on, below or within a word, and below a priority.
-/

namespace Sol25.Disp

open Nat Bool BitVec

variable {map : List (BitVec 32)} {w : BitVec 32} {i j k pri : ℕ}

/-- A mask of high bits meets a number if and only if the number is that large. -/
theorem and_mask_ne_zero {n a b : ℕ} (lt : n < 2 ^ (a + b)) :
    n &&& ((2 ^ b - 1) <<< a) ≠ 0 ↔ 2 ^ a ≤ n := by
  have high : n &&& ((2 ^ b - 1) <<< a) = (n >>> a) <<< a := by
    have small : n >>> a < 2 ^ b := by
      rw [Nat.shiftRight_eq_div_pow]
      rw [Nat.pow_add, Nat.mul_comm] at lt
      exact Nat.div_lt_of_lt_mul (by rwa [Nat.mul_comm] at lt)
    have masked : n >>> a &&& (2 ^ b - 1) = n >>> a := by
      rw [and_two_pow_sub_one_eq_mod, mod_eq_of_lt small]
    refine eq_of_testBit_eq fun k => ?_
    have at_k := congrArg (fun m => (m <<< a).testBit k) masked
    simp only [testBit_and, testBit_shiftLeft, testBit_shiftRight] at at_k ⊢
    by_cases le : a ≤ k
    · simp only [le, decide_true, Bool.true_and, Nat.add_sub_cancel' le] at at_k ⊢
      exact at_k
    · simp [le]
  rw [high, Nat.shiftRight_eq_div_pow, Nat.shiftLeft_eq, Nat.mul_ne_zero_iff, Nat.div_ne_zero_iff]
  have pos := Nat.two_pow_pos a
  constructor
  · rintro ⟨⟨-, le⟩, -⟩
    exact le
  · exact fun le => ⟨⟨Nat.ne_of_gt pos, le⟩, Nat.ne_of_gt pos⟩

/-! ### `highbit` -/

/-- The bits of `n` from place `h - 1` on are those of a word that is not zero. -/
structure Bracket (n : ℕ) (r : ℕ × BitVec 32) : Prop where
  one_le : 1 ≤ r.1
  pos : 1 ≤ r.2.toNat
  low : 2 ^ (r.1 - 1) * r.2.toNat ≤ n
  high : n < 2 ^ (r.1 - 1) * (r.2.toNat + 1)

/-- One test of `highbit`. -/
def halve (a : ℕ) (mask : BitVec 32) (r : ℕ × BitVec 32) : ℕ × BitVec 32 :=
  if r.2 &&& mask ≠ 0 then (r.1 + a, r.2 >>> a) else r

theorem halve_fst (a : ℕ) (mask : BitVec 32) (r : ℕ × BitVec 32) :
    (halve a mask r).1 = if r.2 &&& mask ≠ 0 then r.1 + a else r.1 := apply_ite Prod.fst _ _ _

theorem Bracket.halve {n a b : ℕ} {mask : BitVec 32} {r : ℕ × BitVec 32} (bracket : Bracket n r)
    (mask_eq : mask.toNat = (2 ^ b - 1) <<< a) (le : b ≤ a) (lt : r.2.toNat < 2 ^ (a + b)) :
    Bracket n (halve a mask r) ∧ (Disp.halve a mask r).2.toNat < 2 ^ a := by
  have met : r.2 &&& mask ≠ 0 ↔ 2 ^ a ≤ r.2.toNat := by
    rw [← and_mask_ne_zero lt, ← mask_eq, ← toNat_and, ne_eq, ne_eq, ← toNat_inj]
    rfl
  rw [Disp.halve]
  split_ifs with meets
  · have large := met.1 meets
    have shifted : (r.2 >>> a).toNat = r.2.toNat / 2 ^ a := by
      rw [toNat_ushiftRight, shiftRight_eq_div_pow]
    have pow : 2 ^ (r.1 + a - 1) = 2 ^ (r.1 - 1) * 2 ^ a := by
      have one_le := bracket.one_le
      rw [← Nat.pow_add]
      congr 1
      omega
    have pos := Nat.two_pow_pos a
    refine ⟨⟨?_, ?_, ?_, ?_⟩, ?_⟩
    · exact Nat.le_trans bracket.one_le (Nat.le_add_right ..)
    · change 1 ≤ (r.2 >>> a).toNat
      rw [shifted]
      exact div_pos large pos
    · change 2 ^ (r.1 + a - 1) * (r.2 >>> a).toNat ≤ n
      rw [shifted, pow, Nat.mul_assoc]
      exact Nat.le_trans (mul_le_mul_left _ (mul_div_le _ _)) bracket.low
    · change n < 2 ^ (r.1 + a - 1) * ((r.2 >>> a).toNat + 1)
      rw [shifted, pow, Nat.mul_assoc]
      refine Nat.lt_of_lt_of_le bracket.high (mul_le_mul_left _ ?_)
      exact lt_mul_div_succ _ pos
    · change (r.2 >>> a).toNat < 2 ^ a
      rw [shifted]
      have below : r.2.toNat / 2 ^ a < 2 ^ b := by
        rw [Nat.pow_add] at lt
        exact Nat.div_lt_of_lt_mul lt
      exact Nat.lt_of_lt_of_le below (Nat.pow_le_pow_right (by decide) le)
  · exact ⟨bracket, Nat.lt_of_not_le (met.not.1 meets)⟩

theorem highbit_bracket (ne : w ≠ 0) : 1 ≤ highbit w ∧ 2 ^ (highbit w - 1) ≤ w.toNat ∧
    w.toNat < 2 ^ (highbit w - 1 + 1) := by
  have pos : 1 ≤ w.toNat := by
    rw [one_le_iff_ne_zero]
    intro zero
    exact ne (eq_of_toNat_eq zero)
  have start : Bracket w.toNat (1, w) := ⟨Nat.le_refl _, pos, by simp, by simp⟩
  obtain ⟨b₁, lt₁⟩ := @Bracket.halve _ 16 16 0xffff0000 _ start (by decide) (by decide) w.isLt
  obtain ⟨b₂, lt₂⟩ := @Bracket.halve _ 8 8 0xff00 _ b₁ (by decide) (by decide) lt₁
  obtain ⟨b₃, lt₃⟩ := @Bracket.halve _ 4 4 0xf0 _ b₂ (by decide) (by decide) lt₂
  obtain ⟨b₄, lt₄⟩ := @Bracket.halve _ 2 2 0xc _ b₃ (by decide) (by decide) lt₃
  obtain ⟨b₅, lt₅⟩ := @Bracket.halve _ 1 1 0x2 _ b₄ (by decide) (by decide) lt₄
  have highbit_eq : highbit w =
      (halve 1 0x2 (halve 2 0xc
          (halve 4 0xf0 (halve 8 0xff00 (halve 16 0xffff0000 (1, w)))))).1 := by
    rw [highbit, if_neg ne, halve_fst]
    rfl
  have one : (halve 1 0x2
      (halve 2 0xc (halve 4 0xf0 (halve 8 0xff00 (halve 16 0xffff0000 (1, w)))))).2.toNat = 1 := by
    have := b₅.pos
    omega
  have low := b₅.low
  have high := b₅.high
  rw [one, ← highbit_eq] at low high
  refine ⟨highbit_eq ▸ b₅.one_le, by omega, ?_⟩
  rw [Nat.pow_succ]
  exact high

theorem highbit_highest (ne : w ≠ 0) : w.getLsbD (highbit w - 1) = true ∧
    ∀ k, highbit w - 1 < k → w.getLsbD k = false := by
  obtain ⟨-, low, high⟩ := highbit_bracket ne
  refine ⟨testBit_of_two_pow_le_and_two_pow_add_one_gt low high, fun k lt => ?_⟩
  exact testBit_lt_two_pow (Nat.lt_of_lt_of_le high (Nat.pow_le_pow_right (by decide) lt))

theorem highbit_lt (ne : w ≠ 0) : highbit w - 1 < 32 := by
  by_contra beyond
  have set := (highbit_highest ne).1
  rw [getLsbD_of_ge _ _ (by omega)] at set
  exact nomatch set

/-! ### Searches in a map -/

theorem bitAt_of_zero (zero : wordAt map j = 0) (word : i / 32 = j) : bitAt map i = false := by
  rw [bitAt, word, zero]
  exact getLsbD_zero

theorem bitAt_word (ne : w ≠ 0) (at_j : ∀ k, k < 32 → bitAt map (32 * j + k) = w.getLsbD k) :
    bitAt map (32 * j + (highbit w - 1)) = true ∧
      ∀ i, 32 * j + (highbit w - 1) < i → i < 32 * (j + 1) → bitAt map i = false := by
  have lt := highbit_lt ne
  obtain ⟨set, above⟩ := highbit_highest ne
  refine ⟨(at_j _ lt).trans set, fun i from_bit to_word => ?_⟩
  obtain ⟨k, rfl⟩ : ∃ k, i = 32 * j + k := ⟨i - 32 * j, by omega⟩
  rw [at_j k (by omega)]
  exact above k (by omega)

theorem bitAt_add {k : ℕ} (lt : k < 32) : bitAt map (32 * j + k) = (wordAt map j).getLsbD k := by
  rw [bitAt, show (32 * j + k) / 32 = j by omega, show (32 * j + k) % 32 = k by omega]

theorem btGethighbit_highest (map : List (BitVec 32)) (wx : ℕ) :
    IsHighest (fun i => i < 32 * (wx + 1) ∧ bitAt map i = true) (btGethighbit map wx) := by
  induction wx with
  | zero =>
    rw [btGethighbit]
    split_ifs with zero
    · refine .inl ⟨rfl, fun i => ?_⟩
      rintro ⟨lt, set⟩
      rw [bitAt_of_zero zero (by omega)] at set
      exact nomatch set
    · obtain ⟨set, above⟩ := @bitAt_word map _ 0 zero fun k lt => bitAt_add lt
      have lt := highbit_lt zero
      rw [Nat.mul_zero, Nat.zero_add] at set above
      refine .inr ⟨_, rfl, ⟨by omega, set⟩, fun i from_bit => ?_⟩
      rintro ⟨to_word, at_i⟩
      rw [above i from_bit to_word] at at_i
      exact nomatch at_i
  | succ wx ih =>
    rw [btGethighbit]
    split_ifs with zero
    · refine ih.congr fun i => ⟨?_, fun ⟨lt, set⟩ => ⟨by omega, set⟩⟩
      rintro ⟨lt, set⟩
      refine ⟨?_, set⟩
      by_contra beyond
      rw [bitAt_of_zero zero (by omega)] at set
      exact nomatch set
    · obtain ⟨set, above⟩ := @bitAt_word map _ (wx + 1) zero fun k lt => bitAt_add lt
      have lt := highbit_lt zero
      rw [← Nat.shiftLeft_add_eq_or_of_lt lt, Nat.shiftLeft_eq, Nat.mul_comm (wx + 1) (2 ^ 5)]
      refine .inr ⟨_, rfl, ⟨by omega, set⟩, fun i from_bit => ?_⟩
      rintro ⟨to_word, at_i⟩
      rw [above i from_bit to_word] at at_i
      exact nomatch at_i

theorem getLsbD_lower {m : ℕ} (lt : m < 32) (k : ℕ) :
    (w &&& (1#32 <<< m - 1#32)).getLsbD k = (w.getLsbD k && decide (k < m)) := by
  have mask : (1#32 <<< m - 1#32).toNat = 2 ^ m - 1 := by
    have le : 2 ^ m ≤ 2 ^ 31 := Nat.pow_le_pow_right (by decide) (by omega)
    have one : 1 ≤ 2 ^ m := Nat.one_le_two_pow
    rw [BitVec.toNat_sub, BitVec.toNat_shiftLeft, Nat.shiftLeft_eq]
    change (2 ^ 32 - 1 + 1 * 2 ^ m % 2 ^ 32) % 2 ^ 32 = 2 ^ m - 1
    rw [Nat.one_mul, mod_eq_of_lt (by omega : 2 ^ m < 2 ^ 32)]
    omega
  rw [getLsbD_and]
  congr 1
  change (1#32 <<< m - 1#32).toNat.testBit k = _
  rw [mask, testBit_two_pow_sub_one]

theorem nextLower_highest (map : List (BitVec 32)) (pri : ℕ) :
    IsHighest (fun i => i < pri ∧ bitAt map i = true) (nextLower map pri) := by
  have m_lt : pri % 32 < 32 := mod_lt _ (by decide)
  rw [nextLower]
  split_ifs with found word
  · obtain ⟨set, above⟩ := highbit_highest found
    have lt := highbit_lt found
    rw [getLsbD_lower m_lt, and_eq_true, decide_eq_true_iff] at set
    have place : (pri / 32) <<< 5 + highbit
      (wordAt map (pri / 32) &&& 1#32 <<< (pri % 32) - 1#32) - 1 =
        32 * (pri / 32) + (highbit (wordAt map (pri / 32) &&& 1#32 <<< (pri % 32) - 1#32) - 1) := by
      have one_le := (highbit_bracket found).1
      rw [Nat.shiftLeft_eq]
      omega
    rw [place]
    refine .inr ⟨_, rfl, ⟨by omega, ?_⟩, fun i from_bit => ?_⟩
    · rw [bitAt_add lt]
      exact set.1
    · rintro ⟨below, at_i⟩
      obtain ⟨k, rfl⟩ : ∃ k, i = 32 * (pri / 32) + k := ⟨i - 32 * (pri / 32), by omega⟩
      have clear := above k (by omega)
      rw [getLsbD_lower m_lt, decide_eq_true (by omega : k < pri % 32), Bool.and_true] at clear
      rw [bitAt_add (by omega), clear] at at_i
      exact nomatch at_i
  all_goals
    have clear : ∀ i, 32 * (pri / 32) ≤ i → i < pri → bitAt map i = false := by
      intro i from_word below
      obtain ⟨k, rfl⟩ : ∃ k, i = 32 * (pri / 32) + k := ⟨i - 32 * (pri / 32), by omega⟩
      have at_k := @getLsbD_lower (wordAt map (pri / 32)) _ m_lt k
      rw [not_not.1 found, decide_eq_true (by omega : k < pri % 32), Bool.and_true] at at_k
      rw [bitAt_add (by omega), ← at_k]
      exact getLsbD_zero
  · refine (btGethighbit_highest map (pri / 32 - 1)).congr fun i =>
      ⟨?_, fun ⟨lt, set⟩ => ⟨by omega, set⟩⟩
    rintro ⟨lt, set⟩
    refine ⟨?_, set⟩
    by_contra beyond
    rw [clear i (by omega) lt] at set
    exact nomatch set
  · refine .inl ⟨rfl, fun i => ?_⟩
    rintro ⟨lt, set⟩
    rw [clear i (by omega) lt] at set
    exact nomatch set

end Sol25.Disp
