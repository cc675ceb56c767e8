import Sol25.Libmp.Power
import Mathlib.Data.Int.ModEq

/-!
# Euclid's algorithm

`gcd` divides with signs and looks at the last divisor. `invert` carries the coefficients of one
operand along.
-/

namespace Sol25.Libmp

open Digits Function Int

variable {junk : ℤ} {a b c : Mint} {x y z : ℤ} {s : Store} {fuel : ℕ}

/-- More rounds than a number has values from zero up to its magnitude. -/
def rounds (a : Mint) : ℕ := 0o100000 ^ a.len.natAbs + 1

/-- The loop of `gcd`. -/
def gcdLoop (junk : ℤ) : ℕ → Mint → Mint → Option Mint
  | 0, _, _ => none
  | fuel + 1, x, y =>
    if y.len = 0 then some x
    else
      match mdiv junk x y with
      | none => none
      | some (_, z) =>
        match mpMove junk y, mpMove junk z with
        | some x, some y => gcdLoop junk fuel x y
        | _, _ => none

/-- `gcd`, with the result in its own place. -/
def gcd (junk : ℤ) (a b : Mint) : Option Mint :=
  match mpMove junk a, mpMove junk b with
  | some x, some y => (gcdLoop junk (rounds y) x y).bind (mpMove junk)
  | _, _ => none

/-- `mcmp` of two local variables. -/
def mcmp (junk : ℤ) (a b : Mint) : Option ℤ := mcmpAt junk (fun i => if i = 0 then a else b) 0 1

/-- The loop of `invert`: the coefficient that it ends with. -/
def invertLoop (junk : ℤ) : ℕ → Mint → Mint → Mint → Mint → Option Mint
  | 0, _, _, _, _ => none
  | fuel + 1, u2, u3, v2, v3 =>
    match mcmp junk v3 xfree with
    | none => none
    | some res =>
      if res = 0 then some u2
      else
        match mdiv junk u3 v3 with
        | none => none
        | some (q, r) =>
          match mpMove junk v3, mpMove junk r, mult junk q v2 with
          | some u3, some v3, some (_, v2, t) =>
            match msub junk depth u2 t with
            | none => none
            | some t =>
              match mpMove junk v2, mpMove junk t with
              | some u2, some v2 => invertLoop junk fuel u2 u3 v2 v3
              | _, _ => none
          | _, _, _ => none

/-- `invert`, with the result in its own place. -/
def invert (junk : ℤ) (x1 x0 : Mint) : Option Mint :=
  match mpMove junk x0, mpMove junk x0, mpMove junk (oneDigit junk 1), mpMove junk x1 with
  | some u3, some x0_prime, some v2, some v3 =>
    match (invertLoop junk (rounds v3) xfree u3 v2 v3).bind (mpMove junk) with
    | none => none
    | some c =>
      match mcmp junk c xfree with
      | none => none
      | some res => if res < 0 then madd junk depth x0_prime c else some c
  | _, _, _, _ => none

/-- `gcd` on variables. -/
def gcdAt (junk : ℤ) (s : Store) (a b c : ℕ) : Option Store :=
  (gcd junk (s a) (s b)).map fun r => update s c r

/-- `invert` on variables. -/
def invertAt (junk : ℤ) (s : Store) (x1 x0 c : ℕ) : Option Store :=
  (invert junk (s x1) (s x0)).map fun r => update s c r

/-! ### The greatest common divisor -/

theorem Stands.len_eq_zero_iff (stands : Stands a x) : a.len = 0 ↔ x = 0 := by
  rw [← sign_eq_zero_iff_zero, stands.sign_eq, sign_eq_zero_iff_zero]

theorem Stands.natAbs_lt_rounds (stands : Stands a x) : x.natAbs < rounds a := by
  obtain ⟨n, a_len, holds, -⟩ := stands.abs.nonneg_cases (by dsimp only; omega)
  have n_eq : a.len.natAbs = n := by
    dsimp only at a_len
    omega
  have lt := holds.lt
  rw [rounds, n_eq]
  have base_pow : base ^ n = ((0o100000 ^ n : ℕ) : ℤ) := by
    push_cast
    rfl
  rw [base_pow, abs_eq_natAbs] at lt
  omega

theorem gcd_divSign : Int.gcd y (divSign x y * (|x| % |y|)) = Int.gcd x y := by
  have rest : Int.gcd y (divSign x y * (|x| % |y|)) = Int.gcd y (|x| % |y|) := by
    rcases divSign_cases x y with positive | negative
    · rw [positive, one_mul]
    · rw [negative, neg_one_mul, gcd_neg]
  have abs_gcd : Int.gcd y (|x| % |y|) = Int.gcd |y| (|x| % |y|) := by
    rw [Int.gcd, Int.gcd, Int.natAbs_abs]
  rw [rest, abs_gcd, Int.gcd_comm, Int.gcd_emod, Int.gcd, Int.gcd, Int.natAbs_abs, Int.natAbs_abs]

/-- The loop keeps the greatest common divisor, and the divisors get smaller. -/
theorem gcdLoop_spec (stands_a : Stands a x) (stands_b : Stands b y) (lt : y.natAbs < fuel) :
    ∃ g k, gcdLoop junk fuel a b = some g ∧ Stands g k ∧ k.natAbs = Int.gcd x y := by
  induction fuel generalizing a b x y with
  | zero => exact absurd lt (Nat.not_lt_zero _)
  | succ fuel ih =>
    rw [gcdLoop]
    by_cases zero : b.len = 0
    · rw [if_pos zero, stands_b.len_eq_zero_iff.1 zero, gcd_zero_right]
      exact ⟨a, x, rfl, stands_a, rfl⟩
    · have nonzero := mt stands_b.len_eq_zero_iff.2 zero
      obtain ⟨q, r, divided, -, stands_r⟩ := @mdiv_signed junk _ _ _ _ stands_a stands_b nonzero
      obtain ⟨b', moved_b, -, stands_b'⟩ := @Stands.moved junk _ _ stands_b
      obtain ⟨r', moved_r, -, stands_r'⟩ := @Stands.moved junk _ _ stands_r
      have smaller : (divSign x y * (|x| % |y|)).natAbs < fuel := by
        have rest_lt : (divSign x y * (|x| % |y|)).natAbs < y.natAbs := by
          zify
          exact divSign_rest_lt nonzero
        omega
      obtain ⟨g, k, looped, stands_g, magnitude⟩ := ih stands_b' stands_r' smaller
      rw [gcd_divSign] at magnitude
      rw [if_neg zero, divided]
      dsimp only
      rw [moved_b, moved_r]
      exact ⟨g, k, looped, stands_g, magnitude⟩

theorem gcd_spec (stands_a : Stands a x) (stands_b : Stands b y) :
    ∃ g k, gcd junk a b = some g ∧ Stands g k ∧ k.natAbs = Int.gcd x y := by
  obtain ⟨a', moved_a, -, stands_a'⟩ := @Stands.moved junk _ _ stands_a
  obtain ⟨b', moved_b, -, stands_b'⟩ := @Stands.moved junk _ _ stands_b
  obtain ⟨g, k, looped, stands_g, magnitude⟩ :=
    @gcdLoop_spec junk _ _ _ _ _ stands_a' stands_b' stands_b'.natAbs_lt_rounds
  obtain ⟨g', moved_g, -, stands_g'⟩ := @Stands.moved junk _ _ stands_g
  rw [gcd, moved_a, moved_b]
  dsimp only
  rw [looped, Option.bind_some, moved_g]
  exact ⟨g', k, rfl, stands_g', magnitude⟩

/-! ### Inverses -/

theorem mcmp_spec (stands_a : Stands a x) (stands_b : Stands b y) :
    ∃ res, mcmp junk a b = some res ∧ res.sign = (x - y).sign :=
  @mcmpAt_spec junk x y (fun i => if i = 0 then a else b) 0 1 stands_a stands_b

/-- What holds when the loop of `invert` begins a round: the coefficients belong to the remainders
modulo one operand, have opposite signs, and do not outgrow that operand. -/
structure Euclid (x1 x0 u2 u3 v2 v3 : ℤ) : Prop where
  u3_pos : 0 < u3
  v3_nonneg : 0 ≤ v3
  gcd_eq : Int.gcd u3 v3 = Int.gcd x0 x1
  u_eq : x0 ∣ u2 * x1 - u3
  v_eq : x0 ∣ v2 * x1 - v3
  opposite : u2 * v2 ≤ 0
  total : |v2| * u3 + |u2| * v3 = x0
  bound : |u2| ≤ x0

theorem Euclid.start (x1_pos : 0 < x) (x0_pos : 0 < y) : Euclid x y 0 y 1 x where
  u3_pos := x0_pos
  v3_nonneg := x1_pos.le
  gcd_eq := rfl
  u_eq := ⟨-1, by ring⟩
  v_eq := ⟨0, by ring⟩
  opposite := by decide
  total := by rw [abs_one, abs_zero, zero_mul, one_mul, add_zero]
  bound := by rw [abs_zero]; exact x0_pos.le

theorem abs_sub_of_opposite {u v q : ℤ} (opposite : u * v ≤ 0) (nonneg : 0 ≤ q) :
    |u - q * v| = |u| + q * |v| := by
  rcases le_or_gt 0 u with u_nonneg | u_neg
  · rcases le_or_gt v 0 with v_nonpos | v_pos
    · have product := mul_nonneg nonneg (neg_nonneg.2 v_nonpos)
      rw [abs_of_nonneg (by linarith), abs_of_nonneg u_nonneg, abs_of_nonpos v_nonpos]
      ring
    · obtain rfl : u = 0 := by
        by_contra nonzero
        have product := mul_pos (lt_of_le_of_ne u_nonneg (Ne.symm nonzero)) v_pos
        omega
      rw [zero_sub, abs_neg, abs_mul, abs_of_nonneg nonneg, abs_zero, zero_add]
  · have v_nonneg : 0 ≤ v := by
      by_contra negative
      have product := mul_pos_of_neg_of_neg u_neg (not_le.1 negative)
      omega
    have product := mul_nonneg nonneg v_nonneg
    rw [abs_of_nonpos (by linarith), abs_of_neg u_neg, abs_of_nonneg v_nonneg]
    ring

theorem Euclid.step {x1 x0 u2 u3 v2 v3 : ℤ} (euclid : Euclid x1 x0 u2 u3 v2 v3) (pos : 0 < v3) :
    Euclid x1 x0 v2 v3 (u2 - u3 / v3 * v2) (u3 % v3) := by
  obtain ⟨u3_pos, v3_nonneg, gcd_eq, ⟨k, u_eq⟩, ⟨l, v_eq⟩, opposite, total, bound⟩ := euclid
  have division := emod_add_mul_ediv u3 v3
  have q_nonneg : 0 ≤ u3 / v3 := ediv_nonneg u3_pos.le v3_nonneg
  refine ⟨pos, emod_nonneg u3 pos.ne', ?_, ⟨l, v_eq⟩, ⟨k - u3 / v3 * l, ?_⟩, ?_, ?_, ?_⟩
  · rw [← gcd_eq, Int.gcd_comm v3, gcd_emod]
  · linear_combination u_eq - u3 / v3 * v_eq - division
  · have square := mul_nonneg q_nonneg (mul_self_nonneg v2)
    linarith [mul_sub v2 u2 (u3 / v3 * v2), mul_comm v2 u2,
      (by ring : v2 * (u3 / v3 * v2) = u3 / v3 * (v2 * v2))]
  · rw [abs_sub_of_opposite opposite q_nonneg]
    linear_combination total + |v2| * division
  · have first : |v2| ≤ |v2| * u3 := le_mul_of_one_le_right (abs_nonneg v2) u3_pos
    have second : 0 ≤ |u2| * v3 := mul_nonneg (abs_nonneg u2) v3_nonneg
    omega

/-- The loop ends with a coefficient whose product is the greatest common divisor. -/
theorem invertLoop_spec {x1 x0 u2 u3 v2 v3 : ℤ} {mu2 mu3 mv2 mv3 : Mint}
    (euclid : Euclid x1 x0 u2 u3 v2 v3) (stands_u2 : Stands mu2 u2) (stands_u3 : Stands mu3 u3)
    (stands_v2 : Stands mv2 v2) (stands_v3 : Stands mv3 v3) (lt : v3.natAbs < fuel) :
    ∃ m u, invertLoop junk fuel mu2 mu3 mv2 mv3 = some m ∧ Stands m u ∧ |u| ≤ x0 ∧
      x0 ∣ u * x1 - Int.gcd x0 x1 := by
  induction fuel generalizing mu2 mu3 mv2 mv3 u2 u3 v2 v3 with
  | zero => exact absurd lt (Nat.not_lt_zero _)
  | succ fuel ih =>
    obtain ⟨res, compared, res_sign⟩ := @mcmp_spec junk _ _ _ _ stands_v3 Stands.xfree
    rw [sub_zero] at res_sign
    have zero_iff : res = 0 ↔ v3 = 0 := by
      rw [← sign_eq_zero_iff_zero, res_sign, sign_eq_zero_iff_zero]
    rw [invertLoop, compared]
    dsimp only
    by_cases zero : res = 0
    · have same := euclid.gcd_eq
      have u_eq := euclid.u_eq
      rw [zero_iff.1 zero, gcd_zero_right] at same
      rw [← natAbs_of_nonneg euclid.u3_pos.le, same] at u_eq
      rw [if_pos zero]
      exact ⟨mu2, u2, rfl, stands_u2, euclid.bound, u_eq⟩
    · have v3_pos : 0 < v3 := lt_of_le_of_ne euclid.v3_nonneg (Ne.symm (mt zero_iff.2 zero))
      obtain ⟨q, r, divided, stands_q, stands_r⟩ :=
        @mdiv_spec junk _ _ _ _ stands_u3 stands_v3 euclid.u3_pos.le v3_pos
      obtain ⟨u3', moved_u3, -, stands_u3'⟩ := @Stands.moved junk _ _ stands_v3
      obtain ⟨v3', moved_v3, -, stands_v3'⟩ := @Stands.moved junk _ _ stands_r
      obtain ⟨t, multiplied, stands_t⟩ := @mult_spec junk _ _ _ _ stands_q stands_v2
      obtain ⟨t', subtracted, stands_t'⟩ := @msub_spec junk _ _ _ _ stands_u2 stands_t
      obtain ⟨u2', moved_u2, -, stands_u2'⟩ := @Stands.moved junk _ _ stands_v2
      obtain ⟨v2', moved_v2, -, stands_v2'⟩ := @Stands.moved junk _ _ stands_t'
      have smaller : (u3 % v3).natAbs < fuel := by
        have rest_nonneg := emod_nonneg u3 v3_pos.ne'
        have rest_lt := emod_lt_of_pos u3 v3_pos
        omega
      rw [if_neg zero, divided]
      dsimp only
      rw [moved_u3, moved_v3, multiplied]
      dsimp only
      rw [subtracted]
      dsimp only
      rw [moved_u2, moved_v2]
      exact ih (euclid.step v3_pos) stands_u2' stands_u3' stands_v2' stands_v3' smaller

/-- `invert` of coprime numbers. -/
theorem invert_spec {x1 x0 : ℤ} (stands_a : Stands a x1) (stands_b : Stands b x0) (x1_pos : 0 < x1)
    (x0_gt : 1 < x0) (coprime : Int.gcd x1 x0 = 1) :
    ∃ m u, invert junk a b = some m ∧ Stands m u ∧ 0 < u ∧ u < x0 ∧ u * x1 ≡ 1 [ZMOD x0] := by
  obtain ⟨a', moved_a, -, stands_a'⟩ := @Stands.moved junk _ _ stands_a
  obtain ⟨b', moved_b, -, stands_b'⟩ := @Stands.moved junk _ _ stands_b
  obtain ⟨one, moved_one, -, stands_one⟩ :=
    @Stands.moved junk _ _ (@oneDigit_stands junk 1 (by decide))
  obtain ⟨m, u, looped, stands_m, bound, divides⟩ :=
    @invertLoop_spec junk _ _ _ _ _ _ _ _ _ _ _ (Euclid.start x1_pos (by omega : 0 < x0))
      Stands.xfree stands_b' stands_one stands_a' stands_a'.natAbs_lt_rounds
  obtain ⟨c, moved_c, -, stands_c⟩ := @Stands.moved junk _ _ stands_m
  obtain ⟨res, compared, res_sign⟩ := @mcmp_spec junk _ _ _ _ stands_c Stands.xfree
  rw [sub_zero] at res_sign
  rw [Int.gcd_comm, coprime] at divides
  obtain ⟨k, product⟩ := divides
  -- A multiple of the modulus is no inverse.
  have no_multiple : ∀ j, u ≠ x0 * j := by
    rintro j rfl
    have unit : x0 ∣ 1 := ⟨j * x1 - k, by linear_combination -product⟩
    have le := le_of_dvd one_pos unit
    omega
  have nonzero := no_multiple 0
  have not_top := no_multiple 1
  have not_bottom := no_multiple (-1)
  have lower := neg_abs_le u
  have upper := le_abs_self u
  have congruent : x0 ∣ 1 - u * x1 := ⟨-k, by linear_combination -product⟩
  rw [invert, moved_b, moved_one, moved_a]
  dsimp only
  rw [looped, Option.bind_some, moved_c]
  dsimp only
  rw [compared]
  dsimp only
  by_cases negative : u < 0
  · have res_neg : res < 0 := by
      rw [← sign_eq_neg_one_iff_neg, res_sign, sign_eq_neg_one_iff_neg]
      exact negative
    obtain ⟨sum, added, stands_sum⟩ := @madd_spec junk _ _ _ _ stands_b' stands_c
    rw [if_pos res_neg, added]
    refine ⟨sum, x0 + u, rfl, stands_sum, by omega, by omega, modEq_iff_dvd.2 ?_⟩
    have shifted := dvd_sub congruent (dvd_mul_right x0 x1)
    rwa [show 1 - u * x1 - x0 * x1 = 1 - (x0 + u) * x1 by ring] at shifted
  · have res_nonneg : ¬res < 0 := by
      rw [← sign_eq_neg_one_iff_neg, res_sign, sign_eq_neg_one_iff_neg]
      exact negative
    rw [if_neg res_nonneg]
    exact ⟨c, u, rfl, stands_c, by omega, by omega, modEq_iff_dvd.2 congruent⟩

end Sol25.Libmp
