import Sol25.Libmp.Euclid

/-!
# Square roots

`msqrt` starts above the root and takes steps of Newton's method as long as they go down.
-/

namespace Sol25.Libmp

open Digits Function Option Nat Int

variable {junk : ℤ} {a b c : Mint} {x y : ℤ} {s : Store} {fuel : ℕ}

/-- The loop of `msqrt`. -/
def sqrtLoop (junk : ℤ) (a : Mint) : ℕ → Mint → Option Mint
  | 0, _ => none
  | fuel + 1, x =>
    match mdiv junk a x with
    | none => none
    | some (y, _) =>
      match (madd junk depth x y).bind fun y => sdiv junk y 2 with
      | none => none
      | some (y, _) =>
        match mcmp junk x y with
        | none => none
        | some res =>
          if 0 < res then (mpMove junk y).bind (sqrtLoop junk a fuel) else some x

/-- The number that `msqrt` starts from. -/
def sqrtStart (junk : ℤ) (len : ℤ) : Option Mint :=
  let xlen := if len % 2 = 1 then (1 + len) / 2 else 1 + len / 2
  (write (List.replicate xlen.toNat 0 ++ [junk, junk]) (xlen - 1)
    (if len % 2 = 1 then 0o400 else 1)).map fun val => ⟨xlen, val⟩

/-- `msqrt` of a number that is not zero, with the results in their own places. -/
def msqrt (junk : ℤ) (a : Mint) : Option (Mint × Mint) :=
  match sqrtStart junk a.len, mpMove junk a with
  | some x, some a0 =>
    match sqrtLoop junk a0 (rounds x) x with
    | none => none
    | some x =>
      match mpMove junk x, mult junk x x with
      | some b, some (_, _, square) => (msub junk depth a0 square).map fun r => (b, r)
      | _, _ => none
  | _, _ => none

/-- `msqrt` on variables.  Nothing comes back for a negative number. -/
def msqrtAt (junk : ℤ) (s : Store) (a b r : ℕ) : Option Store :=
  if (s a).len < 0 then none
  else if (s a).len = 0 then
    let s := update s b { s b with len := 0 }
    some (update s r { s r with len := 0 })
  else
    (msqrt junk (s a)).map fun results => update (update s b results.1) r results.2

/-! ### Newton's method -/

/-- A step from any positive number does not go below a number whose square is not larger. -/
theorem newton_le {k : ℤ} (square : k * k ≤ y) (pos : 0 < x) :
    k ≤ (x + y / x) / 2 := by
  have quotient : 2 * k - x ≤ y / x := by
    refine Int.le_ediv_of_mul_le pos ?_
    linarith [mul_self_nonneg (k - x), (by ring : (k - x) * (k - x) = k * k - 2 * k * x + x * x),
      (by ring : (2 * k - x) * x = 2 * k * x - x * x)]
  omega

theorem newton_stop (pos : 0 < x) (stop : x ≤ (x + y / x) / 2) : x * x ≤ y := by
  have quotient : x ≤ y / x := by omega
  exact (Int.le_ediv_iff_mul_le pos).1 quotient

/-- From a number that is not below the root, the loop ends at the root. -/
theorem sqrtLoop_spec {k : ℤ} (stands_a : Stands a y) (stands_x : Stands c x) (k_pos : 0 < k)
    (square : k * k ≤ y) (next : y < (k + 1) * (k + 1)) (above : k ≤ x) (lt : x.natAbs < fuel) :
    ∃ m, sqrtLoop junk a fuel c = some m ∧ Stands m k := by
  induction fuel generalizing c x with
  | zero => exact absurd lt (not_lt_zero _)
  | succ fuel ih =>
    have x_pos : 0 < x := by omega
    have y_nonneg : 0 ≤ y := (mul_self_nonneg k).trans square
    obtain ⟨q, r, divided, stands_q, -⟩ := @mdiv_spec junk _ _ _ _ stands_a stands_x y_nonneg x_pos
    obtain ⟨sum, added, stands_sum⟩ := @madd_spec junk _ _ _ _ stands_x stands_q
    have q_nonneg := ediv_nonneg y_nonneg x_pos.le
    obtain ⟨half, halved, stands_half⟩ := @sdiv_spec junk _ _ 2 stands_sum
      (by omega) (by decide) (by decide)
    obtain ⟨res, compared, res_sign⟩ := @mcmp_spec junk _ _ _ _ stands_x stands_half
    have lower := newton_le square x_pos
    rw [sqrtLoop, divided]
    dsimp only
    rw [added, bind_some, halved]
    dsimp only
    rw [compared]
    dsimp only
    by_cases down : 0 < res
    · have smaller : 0 < x - (x + y / x) / 2 := by
        rwa [← sign_eq_one_iff_pos, ← res_sign, sign_eq_one_iff_pos]
      obtain ⟨half', moved, -, stands_half'⟩ := @Stands.moved junk _ _ stands_half
      rw [if_pos down, moved, bind_some]
      exact ih stands_half' lower (by omega)
    · have not_smaller : ¬0 < x - (x + y / x) / 2 := by
        rwa [← sign_eq_one_iff_pos, ← res_sign, sign_eq_one_iff_pos]
      have square_x := newton_stop x_pos (by omega : x ≤ (x + y / x) / 2)
      have same : x = k := by
        by_contra ne
        have above' : k + 1 ≤ x := by omega
        have product := mul_le_mul above' above' (by omega : 0 ≤ k + 1) x_pos.le
        omega
      rw [if_neg down]
      exact ⟨c, rfl, same ▸ stands_x⟩

/-- The first number is above the root. -/
theorem sqrtStart_spec (stands : Stands a x) (pos : 0 < x) :
    ∃ m z, sqrtStart junk a.len = some m ∧ Stands m z ∧ 0 < z ∧ x < z * z := by
  obtain ⟨n, a_len, holds, -⟩ := stands.nonneg_cases (stands.nonneg_iff.2 pos.le)
  have lt := holds.lt
  have n_pos : n ≠ 0 := by
    rintro rfl
    have zero := holds.zero
    omega
  rw [sqrtStart, a_len]
  rcases Nat.even_or_odd' n with ⟨m, rfl | rfl⟩
  · obtain ⟨val, written, stands_m⟩ := @topDigit_stands junk 1 m (by decide)
    have not_odd : ¬((2 * m : ℕ) : ℤ) % 2 = 1 := by omega
    have xlen : 1 + ((2 * m : ℕ) : ℤ) / 2 = (m + 1 : ℕ) := by omega
    rw [if_neg not_odd, if_neg not_odd, xlen, toNat_natCast, cast_succ,
      add_sub_cancel_right, written, map_some]
    refine ⟨_, _, rfl, stands_m, mul_pos one_pos (pow_pos (by decide) m), ?_⟩
    calc x < base ^ (2 * m) := lt
      _ = 1 * base ^ m * (1 * base ^ m) := by ring
  · obtain ⟨val, written, stands_m⟩ := @topDigit_stands junk 0o400 m (by decide)
    have odd : ((2 * m + 1 : ℕ) : ℤ) % 2 = 1 := by omega
    have xlen : (1 + ((2 * m + 1 : ℕ) : ℤ)) / 2 = (m + 1 : ℕ) := by omega
    have power : (0 : ℤ) < base ^ m := pow_pos (by decide) m
    rw [if_pos odd, if_pos odd, xlen, toNat_natCast, cast_succ,
      add_sub_cancel_right, written, map_some]
    refine ⟨_, _, rfl, stands_m, mul_pos (by decide) power, ?_⟩
    calc x < base ^ (2 * m + 1) := lt
      _ = base * (base ^ m * base ^ m) := by ring
      _ < 0o400 * 0o400 * (base ^ m * base ^ m) :=
          mul_lt_mul_of_pos_right (by decide) (mul_pos power power)
      _ = 0o400 * base ^ m * (0o400 * base ^ m) := by ring

/-- `msqrt` of a positive number. -/
theorem msqrt_spec (stands : Stands a x) (pos : 0 < x) :
    ∃ b r k, msqrt junk a = some (b, r) ∧ Stands b k ∧ Stands r (x - k * k) ∧ 0 < k ∧
      k * k ≤ x ∧ x < (k + 1) * (k + 1) := by
  obtain ⟨m, z, started, stands_m, z_pos, above⟩ := @sqrtStart_spec junk _ _ stands pos
  obtain ⟨a0, moved, -, stands_a0⟩ := @Stands.moved junk _ _ stands
  obtain ⟨k, square, next⟩ : ∃ k : ℕ, (k : ℤ) * k ≤ x ∧ x < (k + 1) * (k + 1) := by
    refine ⟨sqrt x.toNat, ?_, ?_⟩
    · have le := sqrt_le x.toNat
      zify at le
      omega
    · have lt := lt_succ_sqrt x.toNat
      zify at lt
      omega
  have k_pos : (0 : ℤ) < k := by
    by_contra not_pos
    obtain rfl : k = 0 := by omega
    omega
  have k_le : (k : ℤ) ≤ z := by
    by_contra smaller
    have product := mul_le_mul (not_le.1 smaller).le (not_le.1 smaller).le z_pos.le k_pos.le
    omega
  obtain ⟨root, looped, stands_root⟩ := @sqrtLoop_spec junk _ _ _ _ _ _ stands_a0 stands_m k_pos
    square next k_le stands_m.natAbs_lt_rounds
  obtain ⟨b, moved_b, -, stands_b⟩ := @Stands.moved junk _ _ stands_root
  obtain ⟨product, multiplied, stands_product⟩ := @mult_spec junk _ _ _ _ stands_root stands_root
  obtain ⟨r, subtracted, stands_r⟩ := @msub_spec junk _ _ _ _ stands_a0 stands_product
  rw [msqrt, started, moved]
  dsimp only
  rw [looped]
  dsimp only
  rw [moved_b, multiplied]
  dsimp only
  rw [subtracted, map_some]
  exact ⟨b, r, k, rfl, stands_b, stands_r, k_pos, square, next⟩

/-! ### The routines on variables -/

/-- The routines on canonical numbers, with their operands and results in any variables. Only `rpow`
has a condition. -/
theorem number_theory (junk : ℤ) (s : Store) :
    (∀ a b c d, (s a).Canonical → (s b).Canonical → (s c).Canonical → 0 ≤ (s a).toInt →
      0 ≤ (s b).toInt → 1 < (s c).toInt → ∃ s', powAt junk s a b c d = some s' ∧
        Result s s' d ((s a).toInt ^ (s b).toInt.toNat % (s c).toInt)) ∧
    (∀ a (n : ℕ) b, (s a).Canonical → n < 32768 →
      ((∃ s', rpowAt junk s a n b = some s' ∧ Result s s' b ((s a).toInt ^ n)) ↔
        0 ≤ (s a).toInt ∧ (n : ℤ) * (s a).len + 6 < 2 ^ 31 ∨
        (s a).toInt < 0 ∧ ∃ m : ℕ, (4 - (n : ℤ) * (s a).len.natAbs).bmod (2 ^ 32) = m + 1 ∧
          m + 3 < 2 ^ 31 ∧ |(s a).toInt| ^ n < 2 ^ 12 * 2 ^ (15 * m))) ∧
    (∀ a b c, (s a).Canonical → (s b).Canonical → ∃ s' g, gcdAt junk s a b c = some s' ∧
      Result s s' c g ∧ g.natAbs = Nat.gcd (s a).toInt.natAbs (s b).toInt.natAbs) ∧
    (∀ x1 x0 c, (s x1).Canonical → (s x0).Canonical → 0 < (s x1).toInt → 1 < (s x0).toInt →
      Int.gcd (s x1).toInt (s x0).toInt = 1 → ∃ s' u, invertAt junk s x1 x0 c = some s' ∧
        Result s s' c u ∧ 0 < u ∧ u < (s x0).toInt ∧ u * (s x1).toInt ≡ 1 [ZMOD (s x0).toInt]) ∧
    ∀ a b r, b ≠ r → (s a).Canonical → 0 ≤ (s a).toInt → ∃ s', msqrtAt junk s a b r = some s' ∧
      (s' b).Canonical ∧ (s' r).Canonical ∧ (s' b).toInt * (s' b).toInt ≤ (s a).toInt ∧
      (s a).toInt < ((s' b).toInt + 1) * ((s' b).toInt + 1) ∧
      (s' r).toInt = (s a).toInt - (s' b).toInt * (s' b).toInt ∧
      ∀ i, i ≠ b → i ≠ r → s' i = s i := by
  refine ⟨?_, ?_, ?_, ?_, ?_⟩
  · intro a b c d canonical_a canonical_b canonical_c a_nonneg b_nonneg c_gt
    obtain ⟨n, b_len, holds_b, -⟩ :=
      canonical_b.stands.nonneg_cases (canonical_b.stands.nonneg_iff.2 b_nonneg)
    rw [← Int.toNat_of_nonneg b_nonneg] at holds_b
    obtain ⟨r, powered, stands_r⟩ :=
      @pow_spec junk _ _ _ _ _ _ _ canonical_a.stands b_len holds_b canonical_c.stands c_gt
    rw [Int.tmod_eq_emod_of_nonneg (pow_nonneg a_nonneg _)] at stands_r
    rw [powAt, powered]
    exact ⟨_, rfl, result_update stands_r⟩
  · intro a n b canonical_a n_lt
    rw [← @rpow_iff junk _ _ _ canonical_a.stands n_lt, rpowAt]
    constructor
    · rintro ⟨s', powered, canonical, value_eq, -⟩
      obtain ⟨r, found, rfl⟩ := map_eq_some_iff.1 powered
      rw [update_self] at canonical value_eq
      exact ⟨r, found, value_eq ▸ canonical.stands⟩
    · rintro ⟨r, powered, stands_r⟩
      rw [powered]
      exact ⟨_, rfl, result_update stands_r⟩
  · intro a b c canonical_a canonical_b
    obtain ⟨r, k, found, stands_r, magnitude⟩ :=
      @gcd_spec junk _ _ _ _ canonical_a.stands canonical_b.stands
    rw [gcdAt, found]
    exact ⟨_, k, rfl, result_update stands_r, magnitude⟩
  · intro x1 x0 c canonical_a canonical_b x1_pos x0_gt coprime
    obtain ⟨r, u, inverted, stands_r, pos, lt, congruent⟩ :=
      @invert_spec junk _ _ _ _ canonical_a.stands canonical_b.stands x1_pos x0_gt coprime
    rw [invertAt, inverted]
    exact ⟨_, u, rfl, result_update stands_r, pos, lt, congruent⟩
  · intro a b r ne canonical_a a_nonneg
    have stands_a := canonical_a.stands
    rw [msqrtAt, if_neg (not_lt.2 (stands_a.nonneg_iff.2 a_nonneg))]
    by_cases zero : (s a).len = 0
    · have freed : ∀ val, Stands ⟨0, val⟩ 0 := fun val =>
        ⟨0, ⟨[], val, rfl, rfl, IsDigits.nil, rfl⟩, fun nonzero => absurd rfl nonzero, rfl⟩
      rw [if_pos zero, stands_a.len_eq_zero_iff.1 zero]
      refine ⟨_, rfl, ?_⟩
      dsimp only
      rw [update_of_ne ne, update_self, update_self, (freed _).toInt_eq, (freed _).toInt_eq]
      refine ⟨(freed _).canonical, (freed _).canonical, by decide, by decide, by decide,
        fun i not_b not_r => ?_⟩
      rw [update_of_ne not_r, update_of_ne not_b]
    · have a_pos : 0 < (s a).toInt :=
        lt_of_le_of_ne a_nonneg (Ne.symm (mt stands_a.len_eq_zero_iff.2 zero))
      obtain ⟨root, rest, k, rooted, stands_root, stands_rest, -, square, next⟩ :=
        @msqrt_spec junk _ _ stands_a a_pos
      rw [if_neg zero, rooted]
      refine ⟨_, rfl, ?_⟩
      dsimp only
      rw [update_of_ne ne, update_self, update_self, stands_root.toInt_eq, stands_rest.toInt_eq]
      refine ⟨stands_root.canonical, stands_rest.canonical, square, next, rfl,
        fun i not_b not_r => ?_⟩
      rw [update_of_ne not_r, update_of_ne not_b]

/-- Ten with its root, and the third power of two in place of two. -/
theorem number_theory_ten :
    (∃ s', msqrtAt 0 (fun _ => ⟨1, [10]⟩) 0 0 1 = some s' ∧ (s' 0).toInt * (s' 0).toInt ≤ 10) ∧
      ∃ s', rpowAt 0 (fun _ => ⟨1, [2]⟩) 0 (3 : ℕ) 0 = some s' ∧ (s' 0).toInt = 8 := by
  constructor
  · obtain ⟨-, -, -, -, roots⟩ := number_theory 0 fun _ => ⟨1, [10]⟩
    obtain ⟨s', rooted, -, -, square, -⟩ :=
      roots 0 0 1 (by decide) ⟨by decide, by decide, by decide⟩ (by decide)
    exact ⟨s', rooted, square⟩
  · obtain ⟨-, powers, -⟩ := number_theory 0 fun _ => ⟨1, [2]⟩
    obtain ⟨s', powered, -, value_eq, -⟩ := (powers 0 3 0 ⟨by decide, by decide, by decide⟩
      (by decide)).2 (Or.inl ⟨by decide, by decide⟩)
    exact ⟨s', powered, value_eq⟩

/-- The fourth power of minus two has a modulus without digits. -/
theorem not_rpow_exact :
    ¬∀ (junk : ℤ) (s : Store) (a n b : ℕ), (s a).Canonical → n < 32768 →
      ∃ s', rpowAt junk s a n b = some s' ∧ Result s s' b ((s a).toInt ^ n) := by
  intro exact_power
  obtain ⟨s', powered, -⟩ := exact_power 0 (fun _ => ⟨-1, [2]⟩) 0 4 0
    ⟨by decide, by decide, by decide⟩ (by decide)
  rw [rpowAt, rpow_outside (by decide), map_none] at powered
  exact nomatch powered

end Sol25.Libmp
