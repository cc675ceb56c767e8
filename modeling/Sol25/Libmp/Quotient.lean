import Sol25.Libmp.Product

/-!
# Quotients

`s_div` divides by one digit.  `m_div` divides by more of them: `m_trq` guesses a digit of the
quotient from the highest digits, at most one too large, and `m_dsb` takes the multiple away and
puts the divisor back when it was too large.
-/

namespace Sol25.Libmp

open Digits List Option

variable {junk : ℤ} {a b c : Mint} {n m : ℕ} {x y z : ℤ} {v : List ℤ}

/-! ### One digit -/

theorem write_drop {i : ℕ} {d : ℤ} {q : List ℤ} (room : i < q.length) (digit : 0 ≤ d ∧ d < base) :
    ∃ q', write q i d = some q' ∧ q'.drop i = d :: q.drop (i + 1) ∧ q'.length = q.length := by
  refine ⟨q.set i d, ?_, ?_, length_set⟩
  · rw [write, if_pos ⟨by omega, by rwa [Int.toNat_natCast]⟩, Int.toNat_natCast,
      toShort_digit digit.1 digit.2]
  · rw [drop_eq_getElem_cons (by rwa [length_set]), getElem_set_self,
      drop_set_of_lt (Nat.lt_succ_self i)]

/-- A step of `s_div`. -/
theorem sdiv_digit {d : ℤ} (n_pos : 0 < z) (n_lt : z < base) (rest : 0 ≤ x ∧ x < z)
    (digit : 0 ≤ d ∧ d < base) :
    ((long (x * base)).bind fun shifted => long (shifted + d)) = some (x * base + d) ∧
      (0 ≤ (x * base + d).tdiv z ∧ (x * base + d).tdiv z < base) ∧
      (0 ≤ (x * base + d).tmod z ∧ (x * base + d).tmod z < z) ∧
      x * base + d = z * (x * base + d).tdiv z + (x * base + d).tmod z := by
  have nonneg : 0 ≤ x * base + d := by
    have shifted := mul_nonneg rest.1 (by decide : 0 ≤ base)
    omega
  have lt : x * base + d < z * base := by
    have le : (x + 1) * base ≤ z * base := mul_le_mul_of_nonneg_right (by omega) (by decide)
    linarith [digit.2]
  rw [Int.tdiv_eq_ediv_of_nonneg nonneg, Int.tmod_eq_emod_of_nonneg nonneg]
  refine ⟨?_, ⟨Int.ediv_nonneg nonneg n_pos.le, Int.ediv_lt_of_lt_mul n_pos (by linarith)⟩,
    ⟨Int.emod_nonneg _ n_pos.ne', Int.emod_lt_of_pos _ n_pos⟩, (Int.mul_ediv_add_emod _ _).symm⟩
  simp only [base] at n_lt digit ⊢
  rw [long_of_bounds (by omega) (by omega), bind_some, long_of_bounds (by omega) (by omega)]

/-- The loop of `s_div` divides. -/
theorem sdivLoop_spec {i : ℕ} {q : List ℤ} (n_pos : 0 < z) (n_lt : z < base) (holds : Holds i v y)
    (rest : 0 ≤ x ∧ x < z) (room : i ≤ q.length) :
    ∃ digits x', sdivLoop v z i x q = some (digits ++ q.drop i, x') ∧ digits.length = i ∧
      IsDigits base digits ∧
      (0 ≤ x' ∧ x' < z) ∧ y + base ^ i * x = z * value base digits + x' := by
  induction i generalizing x y q with
  | zero =>
    refine ⟨[], x, rfl, rfl, IsDigits.nil, rest, ?_⟩
    rw [holds.zero, value]
    ring
  | succ i ih =>
    obtain ⟨d, low, at_i, digit, low_holds, rfl⟩ := holds.succ
    obtain ⟨shifted, quotient, remainder, split⟩ := sdiv_digit n_pos n_lt rest digit
    obtain ⟨q', written, dropped, same_length⟩ := @write_drop i _ q (by omega) quotient
    obtain ⟨digits, x', looped, length_eq, is_digits, rest', total⟩ :=
      @ih _ _ q' low_holds remainder (by omega)
    refine ⟨digits ++ [(x * base + d).tdiv z], x', ?_, ?_, ?_, rest', ?_⟩
    · rw [sdivLoop, at_i]
      dsimp only
      rw [shifted]
      dsimp only
      rw [written]
      dsimp only
      rw [looped, dropped, append_assoc, singleton_append]
    · rw [length_append, length_singleton, length_eq]
    · exact isDigits_append.2 ⟨is_digits, isDigits_cons.2 ⟨quotient, IsDigits.nil⟩⟩
    · rw [value_concat, length_eq, pow_succ]
      linear_combination total + base ^ i * split

theorem ediv_emod_of_eq {q r : ℤ} (eq : y = z * q + r) (rest : 0 ≤ r ∧ r < z) :
    q = y / z ∧ r = y % z := by
  have z_pos : 0 < z := by omega
  have quotient : y / z = q := by
    rw [eq, add_comm, Int.add_mul_ediv_left _ _ z_pos.ne', Int.ediv_eq_zero_of_lt rest.1 rest.2,
      zero_add]
  refine ⟨quotient.symm, ?_⟩
  rw [Int.emod_def, quotient, eq]
  ring

/-- Digits, of which only the highest may be zero, without that one. -/
theorem Stands.of_digits {digits rest : List ℤ} (is_digits : IsDigits base digits)
    (length_eq : digits.length = n + 1) (nearly_full : n ≠ 0 → base ^ (n - 1) ≤ value base digits) :
    ∃ top, (digits ++ rest)[n]? = some top ∧
      Stands (if (if top = 0 then (n : ℤ) else n + 1) = 0 then Libmp.xfree
        else ⟨if top = 0 then (n : ℤ) else n + 1, digits ++ rest⟩) (value base digits) := by
  have holds : Holds (n + 1) (digits ++ rest) (value base digits) :=
    ⟨digits, rest, rfl, length_eq, is_digits, rfl⟩
  obtain ⟨top, low, at_top, digit, low_holds, value_eq⟩ := holds.succ
  refine ⟨top, at_top, ?_⟩
  by_cases zero : top = 0
  · rw [if_pos zero]
    rw [zero, mul_zero, add_zero] at value_eq
    rw [← value_eq] at low_holds
    by_cases none_left : n = 0
    · rw [if_pos (by omega)]
      subst none_left
      rw [low_holds.zero]
      exact Stands.xfree
    · rw [if_neg (by omega)]
      exact Stands.of_nonneg rfl low_holds nearly_full
  · rw [if_neg zero, if_neg (by omega)]
    refine Stands.of_nonneg (k := n + 1) (by push_cast; rfl) holds fun _ => ?_
    have low_nonneg := low_holds.nonneg
    have power : 0 ≤ base ^ n := pow_nonneg (by decide) n
    rw [Nat.add_sub_cancel, value_eq]
    have top_pos : 1 ≤ top := by omega
    nlinarith

/-- `s_div` divides. -/
theorem sDiv_spec (a_len : a.len = n) (n_pos : 0 < z) (n_lt : z < base) (holds : Holds n a.val y)
    (full : Full n y) :
    ∃ q, sDiv junk a z = some (q, y % z) ∧ Stands q (y / z) := by
  obtain ⟨digits, x', looped, length_eq, is_digits, rest, total⟩ :=
    @sdivLoop_spec 0 y z a.val n (xalloc junk a.len)
    n_pos n_lt holds ⟨le_refl 0, n_pos⟩ (by rw [xalloc, length_replicate]; omega)
  rw [mul_zero, add_zero] at total
  obtain ⟨quotient, remainder⟩ := ediv_emod_of_eq total rest
  have a_toNat : a.len.toNat = n := by omega
  have short : toShort x' = x' := toShort_digit rest.1 (rest.2.trans n_lt)
  rw [sDiv, a_toNat, looped]
  dsimp only
  rw [short, remainder, ← quotient]
  cases n with
  | zero =>
    obtain rfl := eq_nil_of_length_eq_zero length_eq
    rw [if_pos (by omega)]
    exact ⟨_, rfl, Stands.xfree⟩
  | succ n =>
    have nearly_full : n ≠ 0 → base ^ (n - 1) ≤ value base digits := by
      intro n_ne
      have y_le := full (Nat.succ_ne_zero n)
      rw [Nat.add_sub_cancel] at y_le
      rw [quotient]
      apply Int.le_ediv_of_mul_le n_pos
      calc base ^ (n - 1) * z ≤ base ^ (n - 1) * base :=
            mul_le_mul_of_nonneg_left n_lt.le (pow_nonneg (by decide) _)
        _ = base ^ n := by rw [← pow_succ, Nat.sub_add_cancel (by omega)]
        _ ≤ y := y_le
    obtain ⟨top, at_top, stands⟩ :=
      @Stands.of_digits n digits ((xalloc junk a.len).drop (n + 1)) is_digits length_eq
      nearly_full
    rw [if_neg (by omega), Nat.add_sub_cancel, at_top]
    dsimp only
    refine ⟨_, rfl, ?_⟩
    rw [a_len] at stands ⊢
    push_cast at stands ⊢
    rw [add_sub_cancel_right]
    exact stands

theorem sdiv_spec (stands : Stands a y) (nonneg : 0 ≤ y) (n_pos : 0 < z) (n_lt : z < base) :
    ∃ q, sdiv junk a z = some (q, y % z) ∧ Stands q (y / z) := by
  have len_nonneg := stands.nonneg_iff.2 nonneg
  obtain ⟨n, a_len, holds, full⟩ := stands.nonneg_cases len_nonneg
  obtain ⟨q, divided, stands_q⟩ := @sDiv_spec junk { a with len := a.len.natAbs } n y z
    (by dsimp only; omega) n_pos n_lt
    holds full
  have remainder := Int.emod_nonneg y n_pos.ne'
  have remainder_lt := (Int.emod_lt_of_pos y n_pos).trans n_lt
  rw [sdiv, if_neg (by omega), if_neg (by omega), if_neg (by omega), divided, map_some, mul_one]
  refine ⟨q, ?_, stands_q⟩
  rw [signed, one_mul, mul_one, toShort_digit remainder remainder_lt]

/-! ### Trial quotients -/

/-- Nothing in the loop of `m_trq` leaves the range of a `long`. -/
theorem trq_long {v1 v2 c1 u3 d : ℤ} (digit_v1 : 0 ≤ v1 ∧ v1 < base) (digit_v2 : 0 ≤ v2 ∧ v2 < base)
    (digit_u3 : 0 ≤ u3 ∧ u3 < base) (c1_lt : c1 < 2 ^ 30) (digit_d : 0 ≤ d ∧ d < base)
    (rest : 0 ≤ c1 - v1 * d ∧ c1 - v1 * d ≤ 2 * base - 2) :
    ((long (v1 * d)).bind fun m => long (c1 - m)) = some (c1 - v1 * d) ∧
      ((long ((c1 - v1 * d) * base)).bind fun x => (long (x + u3)).bind fun x =>
        (long (v2 * d)).bind fun m =>
        long (x - m)) = some ((c1 - v1 * d) * base + u3 - v2 * d) := by
  simp only [base] at digit_v1 digit_v2 digit_u3 digit_d rest ⊢
  have high_nonneg : 0 ≤ v1 * d := mul_nonneg digit_v1.1 digit_d.1
  have low_nonneg : 0 ≤ v2 * d := mul_nonneg digit_v2.1 digit_d.1
  have low_le : v2 * d ≤ 32767 * 32767 := mul_le_mul (by omega) (by omega) digit_d.1 (by decide)
  constructor
  · rw [long_of_bounds (by omega) (by omega), bind_some, long_of_bounds (by omega) (by omega)]
  · rw [long_of_bounds (by omega) (by omega), bind_some,
      long_of_bounds (by omega) (by omega), bind_some, long_of_bounds (by omega) (by omega),
      bind_some, long_of_bounds (by omega) (by omega)]

/-- The loop of `m_trq` stops at a quotient of three digits by two.  It goes on only when the rest
is less than the base, so that the next rest is less than two times the base. -/
theorem trqLoop_spec {v1 v2 c1 u3 d : ℤ} (digit_v1 : 0 ≤ v1 ∧ v1 < base)
    (digit_v2 : 0 ≤ v2 ∧ v2 < base) (digit_u3 : 0 ≤ u3 ∧ u3 < base) (c1_lt : c1 < 2 ^ 30)
    (digit_d : 0 ≤ d ∧ d < base) (rest : 0 ≤ c1 - v1 * d ∧ c1 - v1 * d ≤ 2 * base - 2) :
    ∃ q, trqLoop v1 v2 c1 u3 (d.toNat + 1) d = some q ∧ (0 ≤ q ∧ q ≤ d) ∧
      q * (v1 * base + v2) ≤ c1 * base + u3 ∧
      (q = d ∨ c1 * base + u3 < (q + 1) * (v1 * base + v2)) := by
  obtain ⟨k, k_eq⟩ : ∃ k, d.toNat = k := ⟨_, rfl⟩
  induction k generalizing d with
  | zero =>
    obtain rfl : d = 0 := by omega
    obtain ⟨high, low⟩ := trq_long digit_v1 digit_v2 digit_u3 c1_lt digit_d rest
    rw [trqLoop, high]
    dsimp only
    rw [low]
    dsimp only
    rw [mul_zero, sub_zero] at rest
    rw [mul_zero, mul_zero, sub_zero, sub_zero]
    have nonneg : 0 ≤ c1 * base + u3 := by
      have shifted := mul_nonneg rest.1 (by decide : 0 ≤ base)
      omega
    rw [if_neg (by omega)]
    exact ⟨_, rfl, by decide, by simpa [toShort, base] using nonneg, .inl (by decide)⟩
  | succ k ih =>
    obtain ⟨high, low⟩ := trq_long digit_v1 digit_v2 digit_u3 c1_lt digit_d rest
    have x1_eq : (c1 - v1 * d) * base + u3 - v2 * d = c1 * base + u3 - d * (v1 * base + v2) := by
      ring
    have lower : toShort (d - 1) = d - 1 := toShort_digit (by omega) (by omega)
    rw [trqLoop, high]
    dsimp only
    rw [low]
    dsimp only
    rw [lower]
    split_ifs with negative
    · have rest_lt : c1 - v1 * d < base := by
        have low_le : v2 * d ≤ base * base :=
          mul_le_mul digit_v2.2.le digit_d.2.le digit_d.1 (by decide)
        by_contra large
        have scaled : base * base ≤ (c1 - v1 * d) * base :=
          mul_le_mul_of_nonneg_right (by omega) (by decide)
        omega
      have rest' : 0 ≤ c1 - v1 * (d - 1) ∧ c1 - v1 * (d - 1) ≤ 2 * base - 2 := by
        rw [mul_sub, mul_one]
        omega
      obtain ⟨q, looped, bounds, fits, most⟩ := ih (by omega) rest' (by omega)
      rw [show (d - 1).toNat + 1 = d.toNat by omega] at looped
      refine ⟨q, looped, by omega, fits, .inr ?_⟩
      rcases most with rfl | found
      · rw [sub_add_cancel]
        linarith
      · exact found
    · exact ⟨_, rfl, by omega, by rw [sub_add_cancel]; linarith, .inl (by ring)⟩

/-- `m_trq` finds a quotient of three digits by two. -/
theorem mTrq_spec {v1 v2 u1 u2 u3 : ℤ} (digit_v1 : 0 < v1 ∧ v1 < base)
    (digit_v2 : 0 ≤ v2 ∧ v2 < base) (digit_u2 : 0 ≤ u2 ∧ u2 < base) (digit_u3 : 0 ≤ u3 ∧ u3 < base)
    (u1_nonneg : 0 ≤ u1) (u1_le : u1 ≤ v1) :
    ∃ q, mTrq v1 v2 u1 u2 u3 = some q ∧ (0 ≤ q ∧ q < base) ∧
      q * (v1 * base + v2) ≤ (u1 * base + u2) * base + u3 ∧
      (q = base - 1 ∨ (u1 * base + u2) * base + u3 < (q + 1) * (v1 * base + v2)) := by
  have c1_long : ((long (u1 * base)).bind fun x => long (x + u2)) = some (u1 * base + u2) := by
    simp only [base] at digit_v1 digit_u2 ⊢
    rw [long_of_bounds (by omega) (by omega), bind_some, long_of_bounds (by omega) (by omega)]
  have c1_lt : u1 * base + u2 < 2 ^ 30 := by
    simp only [base] at digit_v1 digit_u2 ⊢
    omega
  have c1_nonneg : 0 ≤ u1 * base + u2 := by
    have shifted := mul_nonneg u1_nonneg (by decide : 0 ≤ base)
    omega
  have digit_v1' : 0 ≤ v1 ∧ v1 < base := ⟨digit_v1.1.le, digit_v1.2⟩
  rw [mTrq, c1_long]
  dsimp only
  split_ifs with same
  · subst same
    have rest : 0 ≤ u1 * base + u2 - u1 * 0o77777 ∧
        u1 * base + u2 - u1 * 0o77777 ≤ 2 * base - 2 := by
      simp only [base] at digit_v1 digit_u2 ⊢
      omega
    obtain ⟨q, looped, bounds, fits, most⟩ :=
      trqLoop_spec digit_v1' digit_v2 digit_u3 c1_lt (by decide) rest
    refine ⟨q, looped, ⟨bounds.1, lt_of_le_of_lt bounds.2 (by decide)⟩, fits, ?_⟩
    rcases most with rfl | found
    · exact .inl (by decide)
    · exact .inr found
  · have c1_le : u1 * base + u2 < v1 * base := by
      have scaled : (u1 + 1) * base ≤ v1 * base := mul_le_mul_of_nonneg_right (by omega) (by decide)
      linarith [digit_u2.2]
    have quotient_nonneg := Int.ediv_nonneg c1_nonneg digit_v1.1.le
    have quotient_lt : (u1 * base + u2) / v1 < base :=
      Int.ediv_lt_of_lt_mul digit_v1.1 (by linarith)
    have remainder := Int.emod_nonneg (u1 * base + u2) digit_v1.1.ne'
    have remainder_lt := Int.emod_lt_of_pos (u1 * base + u2) digit_v1.1
    have split := Int.mul_ediv_add_emod (u1 * base + u2) v1
    rw [Int.tdiv_eq_ediv_of_nonneg c1_nonneg, toShort_digit quotient_nonneg quotient_lt]
    obtain ⟨q, looped, bounds, fits, most⟩ :=
      trqLoop_spec digit_v1' digit_v2 digit_u3 c1_lt ⟨quotient_nonneg, quotient_lt⟩
      ⟨by omega, by omega⟩
    refine ⟨q, looped, ⟨bounds.1, by omega⟩, fits, .inr ?_⟩
    rcases most with rfl | found
    · have next : u1 * base + u2 + 1 ≤ ((u1 * base + u2) / v1 + 1) * v1 := by
        rw [add_mul, one_mul, mul_comm _ v1]
        omega
      have scaled := mul_le_mul_of_nonneg_right next (by decide : 0 ≤ base)
      have low_nonneg : 0 ≤ ((u1 * base + u2) / v1 + 1) * v2 := mul_nonneg (by omega) digit_v2.1
      calc (u1 * base + u2) * base + u3 < (u1 * base + u2 + 1) * base := by linarith [digit_u3.2]
        _ ≤ ((u1 * base + u2) / v1 + 1) * v1 * base := scaled
        _ ≤ ((u1 * base + u2) / v1 + 1) * (v1 * base + v2) := by linarith
    · exact found

/-! ### Multiples taken away -/

theorem dsbTake_spec {q old borrow d : ℤ} {i : ℕ} (at_i : v[i]? = some d) (digit : 0 ≤ d ∧ d < base)
    (old_digit : 0 ≤ old ∧ old < base) (digit_q : 0 ≤ q ∧ q < base)
    (bounds : -base < borrow ∧ borrow ≤ 0) :
    ∃ r c, dsbTake q v i old borrow = some (r, c) ∧ 0 ≤ r ∧ r < base ∧ (-base < c ∧ c ≤ 0) ∧
      r + base * c = 1 * old + -q * d + borrow := by
  simp only [base] at digit old_digit digit_q bounds
  have product_nonneg : 0 ≤ d * q := mul_nonneg digit.1 digit_q.1
  have product_le : d * q ≤ 32767 * 32767 := mul_le_mul (by omega) (by omega) digit_q.1 (by decide)
  rw [dsbTake, at_i]
  dsimp only
  rw [long_of_bounds (by omega) (by omega), bind_some, long_of_bounds (by omega) (by omega),
    bind_some, long_of_bounds (by omega) (by omega)]
  refine ⟨_, _, rfl, ?_⟩
  rw [toShort_low15]
  refine ⟨(low15_digit _).1, (low15_digit _).2, ?_, ?_⟩
  · simp only [shift15, base]
    omega
  · rw [low15_add_shift15]
    ring

theorem dsbAdd_spec {old carry d : ℤ} {i : ℕ} (at_i : v[i]? = some d) (digit : 0 ≤ d ∧ d < base)
    (old_digit : 0 ≤ old ∧ old < base) (bounds : 0 ≤ carry ∧ carry ≤ 1) :
    ∃ r c, dsbAdd v i old carry = some (r, c) ∧ 0 ≤ r ∧ r < base ∧ (0 ≤ c ∧ c ≤ 1) ∧
      r + base * c = 1 * old + 1 * d + carry := by
  simp only [base] at digit old_digit
  rw [dsbAdd, at_i]
  dsimp only
  rw [long_of_bounds (by omega) (by omega), map_some]
  refine ⟨_, _, rfl, ?_⟩
  rw [toShort_low15]
  refine ⟨(low15_digit _).1, (low15_digit _).2, ?_, ?_⟩
  · simp only [shift15, base]
    omega
  · rw [low15_add_shift15]
    ring

/-- A loop over a part of an array with the digits of another number. -/
theorem sweep_digits {step : ℕ → ℤ → ℤ → Option (ℤ × ℤ)} {P : ℤ → Prop} {r : ℤ}
    {win dv pre post : List ℤ} (length_eq : win.length = dv.length) (zero : P 0)
    (steps : ∀ i old d, win[i]? = some old → dv[i]? = some d → ∀ c, P c → ∃ digit c',
      step i old c = some (digit, c') ∧ 0 ≤ digit ∧ digit < base ∧ P c' ∧
        digit + base * c' = 1 * old + r * d + c) :
    ∃ win' carry, sweep step dv.length 0 pre.length (pre ++ (win ++ post)) 0 =
      some (pre ++ (win' ++ post), carry) ∧
      win'.length = dv.length ∧ IsDigits base win' ∧ P carry ∧
        value base win' + base ^ dv.length * carry = value base win + r * value base dv := by
  obtain ⟨win', carry, swept, same_length, is_digits, kept, total⟩ := @sweep_spec base step P win
    (List.zipWith (fun old d => 1 * old + r * d) win dv) 0 0
      (by rw [length_zipWith, length_eq, Nat.min_self]) zero
    (fun i old term at_i at_term c kept => by
      obtain ⟨old', d, at_i', at_d, rfl⟩ := getElem?_zipWith_eq_some.1 at_term
      obtain rfl : old = old' := some.inj (at_i.symm.trans at_i')
      rw [Nat.zero_add]
      exact steps i old d at_i at_d c kept)
    pre post
  rw [length_eq] at swept same_length total
  rw [value_zipWith 1 r length_eq, one_mul, add_zero] at total
  exact ⟨win', carry, swept, same_length, is_digits, kept, total⟩

/-- `m_dsb` leaves the rest of a division by the divisor, when the quotient is right or one too
large. -/
theorem mDsb_spec {q top : ℤ} {pre win post dv rv : List ℤ} (digits_v : IsDigits base dv)
    (digits_w : IsDigits base win) (digit_top : 0 ≤ top ∧ top < base)
    (length_eq : win.length = dv.length) (digit_q : 0 ≤ q ∧ q < base)
    (lower : (q - 1) * value base dv ≤ value base (win ++ [top]))
    (upper : value base (win ++ [top]) < (q + 1) * value base dv) :
    ∃ win' top' back, mDsb q dv.length (dv ++ rv) pre.length (pre ++ (win ++ top :: post)) =
        some (pre ++ (win' ++ top' :: post), back) ∧ win'.length = dv.length ∧ IsDigits base win' ∧
      value base win' < value base dv ∧
      value base (win ++ [top]) = value base dv * (if back then q - 1 else q) +
        value base win' := by
  obtain ⟨taken, borrow, swept, taken_length, taken_digits, bounds, total⟩ :=
    @sweep_digits (dsbTake q (dv ++ rv))
      (fun c => -base < c ∧ c ≤ 0) (-q) win dv pre (top :: post) length_eq (by decide)
      (fun i old d at_i at_d c bounds => dsbTake_spec (getElem?_of_digits at_d)
        (digit_of_getElem? digits_v at_d)
        (digit_of_getElem? digits_w at_i) digit_q bounds)
  rw [value_concat, length_eq] at lower upper ⊢
  have at_top : (pre ++ (taken ++ top :: post))[pre.length + dv.length]? = some top := by
    rw [getElem?_append_right (Nat.le_add_right _ _), Nat.add_sub_cancel_left, ← taken_length,
      getElem?_append_right (le_refl _), Nat.sub_self]
    rfl
  have borrow_long : long (borrow + top) = some (borrow + top) := by
    simp only [base] at bounds digit_top
    exact long_of_bounds (by omega) (by omega)
  have written : write (pre ++ (taken ++ top :: post)) (pre.length + dv.length : ℕ)
    (low15 (borrow + top)) = some (pre ++ (taken ++ low15 (borrow + top) :: post)) := by
    rw [← append_assoc, write_digit (by rw [length_append, taken_length]) (low15_digit _),
      append_assoc]
  have taken_nonneg := value_nonneg one_lt_base taken_digits
  have taken_lt := value_lt one_lt_base taken_digits
  have divisor_lt := value_lt one_lt_base digits_v
  rw [taken_length] at taken_lt
  have whole : value base taken + base ^ dv.length * (borrow + top) =
      value base win + base ^ dv.length * top - q * value base dv := by linear_combination total
  have power : 0 < base ^ dv.length := pow_pos (by decide) _
  rw [mDsb, swept]
  dsimp only
  rw [at_top]
  dsimp only
  rw [borrow_long]
  dsimp only
  rw [written]
  dsimp only
  split_ifs with fitted
  · have nonneg : 0 ≤ borrow + top := by
      simp only [shift15, base] at fitted
      omega
    have zero : borrow + top = 0 := by
      by_contra nonzero
      have scaled := mul_le_mul_of_nonneg_left (by omega : 1 ≤ borrow + top) power.le
      linarith
    rw [zero, mul_zero, add_zero] at whole
    refine ⟨taken, _, false, rfl, taken_length, taken_digits, by linarith, ?_⟩
    rw [if_neg (by rintro ⟨⟩), whole]
    ring
  · have negative : borrow + top ≤ -1 := by
      simp only [shift15, base] at fitted bounds digit_top
      omega
    obtain ⟨added, carry, swept', added_length, added_digits, bounds', total'⟩ :=
      @sweep_digits (dsbAdd (dv ++ rv))
        (fun c => 0 ≤ c ∧ c ≤ 1) 1 taken dv pre (low15 (borrow + top) :: post) taken_length
        (by decide) (fun i old d at_i at_d c bounds => dsbAdd_spec (getElem?_of_digits at_d)
          (digit_of_getElem? digits_v at_d) (digit_of_getElem? taken_digits at_i) bounds)
    have added_nonneg := value_nonneg one_lt_base added_digits
    have added_lt := value_lt one_lt_base added_digits
    rw [added_length] at added_lt
    have whole' : value base added + base ^ dv.length * (carry + (borrow + top)) =
        value base win + base ^ dv.length * top - (q - 1) * value base dv := by
          linear_combination total' + whole
    have scaled := mul_le_mul_of_nonneg_left negative power.le
    have zero : carry + (borrow + top) = 0 := by
      by_contra nonzero
      rcases Int.lt_or_gt_of_ne nonzero with below | above
      · have scaled' := mul_le_mul_of_nonneg_left (by omega : carry + (borrow + top) ≤ -1) power.le
        linarith
      · omega
    rw [zero, mul_zero, add_zero] at whole'
    rw [swept', map_some]
    refine ⟨added, _, true, rfl, added_length, added_digits, by linarith, ?_⟩
    rw [if_pos rfl, whole']
    ring

/-! ### Long division -/

theorem value_two (l : List ℤ) (d d' : ℤ) :
    value base (l ++ [d, d']) = (d' * base + d) * base ^ l.length + value base l := by
  rw [value_append, value, value, value]
  ring

/-- One step of the loop of `m_div`, on a part of the dividend that is less than the divisor times
the base. -/
theorem div_step {top v1 v2 : ℤ} {pre win post low rv : List ℤ}
    (digits_v : IsDigits base (low ++ [v2, v1])) (v1_pos : 0 < v1)
    (digits_w : IsDigits base (win ++ [top])) (length_eq : win.length = low.length + 2)
    (small : value base (win ++ [top]) < value base (low ++ [v2, v1]) * base) :
    ∃ u2 u3 qq, (win ++ top :: post)[low.length + 1]? = some u2 ∧
      (win ++ top :: post)[low.length]? = some u3 ∧
      mTrq v1 v2 top u2 u3 = some qq ∧ (0 ≤ qq ∧ qq < base) ∧
      ∃ win' top' back,
        mDsb qq (low.length + 2) (low ++ [v2, v1] ++ rv) pre.length (pre ++ (win ++ top :: post)) =
          some (pre ++ (win' ++ top' :: post), back) ∧ win'.length = low.length + 2 ∧
            IsDigits base win' ∧
        value base win' < value base (low ++ [v2, v1]) ∧
        value base (win ++ [top]) = value base (low ++ [v2, v1]) * (if back then qq - 1 else qq) +
          value base win' := by
  obtain ⟨high, u3, u2, rfl, high_length⟩ : ∃ high u3 u2, win = high ++ [u3, u2] ∧
      high.length = low.length := by
    obtain ⟨win1, u2, rfl⟩ :=
      (eq_nil_or_concat' win).resolve_left (by rintro rfl; exact nomatch length_eq)
    obtain ⟨high, u3, rfl⟩ :=
      (eq_nil_or_concat' win1).resolve_left (by rintro rfl; simp at length_eq)
    refine ⟨high, u3, u2, by simp, ?_⟩
    simp only [length_append, length_singleton] at length_eq
    omega
  obtain ⟨digits_low, digits_v'⟩ := isDigits_append.1 digits_v
  obtain ⟨digit_v2, digit_v1'⟩ := isDigits_cons.1 digits_v'
  have digit_v1 := (isDigits_cons.1 digit_v1').1
  obtain ⟨digits_win, digits_top⟩ := isDigits_append.1 digits_w
  have digit_top := (isDigits_cons.1 digits_top).1
  obtain ⟨digits_high, digits_u⟩ := isDigits_append.1 digits_win
  obtain ⟨digit_u3, digit_u2'⟩ := isDigits_cons.1 digits_u
  have digit_u2 := (isDigits_cons.1 digit_u2').1
  have low_bounds : 0 ≤ value base low ∧ value base low < base ^ low.length :=
    ⟨value_nonneg one_lt_base digits_low, value_lt one_lt_base digits_low⟩
  have high_bounds : 0 ≤ value base high ∧ value base high < base ^ low.length := by
    rw [← high_length]
    exact ⟨value_nonneg one_lt_base digits_high, value_lt one_lt_base digits_high⟩
  have power : 0 < base ^ low.length := pow_pos (by decide) _
  have window_eq : value base (high ++ [u3, u2] ++ [top]) =
      ((top * base + u2) * base + u3) * base ^ low.length + value base high := by
    rw [value_concat, value_two, length_append, high_length, pow_add]
    simp only [length_cons, length_nil]
    ring
  have top_le : top ≤ v1 := by
    by_contra larger
    have divisor_lt : value base (low ++ [v2, v1]) < (v1 + 1) * base * base ^ low.length := by
      rw [value_two]
      have scaled : (v1 * base + v2 + 1) * base ^ low.length ≤
          (v1 + 1) * base * base ^ low.length :=
        mul_le_mul_of_nonneg_right (by linarith [digit_v2.2]) power.le
      linarith
    have above : (v1 + 1) * base * base * base ^ low.length ≤
        value base (high ++ [u3, u2] ++ [top]) := by
      rw [window_eq]
      have scaled : (v1 + 1) * base ≤ top * base :=
        mul_le_mul_of_nonneg_right (by omega) (by decide)
      have scaled' : (v1 + 1) * base * base ≤ (top * base + u2) * base + u3 := by
        have shifted := mul_le_mul_of_nonneg_right
          (by linarith [digit_u2.1] : (v1 + 1) * base ≤ top * base + u2)
          (by decide : 0 ≤ base)
        linarith [digit_u3.1]
      linarith [mul_le_mul_of_nonneg_right scaled' power.le]
    have scaled := mul_lt_mul_of_pos_right divisor_lt (by decide : 0 < base)
    linarith
  obtain ⟨qq, tried, digit_qq, fits, most⟩ :=
    @mTrq_spec v1 v2 top u2 u3 ⟨v1_pos, digit_v1.2⟩ digit_v2 digit_u2 digit_u3
    digit_top.1 top_le
  have v_le : base ≤ v1 * base + v2 := by
    have scaled : 1 * base ≤ v1 * base := mul_le_mul_of_nonneg_right (by omega) (by decide)
    linarith [digit_v2.1]
  obtain ⟨lower, upper⟩ :=
    trial_quotient (value_two low v2 v1) window_eq power low_bounds high_bounds v_le
      digit_qq fits most
    small
  refine ⟨u2, u3, qq, ?_, ?_, tried, digit_qq, ?_⟩
  · rw [← high_length]
    simp
  · rw [← high_length]
    simp
  · have two : low.length + 2 = (low ++ [v2, v1]).length := by simp
    rw [two]
    exact mDsb_spec digits_v digits_win digit_top (length_eq.trans two) digit_qq lower upper

theorem Holds.split {j : ℕ} (holds : Holds (j + n) v x) :
    ∃ pre win post, v = pre ++ (win ++ post) ∧ pre.length = j ∧ win.length = n ∧ IsDigits base pre ∧
      IsDigits base win ∧
      x = value base pre + base ^ j * value base win := by
  obtain ⟨digits, rest, rfl, length_eq, is_digits, rfl⟩ := holds
  have pre_length : (digits.take j).length = j := by
    rw [length_take]
    omega
  rw [← take_append_drop j digits] at is_digits ⊢
  obtain ⟨pre_digits, win_digits⟩ := isDigits_append.1 is_digits
  refine ⟨digits.take j, digits.drop j, rest, append_assoc _ _ _, pre_length, ?_, pre_digits,
    win_digits, ?_⟩
  · rw [length_drop]
    omega
  · rw [value_append, pre_length]

/-- The loop of `m_div` divides. -/
theorem divLoop_spec {k : ℕ} {v1 v2 : ℤ} {low rv u q : List ℤ}
    (digits_v : IsDigits base (low ++ [v2, v1])) (v1_pos : 0 < v1)
    (holds : Holds (k + (low.length + 2)) u x) (small : x < value base (low ++ [v2, v1]) * base ^ k)
    (room : k ≤ q.length) :
    ∃ u' digits r, divLoop (low.length + 2) (low ++ [v2, v1] ++ rv) v1 v2 k u q =
      some (u', digits ++ q.drop k) ∧
      digits.length = k ∧ IsDigits base digits ∧ Holds (low.length + 2) u' r ∧
        r < value base (low ++ [v2, v1]) ∧
        x = value base (low ++ [v2, v1]) * value base digits + r := by
  induction k generalizing x u q with
  | zero =>
    rw [pow_zero, mul_one] at small
    rw [Nat.zero_add] at holds
    refine ⟨u, [], x, rfl, rfl, IsDigits.nil, holds, small, ?_⟩
    rw [value]
    ring
  | succ j ih =>
    rw [Nat.add_assoc, Nat.add_comm 1] at holds
    obtain ⟨pre, win1, post, rfl, pre_length, win_length, digits_pre, digits_win, rfl⟩ :=
      holds.split
    obtain ⟨win, top, rfl⟩ :=
      (eq_nil_or_concat' win1).resolve_left (by rintro rfl; cases win_length)
    rw [length_append, length_singleton] at win_length
    have power : 0 < base ^ j := pow_pos (by decide) j
    have pre_nonneg := value_nonneg one_lt_base digits_pre
    have pre_lt := value_lt one_lt_base digits_pre
    rw [pre_length] at pre_lt
    have window_small : value base (win ++ [top]) < value base (low ++ [v2, v1]) * base := by
      rw [pow_succ] at small
      refine lt_of_mul_lt_mul_left ?_ power.le
      linarith
    obtain ⟨u2, u3, qq, at_u2, at_u3, tried, digit_qq, win', top', back, taken, length', digits',
        rest_lt, total⟩ :=
      @div_step top v1 v2 pre win post low rv digits_v v1_pos digits_win (by omega) window_small
    have window_nonneg := value_nonneg one_lt_base digits_win
    have rest_nonneg := value_nonneg one_lt_base digits'
    have digit : 0 ≤ (if back then qq - 1 else qq) ∧ (if back then qq - 1 else qq) < base := by
      generalize (if back then qq - 1 else qq) = quotient at total
      have divisor_pos : 0 < value base (low ++ [v2, v1]) := by omega
      constructor
      · by_contra negative
        have scaled := mul_le_mul_of_nonneg_left (by omega : quotient ≤ -1) divisor_pos.le
        linarith
      · refine lt_of_mul_lt_mul_left ?_ divisor_pos.le
        linarith
    obtain ⟨q', written, dropped, same_length⟩ := @write_drop j _ q (by omega) digit
    have holds' : Holds (j + (low.length + 2)) (pre ++ (win' ++ top' :: post))
        (value base pre + base ^ j * value base win') := by
      refine ⟨pre ++ win',
        top' :: post, by rw [append_assoc], ?_, isDigits_append.2 ⟨digits_pre, digits'⟩, ?_⟩
      · rw [length_append, pre_length, length']
      · rw [value_append, pre_length]
    have small' : value base pre + base ^ j * value base win' < value base (low ++ [v2, v1]) *
        base ^ j := by
      have scaled := mul_le_mul_of_nonneg_left
        (by omega : value base win' + 1 ≤ value base (low ++ [v2, v1])) power.le
      linarith
    obtain ⟨u', digits, r, looped, digits_length, is_digits, holds_r, r_lt, divided⟩ :=
      @ih _ _ q' holds' small' (by omega)
    refine ⟨u', digits ++ [if back then qq - 1 else qq], r, ?_, ?_, ?_, holds_r, r_lt, ?_⟩
    · have at_top : (pre ++ (win ++ [top] ++ post))[j + (low.length + 2)]? = some top := by
        rw [← pre_length, getElem?_append_right (Nat.le_add_right _ _),
          Nat.add_sub_cancel_left, append_assoc, show low.length + 2 = win.length by omega,
          getElem?_append_right (le_refl _), Nat.sub_self]
        rfl
      have at_second : (pre ++ (win ++ [top] ++ post))[j + (low.length + 2) - 1]? = some u2 := by
        rw [← pre_length,
          show pre.length + (low.length + 2) - 1 = pre.length + (low.length + 1) by omega,
          getElem?_append_right (Nat.le_add_right _ _), Nat.add_sub_cancel_left,
          append_assoc]
        exact at_u2
      have at_third : (pre ++ (win ++ [top] ++ post))[j + (low.length + 2) - 2]? = some u3 := by
        rw [← pre_length,
          show pre.length + (low.length + 2) - 2 = pre.length + low.length by omega,
          getElem?_append_right (Nat.le_add_right _ _), Nat.add_sub_cancel_left,
          append_assoc]
        exact at_u3
      rw [divLoop, at_top, at_second, at_third]
      dsimp only
      rw [tried]
      dsimp only
      rw [toShort_digit digit_qq.1 digit_qq.2, ← pre_length, append_assoc win,
        singleton_append, taken]
      dsimp only
      rw [pre_length, written]
      dsimp only
      rw [looped, dropped, append_assoc, singleton_append]
    · rw [length_append, length_singleton, digits_length]
    · exact isDigits_append.2 ⟨is_digits, isDigits_cons.2 ⟨digit, IsDigits.nil⟩⟩
    · rw [value_concat digits, digits_length]
      linear_combination divided + base ^ j * total

/-- The factor that `m_div` multiplies both operands with is a digit, and keeps the length of the
divisor. -/
theorem factor_spec {top : ℤ} (digit : 0 < top ∧ top < base) :
    ∃ d, toShort (base.tdiv (top + 1)) = d ∧ (0 < d ∧ d < base) ∧ (top + 1) * d ≤ base := by
  have positive : 1 ≤ base / (top + 1) := Int.le_ediv_of_mul_le (by omega) (by omega)
  have lt : base / (top + 1) < base := Int.ediv_lt_self_of_pos_of_ne_one (by decide) (by omega)
  refine ⟨base / (top + 1), ?_, ⟨by omega, lt⟩, Int.mul_ediv_self_le (by omega)⟩
  rw [Int.tdiv_eq_ediv_of_nonneg (by decide), toShort_digit (by omega) lt]

theorem Holds.shorter (holds : Holds (n + 1) v x) (lt : x < base ^ n) : Holds n v x := by
  obtain ⟨d, y, -, digit, low, x_eq⟩ := holds.succ
  have zero : d = 0 := by
    by_contra nonzero
    have power : 0 ≤ base ^ n := pow_nonneg (by decide) n
    have scaled := mul_le_mul_of_nonneg_left (by omega : 1 ≤ d) power
    linarith [low.nonneg]
  rw [zero, mul_zero, add_zero] at x_eq
  rwa [x_eq]

/-- `mult` by one digit. -/
theorem mult_digit {d : ℤ} (stands : Stands a x) (a_len : a.len = n) (n_pos : n ≠ 0)
    (digit : 0 < d ∧ d < base) :
    ∃ d' c, mult junk a ⟨1, [d]⟩ = some (a, d', c) ∧ Holds (n + 1) c.val (x * d) := by
  have holds_d : Holds 1 [d] d :=
    ⟨[d], [], rfl, rfl, isDigits_cons.2 ⟨⟨digit.1.le, digit.2⟩, IsDigits.nil⟩, by simp [value]⟩
  have full_d : Full 1 d := fun _ => by
    rw [Nat.sub_self, pow_zero]
    exact digit.1
  have stands_d : Stands ⟨1, [d]⟩ d := Stands.of_nonneg (k := 1) rfl holds_d full_d
  obtain ⟨n', a_len', holds, full⟩ := stands.nonneg_cases (by omega)
  have abs_eq : a.len.natAbs = n := by omega
  obtain rfl : n' = n := by omega
  obtain ⟨c, multiplied, holds_c, -⟩ := @multCan_nonzero junk a ⟨1, [d]⟩ x d (by omega) one_ne_zero
    (by rwa [abs_eq]) holds_d
    (by rwa [abs_eq]) full_d
  rw [abs_eq] at holds_c
  refine ⟨⟨1, [d]⟩, c, ?_, holds_c⟩
  rw [mult, stands.mpMcan_eq, stands_d.mpMcan_eq]
  dsimp only
  rw [multiplied, map_some]

/-- The two highest digits of a divisor that was multiplied. -/
theorem Holds.two (holds : Holds (n + 2) v x) (full : base ^ (n + 1) ≤ x) :
    ∃ low v2 v1 rv, v = low ++ [v2, v1] ++ rv ∧ low.length = n ∧
      IsDigits base (low ++ [v2, v1]) ∧ 0 < v1 ∧
      value base (low ++ [v2, v1]) = x := by
  obtain ⟨digits, rest, rfl, length_eq, is_digits, rfl⟩ := holds
  obtain ⟨digits1, v1, rfl⟩ :=
    (eq_nil_or_concat' digits).resolve_left (by rintro rfl; exact nomatch length_eq)
  obtain ⟨low, v2, rfl⟩ :=
    (eq_nil_or_concat' digits1).resolve_left (by rintro rfl; simp at length_eq)
  simp only [length_append, length_singleton] at length_eq
  obtain ⟨digits_low, digits_top⟩ := isDigits_append.1 is_digits
  have digit := (isDigits_cons.1 digits_top).1
  have v1_pos : 0 < v1 := by
    by_contra not_pos
    obtain rfl : v1 = 0 := by omega
    have lt := value_lt one_lt_base digits_low
    rw [value_concat, mul_zero, add_zero] at full
    rw [length_append, length_singleton, show low.length = n by omega] at lt
    omega
  rw [append_assoc low] at is_digits ⊢
  exact ⟨low, v2, v1, rest, rfl, by omega, is_digits, v1_pos, rfl⟩

/-- The factor of the normalization makes the first digit of the divisor large and keeps its
length. -/
theorem scaled_top (holds : Holds (n + 1) v y) (y_le : base ^ n ≤ y) :
    ∃ top d, v[n]? = some top ∧ toShort (base.tdiv (top + 1)) = d ∧ (0 < d ∧ d < base) ∧
      base ^ n * d ≤ y * d ∧ y * d < base ^ (n + 1) := by
  obtain ⟨top, low_y, at_top, digit_top, low_holds, y_eq⟩ := holds.succ
  have power : 0 < base ^ n := pow_pos (by decide) _
  have top_pos : 0 < top := by
    by_contra not_pos
    obtain rfl : top = 0 := by omega
    have low_lt := low_holds.lt
    rw [mul_zero, add_zero] at y_eq
    omega
  obtain ⟨d, factor, digit_d, fits⟩ := factor_spec ⟨top_pos, digit_top.2⟩
  refine ⟨top, d, at_top, factor, digit_d, mul_le_mul_of_nonneg_right y_le digit_d.1.le, ?_⟩
  have y_lt : y < base ^ n * (top + 1) := by linarith [low_holds.lt]
  calc y * d < base ^ n * (top + 1) * d := mul_lt_mul_of_pos_right y_lt digit_d.1
    _ = base ^ n * ((top + 1) * d) := by ring
    _ ≤ base ^ n * base := mul_le_mul_of_nonneg_left fits power.le
    _ = base ^ (n + 1) := by ring

/-- The quotient of two numbers with a common factor, and the remainder, which has it too. -/
theorem ediv_emod_of_scaled {d q r : ℤ} (d_pos : 0 < d) (rest : 0 ≤ r ∧ r < y * d)
    (total : x * d = y * d * q + r) : q = x / y ∧ r / d = x % y := by
  have r_eq : r = d * (x - y * q) := by linear_combination -total
  have rest_nonneg : 0 ≤ x - y * q := by
    by_contra negative
    have scaled := mul_lt_mul_of_pos_left (by omega : x - y * q < 0) d_pos
    linarith [rest.1]
  have rest_lt : x - y * q < y := by
    refine lt_of_mul_lt_mul_left ?_ d_pos.le
    linarith [rest.2]
  obtain ⟨quotient, remainder⟩ :=
    ediv_emod_of_eq (by ring : x = y * q + (x - y * q)) ⟨rest_nonneg, rest_lt⟩
  exact ⟨quotient, by rw [r_eq, Int.mul_ediv_cancel_left _ d_pos.ne', remainder]⟩

/-- `m_div` by a divisor of two digits or more. -/
theorem longDiv_spec (stands_a : Stands a x) (stands_b : Stands b y) (b_long : 2 ≤ b.len)
    (longer : b.len ≤ a.len) :
    ∃ q r, longDiv junk a b = some (q, r) ∧ Stands q (x / y) ∧ Stands r (x % y) := by
  obtain ⟨k, a_len, holds_a, full_a⟩ := stands_a.nonneg_cases (by omega)
  obtain ⟨n, b_len, holds_b, full_b⟩ := stands_b.nonneg_cases (by omega)
  obtain ⟨n, rfl⟩ : ∃ n', n = n' + 2 := ⟨n - 2, by omega⟩
  obtain ⟨k, rfl⟩ : ∃ k', k = k' + (n + 2) := ⟨k - (n + 2), by omega⟩
  have y_le := full_b (by omega)
  have x_le := full_a (by omega)
  rw [show n + 2 - 1 = n + 1 by omega] at y_le
  have power : 0 < base ^ (n + 1) := pow_pos (by decide) _
  have y_pos : 0 < y := by omega
  obtain ⟨top, d, at_top, factor, digit_d, divisor_le, divisor_lt⟩ := scaled_top holds_b y_le
  obtain ⟨da, u, multiplied_a, holds_u⟩ := @mult_digit junk a (k + (n + 2)) x d stands_a a_len
    (by omega) digit_d
  obtain ⟨db, v, multiplied_b, holds_v⟩ :=
    @mult_digit junk b (n + 2) y d stands_b b_len (by omega) digit_d
  obtain ⟨low, v2, v1, rv, v_eq, low_length, digits_v, v1_pos, divisor_eq⟩ :=
    (holds_v.shorter divisor_lt).two
    (le_trans (le_mul_of_one_le_right power.le digit_d.1) divisor_le)
  have dividend_lt : x * d < value base (low ++ [v2, v1]) * base ^ (k + 1) := by
    have scaled := mul_le_mul_of_nonneg_right divisor_le (pow_nonneg (by decide : 0 ≤ base) (k + 1))
    rw [divisor_eq]
    calc x * d < base ^ (k + (n + 2)) * d := mul_lt_mul_of_pos_right holds_a.lt digit_d.1
      _ = base ^ (n + 1) * d * base ^ (k + 1) := by ring
      _ ≤ y * d * base ^ (k + 1) := scaled
  rw [show k + (n + 2) + 1 = k + 1 + (low.length + 2) by omega] at holds_u
  obtain ⟨u', digits, r, looped, digits_length, is_digits, holds_r, r_lt, total⟩ :=
    @divLoop_spec (x * d) (k + 1) v1 v2 low rv
    u.val (xalloc junk (k + 1)) digits_v v1_pos holds_u dividend_lt
      (by rw [xalloc, length_replicate]; omega)
  rw [divisor_eq] at r_lt total
  obtain ⟨quotient, exact_quotient⟩ := ediv_emod_of_scaled digit_d.1 ⟨holds_r.nonneg, r_lt⟩ total
  obtain ⟨c, stripped, stands_c⟩ := mpMcan_holds holds_r
  obtain ⟨w, divided, stands_w⟩ := @sdiv_spec junk c r d stands_c holds_r.nonneg digit_d.1 digit_d.2
  rw [exact_quotient] at stands_w
  have nearly_full : k ≠ 0 → base ^ (k - 1) ≤ value base digits := by
    intro k_ne
    rw [quotient]
    apply Int.le_ediv_of_mul_le y_pos
    calc base ^ (k - 1) * y ≤ base ^ (k - 1) * base ^ (n + 2) :=
          mul_le_mul_of_nonneg_left holds_b.lt.le (pow_nonneg (by decide) _)
      _ = base ^ (k + (n + 2) - 1) := by
          rw [← pow_add]
          congr 1
          omega
      _ ≤ x := x_le
  obtain ⟨q_top, at_q_top, stands_q⟩ :=
    @Stands.of_digits k digits ((xalloc junk (k + 1)).drop (k + 1)) is_digits digits_length
    nearly_full
  rw [quotient] at stands_q
  have b_toNat : b.len.toNat = n + 2 := by omega
  have q_length : a.len - (n + 2 : ℕ) + 1 = k + 1 := by omega
  have q_toNat : ((k : ℤ) + 1).toNat = k + 1 := by omega
  have at_v1 : v.val[n + 2 - 1]? = some v1 := by
    rw [v_eq, ← low_length]
    simp
  have at_v2 : v.val[n + 2 - 2]? = some v2 := by
    rw [v_eq, ← low_length]
    simp
  rw [low_length, ← v_eq] at looped
  rw [low_length] at stripped
  rw [longDiv, b_toNat]
  dsimp only
  rw [show b.val[n + 2 - 1]? = some top from at_top]
  dsimp only
  rw [factor, multiplied_a, multiplied_b]
  dsimp only
  rw [at_v1, at_v2]
  dsimp only
  rw [q_length, q_toNat, looped]
  dsimp only
  rw [stripped]
  dsimp only
  rw [divided, Nat.add_sub_cancel, at_q_top]
  have same : ((if q_top = 0 then k else k + 1) = 0) =
      ((if q_top = 0 then (k : ℤ) else k + 1) = 0) := by
    by_cases zero : q_top = 0
    · rw [if_pos zero, if_pos zero, Nat.cast_eq_zero]
    · rw [if_neg zero, if_neg zero, ← Nat.cast_add_one, Nat.cast_eq_zero]
  refine ⟨_, w, rfl, ?_, stands_w⟩
  push_cast
  simp only [same]
  exact stands_q

/-- `m_div` divides a number that is not negative by a positive one. -/
theorem mDiv_spec (stands_a : Stands a x) (stands_b : Stands b y) (x_nonneg : 0 ≤ x)
    (y_pos : 0 < y) :
    ∃ q r, mDiv junk a b = some (q, r) ∧ Stands q (x / y) ∧ Stands r (x % y) := by
  have a_nonneg := stands_a.nonneg_iff.2 x_nonneg
  have b_nonneg := stands_b.nonneg_iff.2 y_pos.le
  obtain ⟨n, a_len, holds_a, full_a⟩ := stands_a.nonneg_cases a_nonneg
  obtain ⟨m, b_len, holds_b, full_b⟩ := stands_b.nonneg_cases b_nonneg
  have b_pos : b.len ≠ 0 := by
    intro zero
    obtain rfl : m = 0 := by omega
    have y_zero := holds_b.zero
    omega
  rw [mDiv, if_neg b_pos]
  by_cases one : b.len = 1
  · obtain rfl : m = 1 := by omega
    obtain ⟨d, low, at_zero, digit, low_holds, y_eq⟩ := holds_b.succ
    obtain rfl : y = d := by rw [y_eq, low_holds.zero, pow_zero, zero_add, one_mul]
    obtain ⟨q, divided, stands_q⟩ := @sdiv_spec junk a x y stands_a x_nonneg y_pos digit.2
    have r_nonneg := Int.emod_nonneg x y_pos.ne'
    have r_lt := Int.emod_lt_of_pos x y_pos
    rw [if_pos one, at_zero]
    dsimp only
    rw [divided, map_some]
    refine ⟨q, _, rfl, stands_q, ?_⟩
    dsimp only
    split_ifs with zero
    · rw [zero]
      exact Stands.xfree
    · refine Stands.of_nonneg (k := 1) rfl ⟨[x % y], [], rfl, rfl, ?_, by simp [value]⟩ fun _ => ?_
      · exact isDigits_cons.2 ⟨⟨r_nonneg, r_lt.trans digit.2⟩, IsDigits.nil⟩
      · rw [Nat.sub_self, pow_zero]
        omega
  · rw [if_neg one]
    by_cases shorter : a.len < b.len
    · obtain ⟨r, moved, r_len, stands_r⟩ := @Stands.moved junk a x stands_a
      have x_lt : x < y := by
        have y_le := full_b (by omega)
        have power : base ^ n ≤ base ^ (m - 1) := pow_le_pow_right₀ (by decide) (by omega)
        have x_lt := holds_a.lt
        omega
      rw [if_pos shorter, moved, map_some, Int.ediv_eq_zero_of_lt x_nonneg x_lt,
        Int.emod_eq_of_lt x_nonneg x_lt]
      exact ⟨_, _, rfl, Stands.xfree, stands_r⟩
    · rw [if_neg shorter]
      exact longDiv_spec stands_a stands_b (by omega) (by omega)

end Sol25.Libmp
