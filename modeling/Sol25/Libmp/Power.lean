import Sol25.Libmp.Signed

/-!
# Powers

`pow` squares and multiplies along the bits of the exponent. `rpow` calls it with a modulus that is
meant to be larger than the power.
-/

namespace Sol25.Libmp

open Digits List Option Function

variable {junk : ℤ} {a b c d : Mint} {n : ℕ} {x z : ℤ} {v : List ℤ} {s : Store}

/-- One round of the inner loop of `pow`, for a digit that is shifted already: the basis, stripped
of leading zeroes, and the power. -/
def powStep (junk : ℤ) (c : Mint) (n : ℤ) (a d : Mint) : Option (Mint × Mint) :=
  match mult junk d d with
  | none => none
  | some (_, _, x) =>
    match mdiv junk x c with
    | none => none
    | some (_, d) =>
      if bit15 n then
        match mult junk a d with
        | none => none
        | some (a, _, x) => (mdiv junk x c).map fun r => (a, r.2)
      else some (a, d)

/-- The inner loop of `pow`, over the bits of a digit. -/
def powDigit (junk : ℤ) (c : Mint) : ℕ → ℤ → Mint → Mint → Option (Mint × Mint)
  | 0, _, a, d => some (a, d)
  | i + 1, n, a, d => (powStep junk c (2 * n) a d).bind fun r => powDigit junk c i (2 * n) r.1 r.2

/-- The outer loop of `pow`, over the digits of the exponent, from a number of them down. -/
def powLoop (junk : ℤ) (c : Mint) (b : List ℤ) : ℕ → Mint → Mint → Option (Mint × Mint)
  | 0, a, d => some (a, d)
  | j + 1, a, d =>
    match b[j]? with
    | none => none
    | some n => (powDigit junk c 15 n a d).bind fun r => powLoop junk c b j r.1 r.2

/-- A `MINT` of one digit in an array from `xalloc`. -/
def oneDigit (junk n : ℤ) : Mint := ⟨1, (xalloc junk 1).set 0 n⟩

/-- `pow`, with the result in its own place. -/
def pow (junk : ℤ) (a b c : Mint) : Option Mint :=
  match mpMove junk a, mpMove junk b, mpMove junk c with
  | some a, some b, some c => (powLoop junk c b.val b.len.toNat a (oneDigit junk 1)).map Prod.snd
  | _, _, _ => none

/-- `rpow`, with the result in its own place.  The length of the modulus is an `int`. -/
def rpow (junk : ℤ) (a : Mint) (n : ℤ) : Option Mint :=
  let len := (n * a.len + 4).bmod (2 ^ 32)
  -- The bytes that `xalloc` asks for wrap around, and the zeroes go behind them.
  if 2 ^ 31 ≤ len + 2 then none
  else
    match write (List.replicate len.toNat 0 ++ [junk, junk]) (len - 1) 0o10000 with
    | none => none
    | some val => pow junk a (oneDigit junk n) ⟨len, val⟩

/-- `pow` on variables. -/
def powAt (junk : ℤ) (s : Store) (a b c d : ℕ) : Option Store :=
  (pow junk (s a) (s b) (s c)).map fun r => update s d r

/-- `rpow` on variables. -/
def rpowAt (junk : ℤ) (s : Store) (a : ℕ) (n : ℤ) (b : ℕ) : Option Store :=
  (rpow junk (s a) n).map fun r => update s b r

/-! ### Remainders -/

theorem divSign_tmod (pos : 0 < z) : divSign x z * (|x| % |z|) = x.tmod z := by
  rw [divSign, if_neg (by omega : ¬z < 0), mul_one, abs_of_pos pos]
  split_ifs with negative
  · rw [abs_of_neg negative, neg_one_mul, ← Int.tmod_eq_emod_of_nonneg (by omega : 0 ≤ -x),
      Int.neg_tmod, neg_neg]
  · rw [abs_of_nonneg (not_lt.1 negative), one_mul, Int.tmod_eq_emod_of_nonneg (not_lt.1 negative)]

theorem mdiv_tmod (stands_a : Stands a x) (stands_c : Stands c z) (pos : 0 < z) :
    ∃ q r, mdiv junk a c = some (q, r) ∧ Stands r (x.tmod z) := by
  obtain ⟨q, r, divided, -, stands_r⟩ := @mdiv_signed junk _ _ _ _ stands_a stands_c pos.ne'
  rw [divSign_tmod pos] at stands_r
  exact ⟨q, r, divided, stands_r⟩

theorem mult_spec {y : ℤ} (stands_a : Stands a x) (stands_b : Stands b y) :
    ∃ c, mult junk a b = some (a, b, c) ∧ Stands c (x * y) := by
  obtain ⟨c, multiplied, stands_c⟩ := @multCan_spec junk _ _ _ _ stands_a stands_b
  rw [mult, stands_a.mpMcan_eq, stands_b.mpMcan_eq]
  dsimp only
  rw [multiplied, map_some]
  exact ⟨c, rfl, stands_c⟩

/-- A round doubles the exponent and adds the bit. -/
theorem powStep_spec {e : ℕ} (stands_a : Stands a x) (stands_c : Stands c z) (pos : 0 < z)
    (stands_d : Stands d ((x ^ e).tmod z)) (k : ℤ) :
    ∃ d', powStep junk c k a d = some (a, d') ∧
      Stands d' ((x ^ (2 * e + (k / base % 2).toNat)).tmod z) := by
  obtain ⟨square, squared, stands_square⟩ := @mult_spec junk _ _ _ _ stands_d stands_d
  obtain ⟨q, r, divided, stands_r⟩ := @mdiv_tmod junk _ _ _ _ stands_square stands_c pos
  rw [← Int.mul_tmod, ← pow_add, ← two_mul] at stands_r
  rw [powStep, squared]
  dsimp only
  rw [divided]
  dsimp only
  by_cases bit : bit15 k = true
  · obtain ⟨product, multiplied, stands_product⟩ := @mult_spec junk _ _ _ _ stands_a stands_r
    obtain ⟨q', r', divided', stands_r'⟩ := @mdiv_tmod junk _ _ _ _ stands_product stands_c pos
    rw [Int.mul_tmod, Int.tmod_tmod, ← Int.mul_tmod, ← pow_succ'] at stands_r'
    rw [if_pos bit, multiplied]
    dsimp only
    rw [divided', map_some, bit15_iff.1 bit]
    exact ⟨r', rfl, stands_r'⟩
  · have zero : k / base % 2 = 0 := by
      rw [bit15_iff] at bit
      omega
    rw [if_neg bit, zero]
    exact ⟨r, rfl, stands_r⟩

/-- The inner loop appends bits of a digit to the exponent, from the highest of them down. -/
theorem powDigit_spec (stands_a : Stands a x) (stands_c : Stands c z) (pos : 0 < z) (m i : ℕ)
    (le : i ≤ 15) {e : ℕ} (stands_d : Stands d ((x ^ e).tmod z)) :
    ∃ d', powDigit junk c i (2 ^ (15 - i) * m) a d = some (a, d') ∧
      Stands d' ((x ^ (e * 2 ^ i + m % 2 ^ i)).tmod z) := by
  induction i generalizing d e with
  | zero =>
    rw [pow_zero, mul_one, Nat.mod_one]
    exact ⟨d, rfl, stands_d⟩
  | succ i ih =>
    have shifted : (2 : ℤ) * (2 ^ (15 - (i + 1)) * m) = 2 ^ (15 - i) * m := by
      rw [← mul_assoc, ← pow_succ', show 15 - (i + 1) + 1 = 15 - i by omega]
    have bit : ((2 : ℤ) ^ (15 - i) * m / base % 2).toNat = m / 2 ^ i % 2 := by
      have split : base = 2 ^ (15 - i) * 2 ^ i := by
        rw [← pow_add, Nat.sub_add_cancel (by omega)]
        rfl
      have cast_eq : (m : ℤ) / 2 ^ i % 2 = ((m / 2 ^ i % 2 : ℕ) : ℤ) := by push_cast; rfl
      rw [split, Int.mul_ediv_mul_of_pos _ _ (by positivity), cast_eq, Int.toNat_natCast]
    obtain ⟨d', stepped, stands_d'⟩ :=
      @powStep_spec junk _ _ _ _ _ _ stands_a stands_c pos stands_d (2 ^ (15 - i) * m)
    obtain ⟨d'', looped, stands_d''⟩ := ih (by omega) stands_d'
    have exponent : (2 * e + ((2 : ℤ) ^ (15 - i) * m / base % 2).toNat) * 2 ^ i + m % 2 ^ i =
        e * 2 ^ (i + 1) + m % 2 ^ (i + 1) := by
      rw [bit, Nat.pow_succ, Nat.mod_mul]
      ring
    rw [powDigit, shifted, stepped, bind_some, looped]
    rw [exponent] at stands_d''
    exact ⟨d'', rfl, stands_d''⟩

/-- The outer loop appends the digits that are left. -/
theorem powLoop_spec (stands_a : Stands a x) (stands_c : Stands c z) (pos : 0 < z) {e m : ℕ}
    (holds : Holds n v m) (stands_d : Stands d ((x ^ e).tmod z)) :
    ∃ d', powLoop junk c v n a d = some (a, d') ∧
      Stands d' ((x ^ (e * 2 ^ (15 * n) + m)).tmod z) := by
  induction n generalizing d e m with
  | zero =>
    obtain rfl : m = 0 := by exact_mod_cast holds.zero
    rw [mul_zero, pow_zero, mul_one]
    exact ⟨d, rfl, stands_d⟩
  | succ n ih =>
    obtain ⟨digit, low, at_n, is_digit, low_holds, m_eq⟩ := holds.succ
    obtain ⟨digit, rfl⟩ := Int.eq_ofNat_of_zero_le is_digit.1
    obtain ⟨low, rfl⟩ := Int.eq_ofNat_of_zero_le low_holds.nonneg
    have digit_lt : digit < 2 ^ 15 := by
      have lt := is_digit.2
      simp only [base] at lt
      omega
    obtain ⟨d', stepped, stands_d'⟩ :=
      @powDigit_spec junk _ _ _ _ _ stands_a stands_c pos digit 15 le_rfl e stands_d
    obtain ⟨d'', looped, stands_d''⟩ := ih low_holds stands_d'
    have exponent : (e * 2 ^ 15 + digit % 2 ^ 15) * 2 ^ (15 * n) + low =
        e * 2 ^ (15 * (n + 1)) + m := by
      have m_nat : m = low + 2 ^ (15 * n) * digit := by
        have base_pow : base ^ n = ((2 ^ (15 * n) : ℕ) : ℤ) := by
          rw [pow_mul]
          push_cast
          rfl
        rw [base_pow] at m_eq
        exact_mod_cast m_eq
      rw [Nat.mod_eq_of_lt digit_lt, m_nat, Nat.mul_succ, pow_add]
      ring
    rw [Nat.sub_self, pow_zero, one_mul] at stepped
    rw [powLoop, at_n]
    dsimp only
    rw [stepped, bind_some, looped]
    rw [exponent] at stands_d''
    exact ⟨d'', rfl, stands_d''⟩

theorem oneDigit_holds {k : ℤ} (digit : 0 ≤ k ∧ k < base) :
    Holds 1 (oneDigit junk k).val k :=
  ⟨[k], [junk, junk], rfl, rfl, isDigits_cons.2 ⟨digit, IsDigits.nil⟩, by simp [value]⟩

theorem oneDigit_stands {k : ℤ} (digit : 0 < k ∧ k < base) : Stands (oneDigit junk k) k :=
  Stands.of_nonneg (k := 1) rfl (oneDigit_holds ⟨digit.1.le, digit.2⟩) fun _ => digit.1

/-- `pow` of any basis gives the remainder with the sign of the power. The exponent may have leading
zeroes. -/
theorem pow_spec {e : ℕ} (stands_a : Stands a x) (b_len : b.len = n) (holds_b : Holds n b.val e)
    (stands_c : Stands c z) (lt : 1 < z) :
    ∃ d, pow junk a b c = some d ∧ Stands d ((x ^ e).tmod z) := by
  obtain ⟨a', moved_a, -, stands_a'⟩ := @Stands.moved junk a x stands_a
  obtain ⟨c', moved_c, -, stands_c'⟩ := @Stands.moved junk c z stands_c
  have b_abs : b.len.natAbs = n := by omega
  obtain ⟨b', moved_b, b_len', holds_b'⟩ := @mpMove_spec junk b e (by rwa [b_abs])
  have b_toNat : b'.len.toNat = n := by omega
  have start : Stands (oneDigit junk 1) ((x ^ 0).tmod z) := by
    rw [pow_zero, Int.tmod_eq_of_lt (by decide) lt]
    exact oneDigit_stands (by decide)
  rw [b_abs] at holds_b'
  obtain ⟨d, looped, stands_d⟩ :=
    @powLoop_spec junk _ _ _ n _ _ _ stands_a' stands_c' (by omega) 0 e holds_b' start
  rw [zero_mul, zero_add] at stands_d
  rw [pow, moved_a, moved_b, moved_c]
  dsimp only
  rw [b_toNat, looped, map_some]
  exact ⟨d, rfl, stands_d⟩

/-! ### Powers without a modulus -/

/-- A digit that is written above zeroes. -/
theorem topDigit_stands {k : ℤ} (m : ℕ) (digit : 0 < k ∧ k < base) :
    ∃ val, write (List.replicate (m + 1) 0 ++ [junk, junk]) m k = some val ∧
      Stands ⟨(m + 1 : ℕ), val⟩ (k * base ^ m) := by
  have is_digit : 0 ≤ k ∧ k < base := ⟨digit.1.le, digit.2⟩
  have pre_length : (List.replicate m (0 : ℤ)).length = m := length_replicate
  have written := @write_digit m k (List.replicate m 0) [junk, junk] 0 pre_length is_digit
  rw [← singleton_append, ← append_assoc, ← replicate_succ'] at written
  have zeroes : IsDigits base (List.replicate m 0) := by
    intro d mem
    rw [eq_of_mem_replicate mem]
    decide
  have value_zeroes : value base (List.replicate m 0) = 0 := by
    clear written pre_length zeroes
    induction m with
    | zero => rfl
    | succ m ih => rw [replicate_succ, value, ih, mul_zero, add_zero]
  refine ⟨_, written, Stands.of_nonneg rfl ⟨List.replicate m 0 ++ [k], [junk, junk], ?_, ?_,
    isDigits_append.2 ⟨zeroes, isDigits_cons.2 ⟨is_digit, IsDigits.nil⟩⟩, ?_⟩ fun _ => ?_⟩
  · rw [append_assoc]
    rfl
  · rw [length_append, pre_length]
    rfl
  · rw [value_concat, value_zeroes, pre_length]
    ring
  · rw [Nat.add_sub_cancel]
    exact le_mul_of_one_le_left (pow_nonneg (by decide) m) digit.1

/-- The modulus of `rpow` has that many digits behind its first one. -/
def ModulusLen (a : Mint) (e m : ℕ) : Prop :=
  ((e : ℤ) * a.len + 4).bmod (2 ^ 32) = (m + 1 : ℕ) ∧ m + 3 < 2 ^ 31

theorem rpow_spec {e : ℕ} (stands_a : Stands a x) (e_lt : e < 32768) {m : ℕ}
    (len_eq : ModulusLen a e m) :
    ∃ d, rpow junk a e = some d ∧ Stands d ((x ^ e).tmod (0o10000 * base ^ m)) := by
  obtain ⟨len_eq, small⟩ := len_eq
  obtain ⟨val, written, stands_y⟩ := @topDigit_stands junk 0o10000 m (by decide)
  have lt : 1 < 0o10000 * base ^ m := by
    have power : 1 ≤ base ^ m := one_le_pow₀ (by decide)
    linarith
  obtain ⟨d, powered, stands_d⟩ := @pow_spec junk a (oneDigit junk e) _ 1 _ _ e stands_a rfl
    (oneDigit_holds ⟨by omega, by simp only [base]; omega⟩) stands_y lt
  rw [rpow, len_eq, if_neg (by omega), Int.toNat_natCast,
    show ((m + 1 : ℕ) : ℤ) - 1 = m by omega, written]
  dsimp only
  rw [powered]
  exact ⟨d, rfl, stands_d⟩

theorem rpow_outside {e : ℤ} (nonpos : (e * a.len + 4).bmod (2 ^ 32) ≤ 0) :
    rpow junk a e = none := by
  rw [rpow, if_neg (by omega), write, if_neg fun inside => by omega]

theorem tmod_eq_self_iff (pos : 0 < z) : x.tmod z = x ↔ |x| < z := by
  rcases le_or_gt 0 x with nonneg | negative
  · rw [Int.tmod_eq_emod_of_nonneg nonneg, abs_of_nonneg nonneg]
    constructor
    · intro same
      rw [← same]
      exact Int.emod_lt_of_pos x pos
    · exact Int.emod_eq_of_lt nonneg
  · rw [abs_of_neg negative, ← neg_inj, ← Int.neg_tmod, Int.tmod_eq_emod_of_nonneg (by omega)]
    constructor
    · intro same
      rw [← same]
      exact Int.emod_lt_of_pos _ pos
    · exact Int.emod_eq_of_lt (by omega)

/-- `rpow` is right where the power is below its modulus. -/
theorem rpow_fits_iff {e : ℕ} (stands_a : Stands a x) (e_lt : e < 32768) :
    (∃ d, rpow junk a e = some d ∧ Stands d (x ^ e)) ↔
      ∃ m, ModulusLen a e m ∧ |x| ^ e < 2 ^ 12 * base ^ m := by
  have fits {m : ℕ} (len_eq : ModulusLen a e m) :
      (∃ d, rpow junk a e = some d ∧ Stands d (x ^ e)) ↔ |x| ^ e < 2 ^ 12 * base ^ m := by
    obtain ⟨d, powered, stands_d⟩ := @rpow_spec junk a x e stands_a e_lt m len_eq
    have pos : (0 : ℤ) < 0o10000 * base ^ m := mul_pos (by decide) (pow_pos (by decide) m)
    rw [← abs_pow, show (2 : ℤ) ^ 12 = 0o10000 from rfl, ← tmod_eq_self_iff pos, powered]
    constructor
    · rintro ⟨d', ⟨⟩, stands_d'⟩
      rw [← stands_d.toInt_eq, stands_d'.toInt_eq]
    · intro same
      rw [same] at stands_d
      exact ⟨d, rfl, stands_d⟩
  constructor
  · intro right
    obtain ⟨d, powered, -⟩ := id right
    have positive : 0 < ((e : ℤ) * a.len + 4).bmod (2 ^ 32) := by
      by_contra nonpos
      rw [rpow_outside (not_lt.1 nonpos)] at powered
      cases powered
    have small : ¬ 2 ^ 31 ≤ ((e : ℤ) * a.len + 4).bmod (2 ^ 32) + 2 := by
      intro large
      rw [rpow, if_pos large] at powered
      cases powered
    have len_eq : ModulusLen a e (((e : ℤ) * a.len + 4).bmod (2 ^ 32) - 1).toNat :=
      ⟨by omega, by omega⟩
    exact ⟨_, len_eq, (fits len_eq).1 right⟩
  · rintro ⟨m, len_eq, lt⟩
    exact (fits len_eq).2 lt

/-- For a number that is not negative, the modulus of `rpow` is large enough just if its length does
not wrap around. -/
theorem Stands.rpow_nonneg_iff {e : ℕ} (stands : Stands a x) (nonneg : 0 ≤ x) (e_lt : e < 32768) :
    (∃ m, ModulusLen a e m ∧ |x| ^ e < 2 ^ 12 * base ^ m) ↔ (e : ℤ) * a.len + 6 < 2 ^ 31 := by
  obtain ⟨n, a_len, holds, full⟩ := stands.nonneg_cases (stands.nonneg_iff.2 nonneg)
  have product : (e : ℤ) * a.len = (n * e : ℕ) := by rw [a_len, Nat.mul_comm, Nat.cast_mul]
  rw [abs_of_nonneg nonneg, product]
  constructor
  · rintro ⟨m, ⟨len_eq, small⟩, lt⟩
    rw [product] at len_eq
    by_contra large
    -- The digits that are lost are more than the power may be short of.
    have wraps : m + 1 + e ≤ (n - 1) * e := by
      rw [Int.bmod_def] at len_eq
      rw [Nat.sub_mul, Nat.one_mul]
      split at len_eq <;> omega
    have n_pos : n ≠ 0 := by
      rintro rfl
      omega
    have power : base ^ ((n - 1) * e) ≤ x ^ e := by
      rw [pow_mul]
      exact pow_le_pow_left₀ (pow_nonneg (by decide) _) (full n_pos) e
    have below : (2 : ℤ) ^ 12 * base ^ m < base ^ ((n - 1) * e) := by
      calc (2 : ℤ) ^ 12 * base ^ m < base * base ^ m :=
            mul_lt_mul_of_pos_right (by decide) (pow_pos (by decide) m)
        _ = base ^ (m + 1) := (pow_succ' base m).symm
        _ ≤ base ^ ((n - 1) * e) := pow_le_pow_right₀ (by decide) (by omega)
    exact absurd lt (not_lt.2 (below.le.trans power))
  · intro short
    refine ⟨n * e + 3, ⟨?_, by omega⟩, ?_⟩
    · rw [product, Int.bmod_eq_of_le (by omega) (by omega)]
      omega
    · calc x ^ e ≤ (base ^ n) ^ e := pow_le_pow_left₀ nonneg holds.lt.le e
        _ = base ^ (n * e) := (pow_mul base n e).symm
        _ < 2 ^ 12 * base ^ 3 * base ^ (n * e) := lt_mul_left (pow_pos (by decide) _) (by decide)
        _ = 2 ^ 12 * base ^ (n * e + 3) := by ring

/-- `rpow` of a basis that is not negative is right unless the length of its modulus wraps around.
For a negative one the length is taken with the sign, and the power has to fit what is left. -/
theorem rpow_iff {e : ℕ} (stands_a : Stands a x) (e_lt : e < 32768) :
    (∃ d, rpow junk a e = some d ∧ Stands d (x ^ e)) ↔
      0 ≤ x ∧ (e : ℤ) * a.len + 6 < 2 ^ 31 ∨
      x < 0 ∧ ∃ m : ℕ, (4 - (e : ℤ) * a.len.natAbs).bmod (2 ^ 32) = m + 1 ∧ m + 3 < 2 ^ 31 ∧
        |x| ^ e < 2 ^ 12 * 2 ^ (15 * m) := by
  rw [rpow_fits_iff stands_a e_lt]
  by_cases nonneg : 0 ≤ x
  · simp only [nonneg, true_and, not_lt.2 nonneg, false_and, or_false]
    exact stands_a.rpow_nonneg_iff nonneg e_lt
  · have a_neg : a.len < 0 := stands_a.len_neg_iff.2 (not_le.1 nonneg)
    have length : (e : ℤ) * a.len + 4 = 4 - (e : ℤ) * a.len.natAbs := by
      rw [Int.ofNat_natAbs_of_nonpos a_neg.le]
      ring
    simp only [nonneg, false_and, not_le.1 nonneg, true_and, false_or, ModulusLen, length,
      and_assoc, Nat.cast_add, Nat.cast_one, pow_mul]
    rfl

end Sol25.Libmp
