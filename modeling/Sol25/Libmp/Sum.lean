import Sol25.Libmp.Model

/-!
# Sums and differences

`m_add` and `m_sub` on digits without a sign, and `madd` and `msub` with it.
-/

namespace Sol25.Libmp

open Digits List

variable {junk : ℤ} {a b c : Mint} {n m : ℕ} {x y : ℤ} {v : List ℤ}

theorem one_lt_base : 1 < base := by decide

variable {va : List ℤ} {fuel i : ℕ} {d old z : ℤ}

theorem toShort_digit (nonneg : 0 ≤ d) (lt : d < base) : toShort d = d := by
  simp only [toShort, base] at lt ⊢
  omega

theorem low15_digit (z : ℤ) : 0 ≤ low15 z ∧ low15 z < base := by
  simp only [low15, base]
  omega

theorem toShort_low15 (z : ℤ) : toShort (low15 z) = low15 z :=
  toShort_digit (low15_digit z).1 (low15_digit z).2

theorem low15_add_shift15 (z : ℤ) : low15 z + base * shift15 z = z := Int.emod_add_mul_ediv z base

theorem long_of_bounds (lower : -2 ^ 31 ≤ x) (upper : x < 2 ^ 31) : long x = some x :=
  if_pos ⟨lower, upper⟩

/-- The lowest digits of an array stand for a number. -/
def Holds (n : ℕ) (v : List ℤ) (x : ℤ) : Prop :=
  ∃ digits rest, v = digits ++ rest ∧ digits.length = n ∧ IsDigits base digits ∧
    value base digits = x

theorem Holds.nonneg (holds : Holds n v x) : 0 ≤ x := by
  obtain ⟨digits, rest, -, -, is_digits, rfl⟩ := holds
  exact value_nonneg one_lt_base is_digits

theorem Holds.lt (holds : Holds n v x) : x < base ^ n := by
  obtain ⟨digits, rest, -, rfl, is_digits, rfl⟩ := holds
  exact value_lt one_lt_base is_digits

/-- No leading zero digit. -/
def Full (n : ℕ) (x : ℤ) : Prop := n ≠ 0 → base ^ (n - 1) ≤ x

theorem xalloc_append {k : ℤ} (i : ℕ) (le : i ≤ k.toNat + 2) :
    xalloc junk k = List.replicate i junk ++ List.replicate (k.toNat + 2 - i) junk := by
  rw [replicate_append_replicate, xalloc]
  congr 1
  omega

theorem getElem?_of_digits {digits rest : List ℤ} {j : ℕ} (at_j : digits[j]? = some d) :
    (digits ++ rest)[j]? = some d := by
  rw [getElem?_append_left (List.getElem?_eq_some_iff.1 at_j).1]
  exact at_j

theorem digit_of_getElem? {digits : List ℤ} {j : ℕ} (is_digits : IsDigits base digits)
    (at_j : digits[j]? = some d) : 0 ≤ d ∧ d < base := is_digits d (mem_of_getElem? at_j)

theorem bit15_iff : bit15 z = true ↔ z / base % 2 = 1 := decide_eq_true_iff

/-! ### Sums -/

theorem carry_split (nonneg : 0 ≤ z) (lt : z < 2 * base) :
    if bit15 z then 0 ≤ low15 z ∧ low15 z < base ∧ low15 z + base * 1 = z else 0 ≤ z ∧
      z < base := by
  simp only [base] at lt ⊢
  split_ifs with set
  · simp only [bit15_iff, low15, base] at set ⊢
    omega
  · simp only [bit15_iff, base] at set
    omega

theorem addStep_spec {carry d' : ℤ} {vb : List ℤ} (at_a : va[i]? = some d) (at_b : vb[i]? = some d')
    (digit : 0 ≤ d ∧ d < base) (digit' : 0 ≤ d' ∧ d' < base) (bit : carry = 0 ∨ carry = 1) :
    ∃ r c', addStep va vb i old carry = some (r, c') ∧ 0 ≤ r ∧ r < base ∧ (c' = 0 ∨ c' = 1) ∧
      r + base * c' = 1 * d + 1 * d' + carry := by
  have split := @carry_split (carry + d + d') (by omega)
    (by simp only [base] at digit digit' ⊢; omega)
  simp only [addStep, at_a, at_b]
  split_ifs at split ⊢
  · refine ⟨_, _, rfl, ?_⟩
    rw [toShort_low15]
    exact ⟨split.1, split.2.1, .inr rfl, by linarith [split.2.2]⟩
  · refine ⟨_, _, rfl, ?_⟩
    rw [toShort_digit split.1 split.2]
    exact ⟨split.1, split.2, .inl rfl, by ring⟩

theorem addCarry_spec {carry : ℤ} (at_a : va[i]? = some d) (digit : 0 ≤ d ∧ d < base)
    (bit : carry = 0 ∨ carry = 1) :
    ∃ r c', addCarry va i old carry = some (r, c') ∧ 0 ≤ r ∧ r < base ∧ (c' = 0 ∨ c' = 1) ∧
      r + base * c' = d + carry := by
  have split := @carry_split (carry + d) (by omega) (by simp only [base] at digit ⊢; omega)
  simp only [addCarry, at_a]
  split_ifs at split ⊢
  · refine ⟨_, _, rfl, ?_⟩
    rw [toShort_low15]
    have is_one : carry = 1 := by
      have whole := split.2.2
      simp only [base] at digit whole
      omega
    exact ⟨split.1, split.2.1, bit, by rw [is_one] at split ⊢; linarith [split.2.2]⟩
  · refine ⟨_, _, rfl, ?_⟩
    rw [toShort_digit split.1 split.2]
    exact ⟨split.1, split.2, .inl rfl, by ring⟩

/-- Two loops, one over the places of both operands and one over the rest of the longer one. -/
theorem two_sweeps {step1 step2 : ℕ → ℤ → ℤ → Option (ℤ × ℤ)} {P : ℤ → Prop} {r s : ℤ}
    {da1 da2 db : List ℤ} {k : ℤ} (room : da1.length + da2.length ≤ k.toNat + 2)
    (length_eq : da1.length = db.length) (zero : P 0)
    (first : ∀ j old d d', da1[j]? = some d → db[j]? = some d' → ∀ c, P c → ∃ digit c',
      step1 j old c = some (digit, c') ∧ 0 ≤ digit ∧ digit < base ∧ P c' ∧
        digit + base * c' = r * d + s * d' + c)
    (second : ∀ j old d, da2[j]? = some d → ∀ c, P c → ∃ digit c',
      step2 (db.length + j) old c = some (digit, c') ∧ 0 ≤ digit ∧ digit < base ∧ P c' ∧
        digit + base * c' = r * d + c) :
    ∃ cval1 c1, sweep step1 db.length 0 0 (xalloc junk k) 0 = some (cval1, c1) ∧ ∃ digits c2,
      sweep step2 da2.length db.length db.length cval1 c1 =
        some (digits ++ List.replicate (k.toNat + 2 - (da1.length + da2.length)) junk, c2) ∧
      digits.length = da1.length + da2.length ∧ IsDigits base digits ∧ P c2 ∧
        value base digits + base ^ digits.length * c2 = r * value base (da1 ++ da2) + s *
          value base db := by
  have terms_length : (List.zipWith (fun d d' => r * d + s * d') da1 db).length =
      (List.replicate db.length junk).length := by
    rw [length_zipWith, length_eq, Nat.min_self, length_replicate]
  obtain ⟨low, c1, swept, low_length, low_digits, kept, low_value⟩ := @sweep_spec base step1 P
    (List.replicate db.length junk) (List.zipWith (fun d d' => r * d + s * d') da1 db) 0 0
      terms_length zero
    (fun j old term _ at_term c kept => by
      obtain ⟨d, d', at_a, at_b, rfl⟩ := getElem?_zipWith_eq_some.1 at_term
      rw [Nat.zero_add]
      exact first j old d d' at_a at_b c kept)
    [] (List.replicate (k.toNat + 2 - db.length) junk)
  have high_length : (da2.map fun d => r * d).length = (List.replicate da2.length junk).length := by
    rw [length_map, length_replicate]
  obtain ⟨high, c2, swept', high_length', high_digits, kept', high_value⟩ :=
    @sweep_spec base step2 P
    (List.replicate da2.length junk) (da2.map fun d => r * d) db.length c1 high_length kept
    (fun j old term _ at_term c kept => by
      rw [getElem?_map, Option.map_eq_some_iff] at at_term
      obtain ⟨d, at_a, rfl⟩ := at_term
      exact second j old d at_a c kept)
    low (List.replicate (k.toNat + 2 - (da1.length + da2.length)) junk)
  rw [length_replicate] at low_length high_length'
  refine ⟨low ++ List.replicate (k.toNat + 2 - db.length) junk, c1, ?_, low ++ high, c2, ?_, ?_,
    isDigits_append.2 ⟨low_digits, high_digits⟩, kept', ?_⟩
  · rw [xalloc_append db.length (by omega)]
    rw [length_replicate] at swept
    exact swept
  · have rest_eq : List.replicate da2.length junk ++ List.replicate
      (k.toNat + 2 - (da1.length + da2.length)) junk =
        List.replicate (k.toNat + 2 - db.length) junk := by
      rw [replicate_append_replicate]
      congr 1
      omega
    rw [length_replicate, low_length, rest_eq, ← append_assoc] at swept'
    exact swept'
  · rw [length_append, low_length, high_length', length_eq]
  · rw [value_zipWith r s length_eq, length_replicate] at low_value
    rw [value_map_mul, length_replicate] at high_value
    rw [value_append, value_append, length_append, low_length, high_length', length_eq, pow_add]
    linear_combination low_value + base ^ db.length * high_value

theorem split_digits {da db : List ℤ} (le : db.length ≤ da.length) :
    ∃ da1 da2, da = da1 ++ da2 ∧ da1.length = db.length ∧ da2.length = da.length - db.length :=
  ⟨da.take db.length, da.drop db.length,
    (take_append_drop _ _).symm, by rw [length_take]; omega,
    length_drop⟩

/-- `m_add` adds. -/
theorem mAdd_spec (a_len : a.len = n) (b_len : b.len = m) (le : m ≤ n) (holds_a : Holds n a.val x)
    (holds_b : Holds m b.val y) :
    ∃ c k, mAdd junk a b = some c ∧ c.len = (k : ℕ) ∧ Holds k c.val (x + y) ∧
      (k = n ∨ k = n + 1 ∧ base ^ n ≤ x + y) := by
  obtain ⟨da, ra, a_eq, rfl, digits_a, rfl⟩ := holds_a
  obtain ⟨db, rb, b_eq, rfl, digits_b, rfl⟩ := holds_b
  obtain ⟨da1, da2, rfl, length1, length2⟩ := split_digits le
  obtain ⟨digits1, digits2⟩ := isDigits_append.1 digits_a
  rw [append_assoc] at a_eq
  rw [length_append] at a_len le length2 ⊢
  obtain ⟨cval1, c1, swept1, digits, c2, swept2, length_eq, is_digits, bit, total⟩ :=
    @two_sweeps junk (addStep a.val b.val) (addCarry a.val)
      (fun c => c = 0 ∨ c = 1) 1 1 da1 da2 db (a.len + 1)
      (by omega) length1 (.inl rfl)
      (fun j old d d' at_a at_b c bit => addStep_spec (by rw [a_eq]; exact getElem?_of_digits at_a)
        (by rw [b_eq]; exact getElem?_of_digits at_b) (digit_of_getElem? digits1 at_a)
          (digit_of_getElem? digits_b at_b) bit)
      (fun j old d at_a c bit => by
        rw [one_mul]
        refine addCarry_spec ?_ (digit_of_getElem? digits2 at_a) bit
        rw [a_eq, ← length1, getElem?_append_right (Nat.le_add_right _ _), Nat.add_sub_cancel_left]
        exact getElem?_of_digits at_a)
  rw [one_mul, one_mul] at total
  have b_toNat : b.len.toNat = db.length := by omega
  have rest_toNat : (a.len - b.len).toNat = da2.length := by omega
  simp only [mAdd, b_toNat, rest_toNat, swept1, swept2]
  rcases bit with rfl | rfl
  · rw [mul_zero, add_zero] at total
    rw [if_neg (by decide)]
    split_ifs with none_left
    · refine ⟨xfree, 0, rfl, rfl, ⟨[], [], rfl, rfl, IsDigits.nil, ?_⟩, .inl (by omega)⟩
      obtain rfl : digits = [] := eq_nil_of_length_eq_zero (by omega)
      rw [← total]
    · exact ⟨_, _, rfl, by rw [a_len], ⟨digits, _, rfl, length_eq, is_digits, total⟩, .inl rfl⟩
  · have room : a.len.toNat <
        (digits ++ List.replicate ((a.len + 1).toNat + 2 - (da1.length + da2.length))
            junk).length := by
      rw [length_append, length_replicate]
      omega
    have a_toNat : a.len.toNat = digits.length := by omega
    have rest_pos : (a.len + 1).toNat + 2 - (da1.length + da2.length) = 2 + 1 := by omega
    rw [if_pos rfl, write, if_pos ⟨by omega, room⟩]
    have written : (digits ++ List.replicate ((a.len + 1).toNat + 2 - (da1.length + da2.length))
      junk).set a.len.toNat (toShort 1) = (digits ++ [1]) ++ [junk, junk] := by
      rw [rest_pos, a_toNat, toShort_digit (by decide) (by decide)]
      simp [replicate_succ]
    rw [written]
    have value_eq : value base (digits ++ [1]) = value base (da1 ++ da2) + value base db := by
      rw [value_concat]
      exact total
    refine ⟨_, da1.length + da2.length + 1,
      rfl, by dsimp only; omega, ⟨digits ++ [1], _, rfl, ?_, ?_, value_eq⟩, .inr ⟨rfl, ?_⟩⟩
    · rw [length_append, length_singleton, length_eq]
    · exact isDigits_append.2 ⟨is_digits, isDigits_cons.2 ⟨by decide, IsDigits.nil⟩⟩
    · rw [← value_eq, ← length_eq]
      exact le_value one_lt_base is_digits (by decide)

/-! ### Copies and leading zeroes -/

/-- `_mp_move` copies the digits. -/
theorem mpMove_spec (holds : Holds a.len.natAbs a.val x) :
    ∃ a', mpMove junk a = some a' ∧ a'.len = a.len ∧ Holds a.len.natAbs a'.val x := by
  rw [mpMove]
  split_ifs with zero
  · rw [zero] at holds ⊢
    obtain ⟨digits, rest, -, length_eq, is_digits, rfl⟩ := holds
    obtain rfl := eq_nil_of_length_eq_zero length_eq
    exact ⟨xfree, rfl, rfl, [], [], rfl, rfl, is_digits, rfl⟩
  · obtain ⟨digits, rest, a_eq, length_eq, is_digits, rfl⟩ := holds
    obtain ⟨copy, carry, swept, copy_length, copy_digits, rfl, total⟩ := @sweep_spec base
      (fun i _ carry => a.val[i]?.map fun d => (d, carry))
        (fun c => c = 0) (List.replicate a.len.natAbs junk) digits 0 0
      (by rw [length_replicate, length_eq]) rfl
      (fun j old d _ at_j c zero => by
        subst zero
        obtain ⟨nonneg, lt⟩ := digit_of_getElem? is_digits at_j
        have at_a : a.val[0 + j]? = some d := by
          rw [a_eq, Nat.zero_add]
          exact getElem?_of_digits at_j
        exact ⟨d, 0, by rw [at_a]; rfl, nonneg, lt, rfl, by ring⟩)
      [] (List.replicate 2 junk)
    have fresh : xalloc junk a.len.natAbs = List.replicate a.len.natAbs junk ++
        List.replicate 2 junk := by
      rw [replicate_append_replicate, xalloc, Int.toNat_natCast]
    rw [length_replicate] at swept copy_length
    rw [mul_zero, add_zero, add_zero] at total
    rw [fresh]
    rw [length_nil, nil_append, nil_append] at swept
    rw [swept]
    exact ⟨_, rfl, rfl, copy, _, rfl, copy_length, copy_digits, total⟩

theorem Holds.succ (holds : Holds (n + 1) v x) :
    ∃ d y, v[n]? = some d ∧ (0 ≤ d ∧ d < base) ∧ Holds n v y ∧ x = y + base ^ n * d := by
  obtain ⟨digits, rest, rfl, length_eq, is_digits, rfl⟩ := holds
  obtain ⟨low, d, rfl⟩ :=
    (eq_nil_or_concat' digits).resolve_left (by rintro rfl; exact nomatch length_eq)
  rw [length_append, length_singleton] at length_eq
  obtain ⟨low_digits, top_digit⟩ := isDigits_append.1 is_digits
  obtain rfl : low.length = n := by omega
  refine ⟨d, value base low, ?_, (isDigits_cons.1 top_digit).1,
    ⟨low, [d] ++ rest, ?_, rfl, low_digits, rfl⟩,
    value_concat low d⟩
  · rw [append_assoc, getElem?_append_right (le_refl _), Nat.sub_self]
    rfl
  · rw [append_assoc]

theorem Holds.zero (holds : Holds 0 v x) : x = 0 := by
  obtain ⟨digits, rest, -, length_eq, -, rfl⟩ := holds
  obtain rfl := eq_nil_of_length_eq_zero length_eq
  rfl

/-- The number of digits without leading zeroes. -/
theorem topLen_spec (holds : Holds n v x) :
    ∃ k, topLen v n = some k ∧ k ≤ n ∧ Holds k v x ∧ Full k x := by
  induction n generalizing x with
  | zero => exact ⟨0, rfl, le_refl 0, holds, fun impossible => absurd rfl impossible⟩
  | succ n ih =>
    obtain ⟨d, y, at_n, digit, low, rfl⟩ := holds.succ
    rw [topLen, at_n]
    dsimp only
    split_ifs with pos
    · refine ⟨n + 1, rfl, le_refl _, holds, fun _ => ?_⟩
      have y_nonneg := low.nonneg
      have power : 0 ≤ base ^ n := pow_nonneg (by decide) n
      rw [Nat.add_sub_cancel]
      nlinarith
    · obtain rfl : d = 0 := by omega
      rw [mul_zero, add_zero] at holds ⊢
      obtain ⟨k, found, le, holds_k, full⟩ := ih low
      exact ⟨k, found, by omega, holds_k, full⟩

theorem canLen_spec (holds : Holds n v x) :
    ∃ k, canLen v n = some k ∧ k ≤ n ∧ Holds k v x ∧ Full k x := by
  have same : ∀ n x, Holds n v x → canLen v n = topLen v n := by
    intro n
    induction n with
    | zero => exact fun _ _ => rfl
    | succ n ih =>
      intro x holds
      obtain ⟨d, y, at_n, digit, low, -⟩ := holds.succ
      rw [canLen, topLen, at_n, ih y low]
      dsimp only
      by_cases zero : d = 0
      · rw [if_pos zero, if_neg (by omega)]
      · rw [if_neg zero, if_pos (by omega)]
  rw [same n x holds]
  exact topLen_spec holds

/-! ### Differences -/

theorem borrow_split (le : -base ≤ z) (lt : z < base) :
    if bit15 z then z < 0 ∧ 0 ≤ low15 z ∧ low15 z < base ∧ low15 z + base * -1 = z else 0 ≤ z ∧
      z < base := by
  simp only [base] at le lt ⊢
  split_ifs with set
  · simp only [bit15_iff, low15, base] at set ⊢
    omega
  · simp only [bit15_iff, base] at set
    omega

theorem subStep_spec {borrow d' : ℤ} {vb : List ℤ} (at_a : va[i]? = some d)
    (at_b : vb[i]? = some d') (digit : 0 ≤ d ∧ d < base) (digit' : 0 ≤ d' ∧ d' < base)
    (bit : borrow = 0 ∨ borrow = -1) :
    ∃ r c', subStep va vb i old borrow = some (r, c') ∧ 0 ≤ r ∧ r < base ∧ (c' = 0 ∨ c' = -1) ∧
      r + base * c' = 1 * d + -1 * d' + borrow := by
  have split := @borrow_split (borrow + d - d') (by omega) (by omega)
  simp only [subStep, at_a, at_b]
  split_ifs at split ⊢
  · refine ⟨_, _, rfl, ?_⟩
    rw [toShort_low15]
    exact ⟨split.2.1, split.2.2.1, .inr rfl, by linarith [split.2.2.2]⟩
  · refine ⟨_, _, rfl, ?_⟩
    rw [toShort_digit split.1 split.2]
    exact ⟨split.1, split.2, .inl rfl, by ring⟩

theorem subBorrow_spec {borrow : ℤ} (at_a : va[i]? = some d) (digit : 0 ≤ d ∧ d < base)
    (bit : borrow = 0 ∨ borrow = -1) :
    ∃ r c', subBorrow va i old borrow = some (r, c') ∧ 0 ≤ r ∧ r < base ∧ (c' = 0 ∨ c' = -1) ∧
      r + base * c' = 1 * d + borrow := by
  have split := @borrow_split (borrow + d) (by simp only [base] at digit ⊢; omega) (by omega)
  simp only [subBorrow, at_a]
  split_ifs at split ⊢
  · refine ⟨_, _, rfl, ?_⟩
    rw [toShort_low15]
    obtain rfl : borrow = -1 := by omega
    exact ⟨split.2.1, split.2.2.1, bit, by linarith [split.2.2.2]⟩
  · refine ⟨_, _, rfl, ?_⟩
    rw [toShort_digit split.1 split.2]
    exact ⟨split.1, split.2, .inl rfl, by ring⟩

/-- The loops of `m_sub` leave a difference, or a borrow and a difference too large by a power of
the base. -/
theorem subLoops_spec (a_len : a.len = n) (b_len : b.len = m) (le : m ≤ n)
    (holds_a : Holds n a.val x) (holds_b : Holds m b.val y) :
    ∃ cval borrow z, subLoops junk a b = some (cval, borrow) ∧ Holds n cval z ∧
      (borrow = 0 ∨ borrow = -1) ∧
      z + base ^ n * borrow = x - y := by
  obtain ⟨da, ra, a_eq, rfl, digits_a, rfl⟩ := holds_a
  obtain ⟨db, rb, b_eq, rfl, digits_b, rfl⟩ := holds_b
  obtain ⟨da1, da2, rfl, length1, length2⟩ := split_digits le
  obtain ⟨digits1, digits2⟩ := isDigits_append.1 digits_a
  rw [append_assoc] at a_eq
  rw [length_append] at a_len le length2 ⊢
  obtain ⟨cval1, c1, swept1, digits, c2, swept2, length_eq, is_digits, bit, total⟩ :=
    @two_sweeps junk (subStep a.val b.val) (subBorrow a.val)
      (fun c => c = 0 ∨ c = -1) 1 (-1) da1 da2 db a.len
      (by omega) length1 (.inl rfl)
      (fun j old d d' at_a at_b c bit => subStep_spec (by rw [a_eq]; exact getElem?_of_digits at_a)
        (by rw [b_eq]; exact getElem?_of_digits at_b) (digit_of_getElem? digits1 at_a)
          (digit_of_getElem? digits_b at_b) bit)
      (fun j old d at_a c bit => by
        refine subBorrow_spec ?_ (digit_of_getElem? digits2 at_a) bit
        rw [a_eq, ← length1, getElem?_append_right (Nat.le_add_right _ _), Nat.add_sub_cancel_left]
        exact getElem?_of_digits at_a)
  have b_toNat : b.len.toNat = db.length := by omega
  have rest_toNat : (a.len - b.len).toNat = da2.length := by omega
  simp only [subLoops, b_toNat, rest_toNat, swept1]
  refine ⟨_, c2, value base digits, swept2, ⟨digits, _, rfl, length_eq, is_digits, rfl⟩, bit, ?_⟩
  rw [← length_eq]
  linear_combination total

theorem xor_digit (digit : 0 ≤ d ∧ d < base) :
    toShort ((d.toNat ^^^ 0o77777 : ℕ) : ℤ) = 0o77777 - d := by
  have lt : d.toNat < 2 ^ 15 := by
    simp only [base] at digit
    omega
  have complement : d.toNat ^^^ 0o77777 = 0o77777 - d.toNat := by
    have same := congrArg BitVec.toNat (BitVec.xor_allOnes (x := BitVec.ofNat 15 d.toNat))
    rw [BitVec.toNat_xor, BitVec.toNat_allOnes, BitVec.toNat_not, BitVec.toNat_ofNat,
      Nat.mod_eq_of_lt lt] at same
    exact same
  rw [complement]
  simp only [toShort, base] at digit ⊢
  omega

/-- All digits taken from the highest digit. -/
theorem xor_spec (holds : Holds n v x) :
    ∃ v' c, sweep xorStep n 0 0 v 0 = some (v', c) ∧ Holds n v' (base ^ n - 1 - x) := by
  obtain ⟨digits, rest, rfl, rfl, is_digits, rfl⟩ := holds
  obtain ⟨flipped, carry, swept, same_length, flipped_digits, rfl, total⟩ :=
    @sweep_spec base xorStep (fun c => c = 0)
    digits (digits.map fun d => 0o77777 - d) 0 0 (length_map _) rfl
    (fun j old term at_j at_term c zero => by
      subst zero
      rw [getElem?_map, at_j] at at_term
      obtain rfl := Option.some.inj at_term
      have digit := digit_of_getElem? is_digits at_j
      refine ⟨0o77777 - old, 0, by rw [xorStep, xor_digit digit], ?_, ?_, rfl, by ring⟩
      · simp only [base] at digit
        omega
      · simp only [base] at digit ⊢
        omega)
    [] rest
  have complement : ∀ l : List ℤ,
      value base (l.map fun d => 0o77777 - d) = base ^ l.length - 1 - value base l := by
    intro l
    induction l with
    | nil => simp [value]
    | cons d l ih =>
      rw [map_cons, value, value, ih, length_cons, pow_succ]
      have base_eq : base = 0o77777 + 1 := rfl
      linear_combination -base_eq
  rw [length_nil, nil_append, nil_append] at swept
  rw [complement, mul_zero, add_zero, add_zero] at total
  exact ⟨_, _, swept, flipped, rest, rfl, same_length, flipped_digits, total⟩

/-! ### Signs -/

/-- A `MINT` stands for a number, without leading zeroes. -/
def Stands (a : Mint) (x : ℤ) : Prop :=
  ∃ y, Holds a.len.natAbs a.val y ∧ Full a.len.natAbs y ∧ x = a.len.sign * y

theorem Stands.of_nonneg {k : ℕ} (len_eq : c.len = k) (holds : Holds k c.val x) (full : Full k x) :
    Stands c x := by
  have abs_eq : c.len.natAbs = k := by rw [len_eq, Int.natAbs_natCast]
  refine ⟨x, by rwa [abs_eq], by rwa [abs_eq], ?_⟩
  rw [len_eq]
  cases k with
  | zero =>
    rw [holds.zero]
    rfl
  | succ k => rw [Int.sign_eq_one_of_pos (by omega), one_mul]

theorem Stands.neg (stands : Stands a x) : Stands { a with len := -a.len } (-x) := by
  obtain ⟨y, holds, full, rfl⟩ := stands
  refine ⟨y, ?_, ?_, ?_⟩
  · rwa [Int.natAbs_neg]
  · rwa [Int.natAbs_neg]
  · rw [Int.sign_neg, neg_mul]

theorem Stands.signed_neg (stands : Stands c x) : Stands (signed (-1) c) (-x) := by
  have negated := stands.neg
  rwa [signed, neg_one_mul]

theorem Stands.nonneg_cases (stands : Stands a x) (nonneg : 0 ≤ a.len) :
    ∃ n : ℕ, a.len = n ∧ Holds n a.val x ∧ Full n x := by
  obtain ⟨y, holds, full, x_eq⟩ := stands
  refine ⟨a.len.natAbs, by omega, ?_⟩
  rcases nonneg.lt_or_eq with pos | zero
  · rw [Int.sign_eq_one_of_pos pos, one_mul] at x_eq
    rw [x_eq]
    exact ⟨holds, full⟩
  · rw [← zero] at holds full x_eq ⊢
    rw [Int.sign_zero, zero_mul] at x_eq
    obtain rfl : y = 0 := Holds.zero holds
    rw [x_eq]
    exact ⟨holds, full⟩

theorem Stands.nonneg_iff (stands : Stands a x) : 0 ≤ a.len ↔ 0 ≤ x := by
  constructor
  · intro nonneg
    obtain ⟨n, -, holds, -⟩ := stands.nonneg_cases nonneg
    exact holds.nonneg
  · obtain ⟨y, holds, full, rfl⟩ := stands
    intro nonneg
    by_contra negative
    have sign_eq := Int.sign_eq_neg_one_of_neg (by omega : a.len < 0)
    have y_le := full (by omega : a.len.natAbs ≠ 0)
    have power : 0 < base ^ (a.len.natAbs - 1) := pow_pos (by decide) _
    rw [sign_eq] at nonneg
    omega

/-- `madd` of operands without a sign. -/
theorem madd_nonneg (a_len : a.len = n) (b_len : b.len = m) (holds_a : Holds n a.val x)
    (holds_b : Holds m b.val y) :
    ∃ c k, madd junk (fuel + 1) a b = some c ∧ c.len = (k : ℕ) ∧ Holds k c.val (x + y) ∧
      (k = max n m ∨ k = max n m + 1 ∧ base ^ max n m ≤ x + y) := by
  have abs_a : a.len.natAbs = n := by rw [a_len, Int.natAbs_natCast]
  have abs_b : b.len.natAbs = m := by rw [b_len, Int.natAbs_natCast]
  obtain ⟨a', moved_a, len_a, holds_a'⟩ := @mpMove_spec junk a x (by rwa [abs_a])
  obtain ⟨b', moved_b, len_b, holds_b'⟩ := @mpMove_spec junk b y (by rwa [abs_b])
  rw [abs_a] at holds_a'
  rw [abs_b] at holds_b'
  rw [madd, moved_a, moved_b]
  dsimp only
  rw [if_pos (by omega), if_pos (by omega)]
  split_ifs with le
  · rw [max_eq_left (by omega)]
    exact mAdd_spec (len_a.trans a_len) (len_b.trans b_len) (by omega) holds_a' holds_b'
  · rw [max_eq_right (by omega), add_comm x y]
    exact mAdd_spec (len_b.trans b_len) (len_a.trans a_len) (by omega) holds_b' holds_a'

theorem subEnd_spec {alen borrow : ℤ} (alen_eq : alen = n) (holds : Holds n v x) :
    ∃ c, subEnd alen borrow v = some c ∧ Stands c (if borrow = 0 then x else -x) := by
  obtain ⟨k, found, -, holds_k, full⟩ := topLen_spec holds
  rw [subEnd, alen_eq, Int.toNat_natCast, found]
  refine ⟨_, rfl, ?_⟩
  dsimp only
  by_cases zero : k = 0
  · rw [zero] at holds_k
    rw [if_pos zero, holds_k.zero, neg_zero, ite_self]
    exact Stands.of_nonneg (k := 0) rfl ⟨[], [], rfl, rfl, IsDigits.nil, rfl⟩ fun impossible =>
      absurd rfl impossible
  rw [if_neg zero]
  split_ifs
  · exact Stands.of_nonneg rfl holds_k full
  · exact (Stands.of_nonneg (c := ⟨k, v⟩) rfl holds_k full).neg

/-- `m_sub` subtracts a number with no more digits. -/
theorem mSub_spec (a_len : a.len = n) (b_len : b.len = m) (le : m ≤ n) (holds_a : Holds n a.val x)
    (holds_b : Holds m b.val y) :
    ∃ c, mSub junk (fuel + 2) a b = some c ∧ Stands c (x - y) := by
  obtain ⟨cval, borrow, z, looped, holds, bit, total⟩ :=
    @subLoops_spec junk a b n m x y a_len b_len le holds_a holds_b
  rw [mSub, looped]
  rcases bit with rfl | rfl
  · rw [mul_zero, add_zero] at total
    rw [total] at holds
    obtain ⟨c, ended, stands⟩ := @subEnd_spec n (x - y) cval a.len 0 a_len holds
    exact ⟨c, ended, stands⟩
  · obtain ⟨flipped, carry, swept, holds'⟩ := xor_spec holds
    have y_lt : y < base ^ n := lt_of_lt_of_le holds_b.lt (pow_le_pow_right₀ (by decide) le)
    have x_nonneg := holds_a.nonneg
    have z_lt := holds.lt
    have one : Holds 1 [1] 1 := ⟨[1], [], rfl, rfl, isDigits_cons.2 ⟨by decide, IsDigits.nil⟩, rfl⟩
    have n_pos : 0 < n := by
      by_contra zero
      obtain rfl : n = 0 := by omega
      rw [pow_zero] at total z_lt y_lt
      have y_nonneg := holds_b.nonneg
      have z_nonneg := holds.nonneg
      omega
    obtain ⟨c, k, added, c_len, holds_c, longer⟩ :=
      @madd_nonneg junk ⟨a.len, flipped⟩ ⟨1, [1]⟩ n 1 _ 1 fuel a_len rfl holds' one
    have a_toNat : a.len.toNat = n := by omega
    dsimp only
    rw [if_pos (by decide), a_toNat, swept]
    dsimp only
    rw [added]
    have difference : base ^ n - 1 - z + 1 = y - x := by linarith
    rw [difference] at holds_c longer
    rw [max_eq_left (by omega)] at longer
    have k_eq : k = n := by
      rcases longer with same | ⟨-, too_large⟩
      · exact same
      · omega
    rw [k_eq] at holds_c
    obtain ⟨c', ended, stands⟩ := @subEnd_spec n (y - x) c.val a.len (-1) a_len holds_c
    rw [if_neg (by decide), neg_sub] at stands
    exact ⟨c', ended, stands⟩

/-- `msub` of operands without a sign. -/
theorem msub_nonneg (a_len : a.len = n) (b_len : b.len = m) (holds_a : Holds n a.val x)
    (holds_b : Holds m b.val y) : ∃ c, msub junk (fuel + 4) a b = some c ∧ Stands c (x - y) := by
  have abs_a : a.len.natAbs = n := by rw [a_len, Int.natAbs_natCast]
  have abs_b : b.len.natAbs = m := by rw [b_len, Int.natAbs_natCast]
  have ordered : ∀ {fuel : ℕ} {a b : Mint} {n m : ℕ} {x y : ℤ}, a.len = n → b.len = m → m ≤ n →
    Holds n a.val x →
      Holds m b.val y → ∃ c, msub junk (fuel + 3) a b = some c ∧ Stands c (x - y) := by
    intro fuel a b n m x y a_len b_len le holds_a holds_b
    obtain ⟨a', moved_a, len_a, holds_a'⟩ :=
      @mpMove_spec junk a x (by rwa [a_len, Int.natAbs_natCast])
    obtain ⟨b', moved_b, len_b, holds_b'⟩ :=
      @mpMove_spec junk b y (by rwa [b_len, Int.natAbs_natCast])
    rw [a_len, Int.natAbs_natCast] at holds_a'
    rw [b_len, Int.natAbs_natCast] at holds_b'
    rw [msub, moved_a, moved_b]
    dsimp only
    rw [if_pos (by omega), if_pos (by omega), if_pos (by omega)]
    exact mSub_spec (len_a.trans a_len) (len_b.trans b_len) le holds_a' holds_b'
  by_cases le : m ≤ n
  · exact ordered a_len b_len le holds_a holds_b
  · obtain ⟨a', moved_a, len_a, holds_a'⟩ := @mpMove_spec junk a x (by rwa [abs_a])
    obtain ⟨b', moved_b, len_b, holds_b'⟩ := @mpMove_spec junk b y (by rwa [abs_b])
    rw [abs_a] at holds_a'
    rw [abs_b] at holds_b'
    rw [msub, moved_a, moved_b]
    dsimp only
    rw [if_pos (by omega), if_pos (by omega), if_neg (by omega)]
    obtain ⟨c, subtracted, stands⟩ :=
      @ordered fuel b' a' m n y x (len_b.trans b_len) (len_a.trans a_len) (by omega)
      holds_b' holds_a'
    rw [subtracted]
    have negated := stands.signed_neg
    rw [neg_sub] at negated
    exact ⟨_, rfl, negated⟩

theorem Stands.moved (stands : Stands a x) :
    ∃ a', mpMove junk a = some a' ∧ a'.len = a.len ∧ Stands a' x := by
  obtain ⟨y, holds, full, x_eq⟩ := stands
  obtain ⟨a', moved, len_eq, holds'⟩ := @mpMove_spec junk a y holds
  refine ⟨a', moved, len_eq, y, ?_, ?_, ?_⟩
  · rwa [len_eq]
  · rwa [len_eq]
  · rwa [len_eq]

theorem Stands.add_nonneg (stands_a : Stands a x) (stands_b : Stands b y) (a_nonneg : 0 ≤ a.len)
    (b_nonneg : 0 ≤ b.len) :
    ∃ c, madd junk (fuel + 1) a b = some c ∧ Stands c (x + y) := by
  obtain ⟨n, a_len, holds_a, full_a⟩ := stands_a.nonneg_cases a_nonneg
  obtain ⟨m, b_len, holds_b, full_b⟩ := stands_b.nonneg_cases b_nonneg
  obtain ⟨c, k, added, c_len, holds_c, longer⟩ :=
    @madd_nonneg junk a b n m x y fuel a_len b_len holds_a holds_b
  refine ⟨c, added, Stands.of_nonneg c_len holds_c fun k_pos => ?_⟩
  have x_nonneg := holds_a.nonneg
  have y_nonneg := holds_b.nonneg
  rcases longer with rfl | ⟨rfl, le_sum⟩
  · rcases Nat.le_total m n with le | le
    · rw [max_eq_left le] at k_pos ⊢
      have x_le := full_a k_pos
      omega
    · rw [max_eq_right le] at k_pos ⊢
      have y_le := full_b k_pos
      omega
  · exact le_sum

theorem Stands.sub_nonneg (stands_a : Stands a x) (stands_b : Stands b y) (a_nonneg : 0 ≤ a.len)
    (b_nonneg : 0 ≤ b.len) :
    ∃ c, msub junk (fuel + 4) a b = some c ∧ Stands c (x - y) := by
  obtain ⟨n, a_len, holds_a, -⟩ := stands_a.nonneg_cases a_nonneg
  obtain ⟨m, b_len, holds_b, -⟩ := stands_b.nonneg_cases b_nonneg
  exact msub_nonneg a_len b_len holds_a holds_b

/-- `madd` adds. -/
theorem madd_spec (stands_a : Stands a x) (stands_b : Stands b y) :
    ∃ c, madd junk depth a b = some c ∧ Stands c (x + y) := by
  obtain ⟨a', moved_a, len_a, stands_a'⟩ := @Stands.moved junk a x stands_a
  obtain ⟨b', moved_b, len_b, stands_b'⟩ := @Stands.moved junk b y stands_b
  rw [depth]
  by_cases a_nonneg : 0 ≤ a'.len
  · by_cases b_nonneg : 0 ≤ b'.len
    · exact stands_a.add_nonneg stands_b (by omega) (by omega)
    · obtain ⟨c, subtracted, stands_c⟩ :=
        @Stands.sub_nonneg junk a' { b' with len := -b'.len } x (-y) 1 stands_a'
        stands_b'.neg a_nonneg (by dsimp only; omega)
      rw [sub_neg_eq_add] at stands_c
      rw [madd, moved_a, moved_b]
      dsimp only
      rw [if_pos a_nonneg, if_neg b_nonneg]
      exact ⟨c, subtracted, stands_c⟩
  · by_cases b_nonpos : b'.len ≤ 0
    · obtain ⟨c, added, stands_c⟩ :=
        @Stands.add_nonneg junk { a' with len := -a'.len } { b' with len := -b'.len } (-x) (-y)
        4 stands_a'.neg stands_b'.neg (by dsimp only; omega) (by dsimp only; omega)
      have negated := stands_c.signed_neg
      rw [← neg_add, neg_neg] at negated
      rw [madd, moved_a, moved_b]
      dsimp only
      rw [if_neg a_nonneg, if_pos b_nonpos, added]
      exact ⟨_, rfl, negated⟩
    · obtain ⟨c, subtracted, stands_c⟩ :=
        @Stands.sub_nonneg junk b' { a' with len := -a'.len } y (-x) 1 stands_b'
        stands_a'.neg (by omega) (by dsimp only; omega)
      rw [sub_neg_eq_add, add_comm] at stands_c
      rw [madd, moved_a, moved_b]
      dsimp only
      rw [if_neg a_nonneg, if_neg b_nonpos]
      exact ⟨c, subtracted, stands_c⟩

/-- `msub` subtracts. -/
theorem msub_spec (stands_a : Stands a x) (stands_b : Stands b y) :
    ∃ c, msub junk depth a b = some c ∧ Stands c (x - y) := by
  obtain ⟨a', moved_a, len_a, stands_a'⟩ := @Stands.moved junk a x stands_a
  obtain ⟨b', moved_b, len_b, stands_b'⟩ := @Stands.moved junk b y stands_b
  rw [depth]
  by_cases a_nonneg : 0 ≤ a'.len
  · by_cases b_nonneg : 0 ≤ b'.len
    · exact stands_a.sub_nonneg stands_b (by omega) (by omega)
    · obtain ⟨c, added, stands_c⟩ :=
        @Stands.add_nonneg junk a' { b' with len := -b'.len } x (-y) 4 stands_a'
        stands_b'.neg a_nonneg (by dsimp only; omega)
      rw [← sub_eq_add_neg] at stands_c
      rw [msub, moved_a, moved_b]
      dsimp only
      rw [if_pos a_nonneg, if_neg b_nonneg]
      exact ⟨c, added, stands_c⟩
  · by_cases b_nonpos : b'.len ≤ 0
    · obtain ⟨c, subtracted, stands_c⟩ :=
        @Stands.sub_nonneg junk { b' with len := -b'.len } { a' with len := -a'.len } (-y)
        (-x) 1 stands_b'.neg stands_a'.neg (by dsimp only; omega) (by dsimp only; omega)
      rw [neg_sub_neg] at stands_c
      rw [msub, moved_a, moved_b]
      dsimp only
      rw [if_neg a_nonneg, if_pos b_nonpos]
      exact ⟨c, subtracted, stands_c⟩
    · obtain ⟨c, added, stands_c⟩ :=
        @Stands.add_nonneg junk { a' with len := -a'.len } b' (-x) y 4 stands_a'.neg
        stands_b' (by dsimp only; omega) (by omega)
      have negated := stands_c.signed_neg
      rw [neg_add, neg_neg, ← sub_eq_add_neg] at negated
      rw [msub, moved_a, moved_b]
      dsimp only
      rw [if_neg a_nonneg, if_neg b_nonpos, added]
      exact ⟨_, rfl, negated⟩

end Sol25.Libmp
