import Sol25.Libmp.Sum

/-!
# Products

`m_mult` on digits without a sign, and `mult` with it.
-/

namespace Sol25.Libmp

open Digits List Option Int

variable {junk : ℤ} {a b c : Mint} {n m : ℕ} {x y z : ℤ} {v : List ℤ}

/-- A step of a row: nothing leaves the range of a `long`. -/
theorem multStep_spec {first : Bool} {i : ℕ} {old sum d bcache : ℤ} {va : List ℤ}
    (at_a : va[i]? = some d) (digit : 0 ≤ d ∧ d < base) (multiplier : 0 ≤ bcache ∧ bcache < base)
    (old_digit : first = true ∨ 0 ≤ old ∧ old < base) (carry : 0 ≤ sum ∧ sum < base) :
    ∃ r c', multStep first va bcache i old sum = some (r, c') ∧ 0 ≤ r ∧ r < base ∧
      (0 ≤ c' ∧ c' < base) ∧
      r + base * c' = (if first then 0 else old) + bcache * d + sum := by
  simp only [base] at digit multiplier old_digit carry
  have product_nonneg : 0 ≤ d * bcache := mul_nonneg digit.1 multiplier.1
  have product_le : d * bcache ≤ 32767 * 32767 :=
    mul_le_mul (by omega) (by omega) multiplier.1 (by decide)
  have product_long := @long_of_bounds (d * bcache) (by omega) (by omega)
  have term_bounds : 0 ≤ (if first then 0 else old) ∧ (if first then 0 else old) < 32768 := by
    cases first with
    | true => simp
    | false => simpa using old_digit
  have term_eq : (if first then some (d * bcache) else long (d * bcache + old)) =
      some (d * bcache + if first then 0 else old) := by
    cases first with
    | true => simp
    | false =>
      have old_bounds := old_digit.resolve_left (by rintro ⟨⟩)
      exact @long_of_bounds (d * bcache + old) (by omega) (by omega)
  rw [multStep, at_a]
  simp only [product_long, term_eq]
  generalize (if first then 0 else old) = term at term_bounds
  rw [long_of_bounds (by omega) (by omega)]
  refine ⟨_, _, rfl, ?_⟩
  rw [toShort_low15]
  refine ⟨(low15_digit _).1, (low15_digit _).2, ?_, ?_⟩
  · simp only [shift15, base]
    omega
  · rw [low15_add_shift15]
    ring

theorem write_digit {i : ℕ} {d : ℤ} {pre post : List ℤ} {old : ℤ} (i_eq : pre.length = i)
    (digit : 0 ≤ d ∧ d < base) :
    write (pre ++ old :: post) i d = some (pre ++ d :: post) := by
  subst i_eq
  rw [write, if_pos ⟨by omega, by simp⟩, toNat_natCast, toShort_digit digit.1 digit.2]
  simp

/-- The first row of a product. -/
theorem multRow_first {bcache : ℤ} (multiplier : 0 ≤ bcache ∧ bcache < base)
    (holds : Holds n a.val x) (room : n < v.length) :
    ∃ v', multRow true a.val n bcache 0 v = some v' ∧ Holds (n + 1) v' (x * bcache) ∧
      v'.length = v.length := by
  obtain ⟨digits, rest, a_eq, rfl, is_digits, rfl⟩ := holds
  obtain ⟨win, old, post, rfl, win_length⟩ : ∃ win old post, v = win ++ (old :: post) ∧
      win.length = digits.length := by
    refine ⟨v.take digits.length, v[digits.length], v.drop (digits.length + 1), ?_, ?_⟩
    · rw [← drop_eq_getElem_cons room, take_append_drop]
    · rw [length_take]
      omega
  obtain ⟨row, sum, swept, row_length, row_digits, sum_digit, total⟩ :=
    @sweep_spec base (multStep true a.val bcache)
    (fun c => 0 ≤ c ∧ c < base) win (digits.map fun d => bcache * d) 0 0
      (by rw [length_map, win_length])
    ⟨le_refl 0, by decide⟩
    (fun j old term _ at_term c carry => by
      rw [getElem?_map, map_eq_some_iff] at at_term
      obtain ⟨d, at_j, rfl⟩ := at_term
      have stepped := @multStep_spec true (0 + j) old c d bcache a.val
        (by rw [a_eq, Nat.zero_add]; exact getElem?_of_digits at_j)
          (digit_of_getElem? is_digits at_j) multiplier
        (.inl rfl) carry
      simpa only [if_true, zero_add] using stepped)
    [] (old :: post)
  rw [value_map_mul, win_length, add_zero] at total
  rw [length_nil, nil_append, nil_append, win_length] at swept
  rw [win_length] at row_length
  rw [multRow, swept]
  dsimp only
  rw [write_digit (by omega) sum_digit]
  refine ⟨_, rfl, ⟨row ++ [sum], post, by simp, ?_, ?_, ?_⟩, ?_⟩
  · rw [length_append, length_singleton, row_length]
  · exact isDigits_append.2 ⟨row_digits, isDigits_cons.2 ⟨sum_digit, IsDigits.nil⟩⟩
  · rw [value_concat, row_length]
    linear_combination total
  · simp only [length_append, length_cons]
    omega

/-- Another row is added to a product. -/
theorem multRow_next {bcache : ℤ} {j : ℕ} (multiplier : 0 ≤ bcache ∧ bcache < base)
    (holds : Holds n a.val x) (product : Holds (j + n) v z) (room : j + n < v.length) :
    ∃ v', multRow false a.val n bcache j v = some v' ∧
      Holds (j + n + 1) v' (z + base ^ j * (x * bcache)) ∧
      v'.length = v.length := by
  obtain ⟨digits, rest, a_eq, rfl, is_digits, rfl⟩ := holds
  obtain ⟨so_far, post, rfl, length_eq, so_far_digits, rfl⟩ := product
  obtain ⟨pre, win, rfl, pre_length⟩ : ∃ pre win, so_far = pre ++ win ∧ pre.length = j :=
    ⟨so_far.take j, so_far.drop j, (take_append_drop _ _).symm, by rw [length_take]; omega⟩
  obtain ⟨old, post, rfl⟩ : ∃ old post', post = old :: post' := by
    cases post with
    | nil =>
      rw [append_nil] at room
      omega
    | cons old post => exact ⟨old, post, rfl⟩
  rw [length_append] at length_eq
  obtain ⟨pre_digits, win_digits⟩ := isDigits_append.1 so_far_digits
  have win_length : win.length = digits.length := by omega
  obtain ⟨row, sum, swept, row_length, row_digits, sum_digit, total⟩ :=
    @sweep_spec base (multStep false a.val bcache)
    (fun c => 0 ≤ c ∧ c < base) win
      (List.zipWith (fun old d => 1 * old + bcache * d) win digits) 0 0
    (by rw [length_zipWith, win_length, Nat.min_self]) ⟨le_refl 0, by decide⟩
    (fun i old term at_i at_term c carry => by
      obtain ⟨old', d, at_i', at_d, rfl⟩ := getElem?_zipWith_eq_some.1 at_term
      obtain rfl : old = old' := some.inj (at_i.symm.trans at_i')
      have stepped := @multStep_spec false (0 + i) old c d bcache a.val
        (by rw [a_eq, Nat.zero_add]; exact getElem?_of_digits at_d)
          (digit_of_getElem? is_digits at_d) multiplier
        (.inr (digit_of_getElem? win_digits at_i)) carry
      rw [if_neg nofun] at stepped
      rw [one_mul]
      exact stepped)
    pre (old :: post)
  rw [value_zipWith 1 bcache win_length, win_length, add_zero] at total
  rw [win_length] at row_length
  rw [pre_length, win_length] at swept
  rw [multRow, append_assoc, swept, ← append_assoc]
  dsimp only
  rw [write_digit (by rw [length_append]; omega) sum_digit]
  refine ⟨_, rfl, ⟨pre ++ row ++ [sum], post, by simp, ?_, ?_, ?_⟩, ?_⟩
  · rw [length_append, length_append, length_singleton, row_length, pre_length]
  · exact isDigits_append.2 ⟨isDigits_append.2 ⟨pre_digits, row_digits⟩,
      isDigits_cons.2 ⟨sum_digit, IsDigits.nil⟩⟩
  · rw [value_concat, value_append, value_append, length_append, pre_length, row_length, pow_add]
    linear_combination base ^ j * total
  · simp only [length_append, length_cons]
    omega

/-- The rows of a product, from one on. -/
theorem multRows_spec {low high rest : List ℤ} {j : ℕ} (holds : Holds n a.val x)
    (b_eq : b.val = low ++ (high ++ rest)) (is_digits : IsDigits base high) (j_eq : low.length = j)
    (product : Holds (j + n) v (x * value base low)) (room : j + n + high.length ≤ v.length) :
    ∃ v', multRows a.val n b.val high.length j v = some v' ∧
      Holds (j + n + high.length) v' (x * value base (low ++ high)) := by
  induction high generalizing low j v with
  | nil => exact ⟨v, rfl, by rwa [append_nil]⟩
  | cons bcache high ih =>
    obtain ⟨multiplier, high_digits⟩ := isDigits_cons.1 is_digits
    rw [length_cons] at room ⊢
    obtain ⟨v1, row, product1, same_length⟩ :=
      @multRow_next a n x (x * value base low) v bcache j multiplier holds product
      (by omega)
    have at_j : b.val[j]? = some bcache := by
      rw [b_eq, ← j_eq, getElem?_append_right (le_refl _), Nat.sub_self]
      rfl
    have product1' : Holds (j + 1 + n) v1 (x * value base (low ++ [bcache])) := by
      rw [value_concat, j_eq, Nat.add_right_comm, mul_add, mul_left_comm]
      exact product1
    obtain ⟨v', rows, product'⟩ :=
      ih (by rw [b_eq]; simp) high_digits (by rw [length_append, j_eq]; rfl) product1'
      (by omega)
    refine ⟨v', ?_, ?_⟩
    · rw [multRows, at_j]
      dsimp only
      rw [row]
      exact rows
    · rw [append_assoc] at product'
      rw [show j + n + (high.length + 1) = j + 1 + n + high.length by omega]
      exact product'

/-- `m_mult` multiplies. -/
theorem mMult_spec (a_len : a.len = n) (b_len : b.len = m) (n_pos : n ≠ 0) (m_pos : m ≠ 0)
    (holds_a : Holds n a.val x) (holds_b : Holds m b.val y) (full_a : Full n x)
    (full_b : Full m y) :
    ∃ c k, mMult junk a b = some c ∧ c.len = (k : ℕ) ∧ k ≠ 0 ∧ Holds (n + m) c.val (x * y) ∧
      Holds k c.val (x * y) ∧
      Full k (x * y) := by
  obtain ⟨db, rb, b_eq, rfl, digits_b, rfl⟩ := holds_b
  obtain ⟨bcache, high, rfl⟩ := exists_cons_of_length_pos (Nat.pos_of_ne_zero m_pos)
  obtain ⟨multiplier, high_digits⟩ := isDigits_cons.1 digits_b
  have first_digit : b.val[0]? = some bcache := by
    rw [b_eq]
    rfl
  have a_toNat : a.len.toNat = n := by omega
  have b_toNat : b.len.toNat - 1 = high.length := by
    rw [length_cons] at b_len
    omega
  have c_toNat : (a.len + b.len).toNat = n + (high.length + 1) := by
    rw [length_cons] at b_len
    omega
  obtain ⟨v1, row, product1, length1⟩ :=
    @multRow_first a n x (xalloc junk (a.len + b.len)) bcache multiplier holds_a
    (by rw [xalloc, length_replicate]; omega)
  have length2 : v1.length = n + (high.length + 1) + 2 := by
    rw [length1, xalloc, length_replicate, c_toNat]
  obtain ⟨v2, rows, product2⟩ :=
    @multRows_spec a b n x v1 [bcache] high rb 1 holds_a b_eq high_digits rfl
    (by rw [value_singleton, Nat.add_comm]; exact product1) (by omega)
  rw [show 1 + n + high.length = n + high.length + 1 by omega] at product2
  obtain ⟨top, low, at_top, top_digit, low_holds, product_eq⟩ := product2.succ
  simp only [mMult, first_digit, a_toNat, row, b_toNat, rows, c_toNat]
  rw [show n + (high.length + 1) - 1 = n + high.length by omega, at_top]
  dsimp only
  have size : base ^ (n + (high.length + 1) - 1 - 1) ≤ x * value base (bcache :: high) := by
    have x_le := full_a n_pos
    have y_le := full_b m_pos
    rw [length_cons, Nat.add_sub_cancel] at y_le
    have power : 0 ≤ base ^ high.length := pow_nonneg (by decide) _
    calc base ^ (n + (high.length + 1) - 1 - 1) = base ^ (n - 1) * base ^ high.length := by
          rw [← pow_add]
          congr 1
          omega
      _ ≤ x * value base (bcache :: high) := mul_le_mul x_le y_le power holds_a.nonneg
  split_ifs with zero
  · rw [zero, mul_zero, add_zero] at product_eq
    rw [length_cons] at b_len
    refine ⟨_, n + high.length, rfl, by dsimp only; omega, by omega, product2, ?_, fun _ => size⟩
    rw [singleton_append] at product_eq
    rw [product_eq]
    exact low_holds
  · rw [length_cons] at b_len
    refine ⟨_, n + (high.length + 1), rfl, by dsimp only; omega, by omega, product2, product2,
      fun _ => ?_⟩
    have low_nonneg := low_holds.nonneg
    have power : 0 ≤ base ^ (n + high.length) := pow_nonneg (by decide) _
    rw [singleton_append] at product_eq
    rw [show n + (high.length + 1) - 1 = n + high.length by omega, product_eq]
    have top_pos : 1 ≤ top := by omega
    nlinarith

/-! ### Signs -/

theorem Stands.holds_succ (stands : Stands a x) (nonzero : a.len ≠ 0) :
    ∃ y, Holds a.len.natAbs a.val y ∧ Full a.len.natAbs y ∧ 0 < y ∧ x = a.len.sign * y := by
  obtain ⟨y, holds, full, x_eq⟩ := stands
  have power : 0 < base ^ (a.len.natAbs - 1) := pow_pos (by decide) _
  exact ⟨y, holds, full, lt_of_lt_of_le power (full (by omega)), x_eq⟩

/-- Nothing is stripped of a number without leading zeroes. -/
theorem Stands.mpMcan_eq (stands : Stands a x) : mpMcan a = some a := by
  rw [mpMcan]
  by_cases zero : a.len = 0
  · rw [if_pos zero]
  · obtain ⟨y, holds, full, -⟩ := stands
    obtain ⟨k, found, k_le, holds_k, -⟩ := canLen_spec holds
    have same : k = a.len.natAbs := by
      have y_le := full (by omega)
      by_contra shorter
      have power : base ^ k ≤ base ^ (a.len.natAbs - 1) := pow_le_pow_right₀ (by decide) (by omega)
      have y_lt := holds_k.lt
      omega
    rw [if_neg zero, found, map_some, if_neg (by omega), same]
    congr 1
    rw [natCast_natAbs]
    split_ifs with pos
    · rw [abs_of_pos pos]
    · rw [abs_of_neg (by omega), neg_neg]

theorem Stands.xfree : Stands xfree 0 :=
  Stands.of_nonneg (k := 0) rfl ⟨[], [], rfl, rfl, IsDigits.nil, rfl⟩ fun impossible =>
    absurd rfl impossible

theorem mpMcan_holds (holds : Holds n v x) : ∃ c, mpMcan ⟨n, v⟩ = some c ∧ Stands c x := by
  rw [mpMcan]
  dsimp only
  by_cases zero : n = 0
  · rw [if_pos (by omega)]
    subst zero
    exact ⟨_, rfl, Stands.of_nonneg (k := 0) rfl holds fun impossible => absurd rfl impossible⟩
  · obtain ⟨k, found, -, holds_k, full⟩ := canLen_spec holds
    rw [if_neg (by omega), natAbs_natCast, found, map_some]
    refine ⟨_, rfl, ?_⟩
    by_cases none_left : k = 0
    · rw [none_left] at holds_k
      rw [if_pos none_left, holds_k.zero]
      exact Stands.xfree
    · rw [if_neg none_left, if_pos (by omega)]
      exact Stands.of_nonneg rfl holds_k full

theorem mult_sign {sign : ℤ} (sign_eq : sign = 1 ∨ sign = -1) (stands : Stands c x)
    (nonzero : c.len ≠ 0) (holds : Holds n c.val y) :
    ∃ c', (let c' := if sign < 0 then { c with len := -c.len } else c
      if c'.len = 0 then xfree else c') = c' ∧ Holds n c'.val y ∧ Stands c' (sign * x) := by
  rcases sign_eq with rfl | rfl
  · refine ⟨c, ?_, holds, by rwa [one_mul]⟩
    dsimp only
    rw [if_neg (by decide : ¬(1 : ℤ) < 0), if_neg nonzero]
  · refine ⟨{ c with len := -c.len }, ?_, holds, by rw [neg_one_mul]; exact stands.neg⟩
    dsimp only
    rw [if_pos (by decide : (-1 : ℤ) < 0), if_neg (by dsimp only; omega)]

theorem sign_cases {k : ℤ} (nonzero : k ≠ 0) : k.sign = 1 ∨ k.sign = -1 := by
  rcases Int.lt_or_gt_of_ne nonzero with negative | positive
  · exact .inr (sign_eq_neg_one_of_neg negative)
  · exact .inl (sign_eq_one_of_pos positive)

/-- `mult` of operands that are not zero.  The product has a digit for each digit of the operands,
the highest of them perhaps zero. -/
theorem multCan_nonzero (a_nonzero : a.len ≠ 0) (b_nonzero : b.len ≠ 0)
    (holds_a : Holds a.len.natAbs a.val x) (holds_b : Holds b.len.natAbs b.val y)
    (full_a : Full a.len.natAbs x) (full_b : Full b.len.natAbs y) :
    ∃ c, multCan junk a b = some c ∧ Holds (a.len.natAbs + b.len.natAbs) c.val (x * y) ∧
      Stands c (a.len.sign * b.len.sign * (x * y)) := by
  obtain ⟨a', moved_a, len_a, holds_a'⟩ := @mpMove_spec junk a x holds_a
  obtain ⟨b', moved_b, len_b, holds_b'⟩ := @mpMove_spec junk b y holds_b
  have multiplied : ∃ c k, (if ((a'.len.natAbs : ℤ) < b'.len.natAbs) then
      mMult junk { a' with len := a'.len.natAbs } { b' with len := b'.len.natAbs }
      else mMult junk { b' with len := b'.len.natAbs } { a' with len := a'.len.natAbs }) = some c ∧
        c.len = (k : ℕ) ∧
        k ≠ 0 ∧ Holds (a.len.natAbs + b.len.natAbs) c.val (x * y) ∧ Holds k c.val (x * y) ∧
            Full k (x * y) := by
    split_ifs
    · exact mMult_spec (by rw [len_a]) (by rw [len_b]) (by omega)
        (by omega) holds_a' holds_b' full_a full_b
    · rw [add_comm, mul_comm x y]
      exact mMult_spec (by rw [len_b]) (by rw [len_a]) (by omega)
        (by omega) holds_b' holds_a' full_b full_a
  obtain ⟨c, k, multiplied, c_len, k_pos, holds_all, holds_k, full_k⟩ := multiplied
  have stands : Stands c (x * y) := Stands.of_nonneg c_len holds_k full_k
  have sign_eq : a.len.sign * b.len.sign = 1 ∨ a.len.sign * b.len.sign = -1 := by
    rcases sign_cases a_nonzero with a_sign | a_sign <;>
      rcases sign_cases b_nonzero with b_sign | b_sign <;>
      rw [a_sign, b_sign] <;> decide
  obtain ⟨c', signed_eq, holds', stands'⟩ := mult_sign sign_eq stands (by omega) holds_all
  rw [multCan, if_neg (by rintro (zero | zero) <;> contradiction), moved_a, moved_b]
  dsimp only at signed_eq ⊢
  rw [multiplied, map_some, signed_eq]
  exact ⟨c', rfl, holds', stands'⟩

/-- `mult` multiplies. -/
theorem multCan_spec (stands_a : Stands a x) (stands_b : Stands b y) :
    ∃ c, multCan junk a b = some c ∧ Stands c (x * y) := by
  by_cases zero : a.len = 0 ∨ b.len = 0
  · rw [multCan, if_pos zero]
    have product_zero : x * y = 0 := by
      obtain ⟨x', -, -, rfl⟩ := stands_a
      obtain ⟨y', -, -, rfl⟩ := stands_b
      rcases zero with zero | zero <;> rw [zero] <;> simp
    rw [product_zero]
    exact ⟨_, rfl, Stands.xfree⟩
  · obtain ⟨a_nonzero, b_nonzero⟩ := not_or.1 zero
    obtain ⟨x', holds_a, full_a, rfl⟩ := stands_a
    obtain ⟨y', holds_b, full_b, rfl⟩ := stands_b
    obtain ⟨c, multiplied, -, stands⟩ :=
      @multCan_nonzero junk a b x' y' a_nonzero b_nonzero holds_a holds_b full_a full_b
    rw [mul_mul_mul_comm]
    exact ⟨c, multiplied, stands⟩

end Sol25.Libmp
