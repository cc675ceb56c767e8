import Sol25.Libmp.Text

/-!
# Printed text

`m_out` prints a number in groups of ten digits with the help of a buffer that it fills from its
end.  `m_in` reads a line.
-/

namespace Sol25.Libmp

open Digits List Option Nat Int

variable {junk : ℤ} {a m x : Mint} {fuel v k b : ℕ}

/-- What `m_in` returns at the end of a line: its result, the number, and the input that is left. -/
structure Line where
  code : ℤ
  a : Mint
  rest : List Char

/-- A digit in `m_in`: the number, and the copy of it that the next digit is appended to. -/
def mInDigit (junk : ℤ) (b : ℤ) (qy : ℤ) (x : Mint) : Option (Mint × Mint) :=
  match mult junk x ⟨1, [b]⟩ with
  | none => none
  | some (_, _, a) =>
    match madd junk depth a ⟨1, [qy]⟩ with
    | none => none
    | some a => (mpMove junk a).map fun x => (a, x)

/-- The loop of `m_in`.  A character that ends the number is gone from the input, as it is put back
to the standard input. -/
def mInLoop (junk : ℤ) (b : ℤ) : List Char → Mint → Mint → ℤ → Option Line
  | [], a, _, _ => some ⟨-1, a, []⟩
  | c :: rest, a, x, sign =>
    if c = '\\' then
      match rest with
      | [] => some ⟨-1, a, []⟩
      | _ :: rest => mInLoop junk b rest a x sign
    else if c = '\t' ∨ c = '\n' then some ⟨0, signed sign a, rest⟩
    else if c = ' ' then mInLoop junk b rest a x sign
    else if c = '-' then mInLoop junk b rest a x (-sign)
    else if '0'.toNat ≤ c.toNat ∧ c.toNat ≤ '9'.toNat then
      (mInDigit junk b (c.toNat - '0'.toNat) x).bind fun r => mInLoop junk b rest r.1 r.2 sign
    else some ⟨0, signed sign a, rest⟩

def mIn (junk : ℤ) (b : ℤ) (input : List Char) : Option Line := mInLoop junk b input xfree xfree 1

/-- A group of digits of `m_out`: the number that is left, the buffer and the place in it. -/
def mOutGroup (junk : ℤ) (b : ℤ) : ℕ → Mint → List Char → ℤ → Option (Mint × List Char × ℤ)
  | 0, x, obuf, bp => some (x, obuf, bp)
  | i + 1, x, obuf, bp =>
    if 0 < x.len then
      match sdiv junk x b with
      | none => none
      | some (x, r) =>
        match put obuf bp (chr (r + '0'.toNat)) with
        | none => none
        | some obuf => mOutGroup junk b i x obuf (bp - 1)
    else some (x, obuf, bp)

/-- The loop of `m_out` over the groups. -/
def mOutLoop (junk : ℤ) (b : ℤ) : ℕ → Mint → List Char → ℤ → Option (List Char × ℤ)
  | 0, _, _, _ => none
  | fuel + 1, x, obuf, bp =>
    if 0 < x.len then
      match mOutGroup junk b 10 x obuf bp with
      | none => none
      | some (x, obuf, bp) =>
        if 0 < x.len then
          (put obuf bp ' ').bind fun obuf => mOutLoop junk b fuel x obuf (bp - 1)
        else mOutLoop junk b fuel x obuf bp
    else some (obuf, bp)

/-- `m_out`: what it prints. -/
def mOut (junk : ℤ) (b : ℤ) (a : Mint) : Option (List Char) :=
  let xlen := a.len.natAbs
  if xlen = 0 then some ['0', '\n']
  else
    match mpMove junk { a with len := xlen } with
    | none => none
    | some x =>
      -- The size of the buffer and the place behind it wrap around alike.
      let size := 7 * xlen % 2 ^ 32
      let obuf := List.replicate size (chr junk)
      match put obuf (size - 1 : ℤ) (chr 0) with
      | none => none
      | some obuf =>
        match mOutLoop junk b (rounds x) x obuf (size - 2) with
        | none => none
        | some (obuf, bp) =>
          (if a.len < 0 then (put obuf bp '-').map fun obuf => (obuf, bp - 1)
          else some (obuf, bp)).map fun r => cstring (r.1.drop (r.2 + 1).toNat) ++ ['\n']

/-! ### Printing -/

def digitChar (d : ℕ) : Char := chr (d + '0'.toNat)

theorem digitChar_spec {d : ℕ} (lt : d < 10) :
    digitChar d ≠ ' ' ∧ digitChar d ≠ chr 0 ∧ ((digitChar d).toNat : ℤ) - '0'.toNat = d ∧
      '0'.toNat ≤ (digitChar d).toNat ∧ (digitChar d).toNat ≤ '9'.toNat := by
  interval_cases d <;> decide

theorem put_last {pre text : List Char} {old c : Char} :
    put ((pre ++ [old]) ++ text) (((pre ++ [old]).length : ℤ) - 1) c = some (pre ++ c :: text) := by
  rw [append_assoc, length_append, length_singleton, cast_succ, add_sub_cancel_right]
  exact put_append rfl

theorem len_pos_iff (stands : Stands x v) : 0 < x.len ↔ 0 < v := by
  have nonneg := stands.nonneg_iff.2 (natCast_nonneg v)
  have zero_iff := stands.len_eq_zero_iff
  omega

/-- A group takes digits from the number, up to a number of them, and puts them in front of the
text. -/
theorem mOutGroup_spec (b_gt : 1 < b) (b_lt : b < 32768) {pre text : List Char}
    (stands : Stands x v) (room : (digits b v).length ≤ pre.length) :
    ∃ x' v' taken pre', mOutGroup junk b k x (pre ++ text) ((pre.length : ℤ) - 1) =
        some (x', pre' ++ ((taken.map digitChar).reverse ++ text), (pre'.length : ℤ) - 1) ∧
      Stands x' (v' : ℕ) ∧ digits b v = taken ++ digits b v' ∧
      pre'.length + taken.length = pre.length ∧ (v' = 0 ∨ taken.length = k) ∧
      (0 < k → 0 < v → v' < v) ∧ v' ≤ v := by
  induction k generalizing x v pre text with
  | zero =>
    exact ⟨x, v, [], pre, rfl, stands, rfl, rfl, .inr rfl, fun pos => absurd pos (lt_irrefl 0),
      le_rfl⟩
  | succ k ih =>
    rw [mOutGroup]
    by_cases pos : 0 < v
    · rw [digits_def' b_gt pos] at room ⊢
      obtain ⟨pre, old, rfl⟩ := (eq_nil_or_concat' pre).resolve_left
        (by rintro rfl; exact absurd room (not_succ_le_zero _))
      obtain ⟨q, divided, stands_q⟩ := @sdiv_spec junk _ _ b stands (natCast_nonneg v)
        (by omega) (by simp only [base]; omega)
      rw [show (v : ℤ) / b = (v / b : ℕ) by push_cast; rfl] at stands_q
      rw [length_cons, length_append, length_singleton] at room
      obtain ⟨x', v', taken, pre', rest, stands', digits_eq, length_eq, full, -, le⟩ :=
        @ih q (v / b) pre (digitChar (v % b) :: text) stands_q (by omega)
      have smaller : v / b < v := div_lt_self pos b_gt
      rw [if_pos ((len_pos_iff stands).2 pos), divided]
      dsimp only
      rw [put_last, show chr ((v : ℤ) % b + '0'.toNat) = digitChar (v % b) by
        rw [digitChar]; push_cast; rfl]
      dsimp only
      rw [length_append, length_singleton, cast_succ, add_sub_cancel_right, rest]
      refine ⟨x', v', (v % b) :: taken, pre', ?_, stands', ?_, ?_, ?_, fun _ _ => ?_, ?_⟩
      · rw [map_cons, reverse_cons, append_assoc, singleton_append]
      · rw [digits_eq, cons_append]
      · rw [length_cons]
        omega
      · rw [length_cons]
        omega
      · omega
      · omega
    · obtain rfl : v = 0 := by omega
      rw [if_neg (mt (len_pos_iff stands).1 pos)]
      exact ⟨x, 0, [], pre, rfl, stands, rfl, rfl, .inl rfl, fun _ v_pos => absurd v_pos pos,
        le_rfl⟩

/-- The groups with the spaces between them. One place of the buffer is left, for the sign. -/
theorem mOutLoop_spec (b_gt : 1 < b) (b_lt : b < 32768) {pre text : List Char}
    (stands : Stands x v) (lt : v < fuel)
    (room : (digits b v).length + ((digits b v).length - 1) / 10 < pre.length) :
    ∃ pre' body, mOutLoop junk b fuel x (pre ++ text) ((pre.length : ℤ) - 1) =
        some (pre' ++ (body ++ text), (pre'.length : ℤ) - 1) ∧ 0 < pre'.length ∧
      body.filter (· ≠ ' ') = ((digits b v).map digitChar).reverse.filter (· ≠ ' ') := by
  induction fuel generalizing x v pre text with
  | zero => exact absurd lt (not_lt_zero _)
  | succ fuel ih =>
    rw [mOutLoop]
    by_cases pos : 0 < v
    · obtain ⟨x', v', taken, pre', group, stands', digits_eq, length_eq, full, smaller, -⟩ :=
        @mOutGroup_spec junk _ _ 10 _ b_gt b_lt pre text stands (by omega)
      have v'_lt := smaller (by decide) pos
      rw [if_pos ((len_pos_iff stands).2 pos), group]
      dsimp only
      rw [digits_eq, length_append] at room
      rw [digits_eq, map_append, reverse_append]
      by_cases more : 0 < v'
      · have taken_length : taken.length = 10 := full.resolve_left more.ne'
        have digits_pos : 0 < (digits b v').length :=
          length_pos_iff.2 (digits_ne_nil_iff_ne_zero.2 more.ne')
        obtain ⟨pre', old, rfl⟩ := (eq_nil_or_concat' pre').resolve_left
          (by rintro rfl; rw [length_nil] at length_eq; omega)
        rw [length_append, length_singleton] at length_eq
        obtain ⟨pre'', body, rest, left, filtered⟩ :=
          @ih x' v' pre' (' ' :: ((taken.map digitChar).reverse ++ text)) stands' (by omega)
          (by omega)
        rw [if_pos ((len_pos_iff stands').2 more), put_last, bind_some,
          length_append, length_singleton, cast_succ, add_sub_cancel_right, rest]
        refine ⟨pre'', body ++ ' ' :: (taken.map digitChar).reverse, ?_, left, ?_⟩
        · rw [append_assoc body, cons_append]
        · rw [filter_append, filter_append, filtered, filter_cons_of_neg (by simp)]
      · obtain rfl : v' = 0 := by omega
        obtain ⟨pre'', body, rest, left, filtered⟩ :=
          @ih x' 0 pre' ((taken.map digitChar).reverse ++ text) stands' (by omega)
          (by rw [digits_zero] at room ⊢; simp only [length_nil] at room ⊢; omega)
        rw [if_neg (mt (len_pos_iff stands').1 more), rest]
        refine ⟨pre'', body ++ (taken.map digitChar).reverse, ?_, left, ?_⟩
        · rw [append_assoc body]
        · rw [filter_append, filter_append, filtered]
    · obtain rfl : v = 0 := by omega
      rw [if_neg (mt (len_pos_iff stands).1 pos)]
      exact ⟨pre, [], rfl, by omega, by rw [digits_zero]; rfl⟩

/-- The buffer of `m_out` has room for the digits, the spaces, the sign and the NUL. -/
theorem digits_room {n : ℕ} (b_ge : 8 ≤ b) (n_pos : n ≠ 0) (lt : (v : ℤ) < base ^ n) :
    (digits b v).length + ((digits b v).length - 1) / 10 < 7 * n - 1 := by
  have length_le : (digits b v).length ≤ 5 * n := by
    rw [digits_length_le_iff (by omega)]
    have base_pow : base ^ n = ((8 ^ (5 * n) : ℕ) : ℤ) := by
      rw [pow_mul]
      push_cast
      rfl
    rw [base_pow] at lt
    calc v < 8 ^ (5 * n) := by exact_mod_cast lt
      _ ≤ b ^ (5 * n) := Nat.pow_le_pow_left b_ge _
  omega

theorem put_nonneg {buf buf' : List Char} {i : ℤ} {c : Char} (written : put buf i c = some buf') :
    0 ≤ i := by
  rw [put] at written
  split_ifs at written with inside
  exact inside.1

/-- A group takes a place for every digit. -/
theorem mOutGroup_places (b_gt : 1 < b) (b_lt : b < 32768) {obuf : List Char} {bp : ℤ}
    {r : Mint × List Char × ℤ} (stands : Stands x v) (inside : -1 ≤ bp)
    (written : mOutGroup junk b k x obuf bp = some r) :
    ∃ v' : ℕ, Stands r.1 v' ∧ -1 ≤ r.2.2 ∧
      (digits b v).length + r.2.2 = (digits b v').length + bp := by
  induction k generalizing x v obuf bp with
  | zero =>
    cases written
    exact ⟨v, stands, inside, rfl⟩
  | succ k ih =>
    rw [mOutGroup] at written
    split_ifs at written with pos
    · obtain ⟨q, divided, stands_q⟩ := @sdiv_spec junk _ _ b stands (natCast_nonneg v)
        (by omega) (by simp only [base]; omega)
      rw [divided] at written
      dsimp only at written
      cases stored : put obuf bp (chr ((v : ℤ) % b + '0'.toNat)) with
      | none =>
        rw [stored] at written
        cases written
      | some next =>
        rw [stored] at written
        have bp_nonneg := put_nonneg stored
        obtain ⟨v', stands', inside', places⟩ :=
          ih (v := v / b) (by exact_mod_cast stands_q) (by omega) written
        refine ⟨v', stands', inside', ?_⟩
        rw [digits_def' b_gt ((len_pos_iff stands).1 pos), length_cons]
        push_cast
        omega
    · cases written
      exact ⟨v, stands, inside, rfl⟩

theorem mOutLoop_places (b_gt : 1 < b) (b_lt : b < 32768) {obuf : List Char} {bp : ℤ}
    {r : List Char × ℤ} (stands : Stands x v) (inside : -1 ≤ bp)
    (written : mOutLoop junk b fuel x obuf bp = some r) :
    (digits b v).length ≤ bp + 1 := by
  induction fuel generalizing x v obuf bp with
  | zero => cases written
  | succ fuel ih =>
    rw [mOutLoop] at written
    split_ifs at written with pos
    · cases group : mOutGroup junk b 10 x obuf bp with
      | none =>
        rw [group] at written
        cases written
      | some g =>
        obtain ⟨x', obuf', bp'⟩ := g
        rw [group] at written
        obtain ⟨v', stands', inside', places⟩ := mOutGroup_places b_gt b_lt stands inside group
        dsimp only at written stands' inside' places
        split_ifs at written with more
        · obtain ⟨next, stored, rest⟩ := bind_eq_some_iff.1 written
          have bp_nonneg := put_nonneg stored
          have left := ih stands' (by omega) rest
          omega
        · have left := ih stands' inside' written
          omega
    · obtain rfl : v = 0 := by
        have zero := mt (len_pos_iff stands).2 pos
        omega
      rw [digits_zero, length_nil]
      omega

/-- A buffer whose size wraps around has no room. -/
theorem mOut_outside {y : ℤ} (b_ge : 8 ≤ b) (b_le : b ≤ 10) (stands : Stands m y)
    (wraps : 2 ^ 32 ≤ 7 * m.len.natAbs) : mOut junk b m = none := by
  obtain ⟨n, m_len, holds, full⟩ := stands.abs.nonneg_cases (by dsimp only; omega)
  obtain ⟨x, moved, -, stands_x⟩ := @Stands.moved junk _ _ stands.abs
  obtain ⟨v, v_eq⟩ := eq_ofNat_of_zero_le (abs_nonneg y)
  have abs_eq : m.len.natAbs = n := by
    dsimp only at m_len
    omega
  rw [v_eq] at stands_x full
  rw [abs_eq] at moved wraps
  have lower : 4 * (n - 1) < (digits b v).length := by
    rw [lt_digits_length_iff (by omega)]
    have le := full (by omega)
    have base_pow : base ^ (n - 1) = ((32768 ^ (n - 1) : ℕ) : ℤ) := by
      push_cast
      rfl
    rw [base_pow] at le
    calc b ^ (4 * (n - 1)) ≤ 10 ^ (4 * (n - 1)) := Nat.pow_le_pow_left b_le _
      _ = 10000 ^ (n - 1) := pow_mul 10 4 _
      _ ≤ 32768 ^ (n - 1) := Nat.pow_le_pow_left (by decide) _
      _ ≤ v := by exact_mod_cast le
  rw [mOut, abs_eq]
  dsimp only
  rw [if_neg (by omega), moved]
  dsimp only
  cases stored : put (List.replicate (7 * n % 2 ^ 32) (chr junk)) ((7 * n % 2 ^ 32 : ℕ) - 1)
    (chr 0) with
  | none => rfl
  | some obuf =>
    have size_pos := put_nonneg stored
    dsimp only
    cases looped : mOutLoop junk b (rounds x) x obuf ((7 * n % 2 ^ 32 : ℕ) - 2) with
    | none => rfl
    | some r =>
      have enough := mOutLoop_places (by omega) (by omega) stands_x (by omega) looped
      have times : 1 ≤ 7 * n / 2 ^ 32 := by omega
      omega

/-! ### Reading -/

/-- A number without leading zeroes, unless it is zero. -/
def Loose (m : Mint) (v : ℤ) : Prop := ∃ n : ℕ, m.len = n ∧ Holds n m.val v ∧ (v ≠ 0 → Full n v)

theorem Stands.loose (stands : Stands m v) : Loose m v := by
  obtain ⟨n, len_eq, holds, full⟩ := stands.nonneg_cases (stands.nonneg_iff.2 (natCast_nonneg v))
  exact ⟨n, len_eq, holds, fun _ => full⟩

theorem Loose.signed_canonical {sign v : ℤ} (loose : Loose m v) (nonzero : v ≠ 0)
    (sign_eq : sign = 1 ∨ sign = -1) : (signed sign m).Canonical := by
  obtain ⟨n, len_eq, holds, full⟩ := loose
  have stands := Stands.of_nonneg len_eq holds (full nonzero)
  rcases sign_eq with rfl | rfl
  · rw [signed, one_mul]
    exact stands.canonical
  · exact stands.signed_neg.canonical

/-- A line gives the number its sign. -/
theorem Loose.signed_toInt {sign v : ℤ} (loose : Loose m v) (sign_eq : sign = 1 ∨ sign = -1) :
    (signed sign m).toInt = sign * v := by
  obtain ⟨n, len_eq, holds, -⟩ := loose
  have abs_eq : (sign * n).natAbs = n := by
    rcases sign_eq with rfl | rfl
    · omega
    · omega
  rw [Mint.toInt, signed]
  dsimp only
  rw [len_eq, abs_eq, ← holds.sum_eq, sign_mul]
  cases n with
  | zero => rw [holds.zero, mul_zero, mul_zero]
  | succ n =>
    rw [sign_eq_one_of_pos (by omega : (0 : ℤ) < (n + 1 : ℕ)), mul_one]
    rcases sign_eq with rfl | rfl
    · rfl
    · rfl

/-- A digit is appended to a number. -/
theorem Loose.append {d : ℕ} (b_digit : 0 < b ∧ b < 32768) (d_lt : d < 32768) (loose : Loose x v) :
    ∃ sum moved, mInDigit junk b d x = some (sum, moved) ∧ Loose sum ((v * b + d : ℕ) : ℤ) ∧
      Loose moved ((v * b + d : ℕ) : ℤ) ∧ sum.len ≠ 0 := by
  have one_digit : ∀ k : ℕ, k < 32768 → Holds 1 [(k : ℤ)] k := fun k lt =>
    ⟨[(k : ℤ)], [], rfl, rfl, isDigits_cons.2 ⟨⟨by omega, by simp only [base]; omega⟩,
      IsDigits.nil⟩, by simp [value]⟩
  obtain ⟨n, len_eq, holds, -⟩ := loose
  obtain ⟨x', stripped, stands_x⟩ := mpMcan_holds holds
  have stands_b : Stands ⟨1, [(b : ℤ)]⟩ b :=
    Stands.of_nonneg (k := 1) rfl (one_digit b b_digit.2) fun _ => by
      rw [Nat.sub_self, pow_zero]
      omega
  obtain ⟨product, multiplied, stands_product⟩ := @multCan_spec junk _ _ _ _ stands_x stands_b
  have product_nonneg : (0 : ℤ) ≤ v * b := by positivity
  obtain ⟨m, product_len, holds_product, full_product⟩ :=
    stands_product.nonneg_cases (stands_product.nonneg_iff.2 product_nonneg)
  obtain ⟨sum, l, added, sum_len, holds_sum, l_eq⟩ :=
    @madd_nonneg junk product ⟨1, [(d : ℤ)]⟩ m 1 _ _ 5 product_len rfl holds_product
      (one_digit d d_lt)
  have sum_abs : sum.len.natAbs = l := by omega
  obtain ⟨moved, moved_eq, moved_len, holds_moved⟩ := @mpMove_spec junk sum _ (by rwa [sum_abs])
  rw [sum_abs] at holds_moved
  have full : ((v * b + d : ℕ) : ℤ) ≠ 0 → Full l ((v * b + d : ℕ) : ℤ) := by
    intro nonzero _
    push_cast at nonzero ⊢
    rcases l_eq with rfl | ⟨rfl, le⟩
    · cases m with
      | zero =>
        rw [Nat.zero_max, Nat.sub_self, pow_zero]
        omega
      | succ m =>
        have le := full_product m.succ_ne_zero
        rw [max_eq_left (by omega)]
        omega
    · exact le
  have stripped' : mpMcan x = some x' := by
    rw [← stripped, ← len_eq]
  refine ⟨sum, moved, ?_, ⟨l, sum_len, ?_, full⟩, ⟨l, by omega, ?_, full⟩, by omega⟩
  · rw [mInDigit, mult, stripped', stands_b.mpMcan_eq]
    dsimp only
    rw [multiplied, map_some]
    dsimp only
    rw [show madd junk depth product ⟨1, [(d : ℤ)]⟩ = some sum from added]
    dsimp only
    rw [moved_eq, map_some]
  · exact_mod_cast holds_sum
  · exact_mod_cast holds_moved

theorem mInLoop_space (junk b' : ℤ) (rest : List Char) (a x : Mint) (sign : ℤ) :
    mInLoop junk b' (' ' :: rest) a x sign = mInLoop junk b' rest a x sign := by
  rw [mInLoop.eq_def]
  rfl

theorem mInLoop_minus (junk b' : ℤ) (rest : List Char) (a x : Mint) (sign : ℤ) :
    mInLoop junk b' ('-' :: rest) a x sign = mInLoop junk b' rest a x (-sign) := by
  rw [mInLoop.eq_def]
  rfl

theorem mInLoop_newline (junk b' : ℤ) (rest : List Char) (a x : Mint) (sign : ℤ) :
    mInLoop junk b' ('\n' :: rest) a x sign = some ⟨0, signed sign a, rest⟩ := by
  rw [mInLoop.eq_def]
  rfl

theorem mInLoop_digit {d : ℕ} (lt : d < 10) (junk b' : ℤ) (rest : List Char) (a x : Mint)
    (sign : ℤ) :
    mInLoop junk b' (digitChar d :: rest) a x sign =
      (mInDigit junk b' d x).bind fun r => mInLoop junk b' rest r.1 r.2 sign := by
  have plain : digitChar d ≠ '\\' ∧ ¬(digitChar d = '\t' ∨ digitChar d = '\n') ∧
      digitChar d ≠ '-' := by
    interval_cases d <;> decide
  obtain ⟨space, -, code, lower, upper⟩ := digitChar_spec lt
  rw [mInLoop.eq_def]
  dsimp only
  rw [if_neg plain.1, if_neg plain.2.1, if_neg space, if_neg plain.2.2, if_pos ⟨lower, upper⟩, code]

/-- The loop appends the digits of the text. -/
theorem mInLoop_spec (b_digit : 0 < b ∧ b < 32768) {sign : ℤ} {digits : List ℕ}
    (lt : ∀ d ∈ digits, d < 10) {body : List Char}
    (filtered : body.filter (· ≠ ' ') = digits.map digitChar) (rest : List Char)
    (loose_a : Loose a v) (loose_x : Loose x v) :
    ∃ a' x', mInLoop junk b (body ++ rest) a x sign = mInLoop junk b rest a' x' sign ∧
      Loose a' (digits.foldl (fun v d => v * b + d) v : ℕ) ∧
      Loose x' (digits.foldl (fun v d => v * b + d) v : ℕ) := by
  induction body generalizing digits a x v with
  | nil =>
    obtain rfl : digits = [] := map_eq_nil_iff.1 filtered.symm
    exact ⟨a, x, rfl, loose_a, loose_x⟩
  | cons c body ih =>
    by_cases space : c = ' '
    · rw [filter_cons_of_neg (by simpa using space)] at filtered
      obtain ⟨a', x', looped, loose⟩ := ih lt filtered loose_a loose_x
      refine ⟨a', x', ?_, loose⟩
      rw [cons_append, space, mInLoop_space, looped]
    · rw [filter_cons_of_pos (by simpa using space)] at filtered
      obtain ⟨d, digits, rfl, rfl, same⟩ := map_eq_cons_iff.1 filtered.symm
      have d_lt := lt d mem_cons_self
      obtain ⟨sum, moved, appended, loose_sum, loose_moved, -⟩ :=
        @Loose.append junk _ _ _ d b_digit (by omega) loose_x
      obtain ⟨a', x', looped, loose⟩ := ih (fun d mem => lt d (mem_cons_of_mem _ mem))
        same.symm loose_sum loose_moved
      refine ⟨a', x', ?_, loose⟩
      rw [cons_append, mInLoop_digit d_lt, appended, bind_some, looped]

theorem foldl_digits (b v : ℕ) :
    (digits b v).reverse.foldl (fun v d => v * b + d) 0 = v := by
  rw [foldl_reverse]
  calc (digits b v).foldr (fun d v => v * b + d) 0
      = (digits b v).foldr (fun d v => d + b * v) 0 := by
        congr 1
        funext d v
        ring
    _ = ofDigits b (digits b v) := (ofDigits_eq_foldr b _).symm
    _ = v := ofDigits_digits b v

theorem mIn_zero (b_digit : 0 < b ∧ b < 32768) (rest : List Char) :
    ∃ a, mIn junk b ('0' :: '\n' :: rest) = some ⟨0, a, rest⟩ ∧ a.toInt = 0 ∧ ¬a.Canonical := by
  obtain ⟨sum, moved, appended, loose, -, len_ne⟩ :=
    @Loose.append junk _ 0 _ 0 b_digit (by decide) Stands.xfree.loose
  rw [zero_mul] at loose
  have zero := loose.signed_toInt (.inl rfl)
  refine ⟨signed 1 sum, ?_, zero, fun canonical => ?_⟩
  · rw [mIn, show '0' = digitChar 0 from rfl, mInLoop_digit (by decide), appended, bind_some,
      mInLoop_newline]
  · have len_zero := canonical.stands.len_eq_zero_iff.2 zero
    rw [signed, one_mul] at len_zero
    exact len_ne len_zero

/-- The line that `m_out` prints is read back by `m_in`, and the rest of the input is left. -/
theorem mOut_mIn {y : ℤ} (b_ge : 8 ≤ b) (b_le : b ≤ 10) (stands : Stands m y)
    (short : 7 * m.len.natAbs < 2 ^ 32) (rest : List Char) :
    ∃ text a, mOut junk b m = some text ∧ mIn junk b (text ++ rest) = some ⟨0, a, rest⟩ ∧
      a.toInt = y ∧ (a.Canonical ↔ y ≠ 0) := by
  rw [mOut]
  by_cases zero : m.len.natAbs = 0
  · obtain rfl := stands.len_eq_zero_iff.1 (natAbs_eq_zero.1 zero)
    obtain ⟨a, read, a_eq, loose⟩ := @mIn_zero junk b (by omega) rest
    rw [if_pos zero]
    exact ⟨_, a, rfl, read, a_eq, iff_of_false loose (not_not_intro rfl)⟩
  · obtain ⟨n, m_len, holds, -⟩ := stands.abs.nonneg_cases (by dsimp only; omega)
    obtain ⟨x, moved, -, stands_x⟩ := @Stands.moved junk _ _ stands.abs
    obtain ⟨v, v_eq⟩ := eq_ofNat_of_zero_le (abs_nonneg y)
    have abs_eq : m.len.natAbs = n := by
      dsimp only at m_len
      omega
    have y_ne : y ≠ 0 := fun y_eq => zero (natAbs_eq_zero.2 (stands.len_eq_zero_iff.2 y_eq))
    have v_ne : (v : ℤ) ≠ 0 := v_eq ▸ abs_ne_zero.2 y_ne
    rw [v_eq] at stands_x holds
    rw [abs_eq] at short
    have room := digits_room b_ge (abs_eq ▸ zero) holds.lt
    obtain ⟨k, k_eq⟩ : ∃ k, 7 * n = k + 1 := ⟨7 * n - 1, by omega⟩
    obtain ⟨pre', body, looped, left, filtered⟩ :=
      @mOutLoop_spec junk _ _ _ b (by omega) (by omega) (List.replicate k (chr junk)) [chr 0]
        stands_x (by have lt := stands_x.natAbs_lt_rounds; rwa [natAbs_natCast] at lt)
        (by rw [length_replicate]; omega)
    rw [length_replicate] at looped
    have digits_lt : ∀ d ∈ (digits b v).reverse, d < 10 := fun d mem =>
      (digits_lt_base (by omega) (mem_reverse.1 mem)).trans_le b_le
    have digits_text : body.filter (· ≠ ' ') = (digits b v).reverse.map digitChar := by
      rw [filtered, ← map_reverse, filter_eq_self]
      intro c mem
      obtain ⟨d, d_mem, rfl⟩ := List.mem_map.1 mem
      exact decide_eq_true (digitChar_spec (digits_lt d d_mem)).1
    have no_nul : ∀ c ∈ body, c ≠ chr 0 := by
      intro c mem
      by_cases space : c = ' '
      · rw [space]
        decide
      · have filtered_mem : c ∈ body.filter (· ≠ ' ') := mem_filter.2 ⟨mem, decide_eq_true space⟩
        rw [digits_text] at filtered_mem
        obtain ⟨d, d_mem, rfl⟩ := List.mem_map.1 filtered_mem
        exact (digitChar_spec (digits_lt d d_mem)).2.1
    have first : put (List.replicate (7 * n) (chr junk)) ((7 * n : ℕ) - 1) (chr 0) =
        some (List.replicate k (chr junk) ++ [chr 0]) := by
      rw [k_eq, replicate_succ', show ((k + 1 : ℕ) - 1 : ℤ) = k by omega]
      exact put_append length_replicate
    -- What is read after the sign.
    have read : ∀ sign : ℤ, sign = 1 ∨ sign = -1 → ∃ a, mInLoop junk b (body ++ '\n' :: rest)
        xfree xfree sign = some ⟨0, a, rest⟩ ∧ a.toInt = sign * v ∧ a.Canonical := by
      intro sign sign_eq
      obtain ⟨a', x', looped', loose, -⟩ := @mInLoop_spec junk xfree xfree 0 b (by omega) sign _
        digits_lt body digits_text ('\n' :: rest) Stands.xfree.loose Stands.xfree.loose
      rw [foldl_digits] at loose
      refine ⟨signed sign a', ?_, loose.signed_toInt sign_eq, loose.signed_canonical v_ne sign_eq⟩
      rw [looped', mInLoop_newline]
    have start : ((7 * n : ℕ) - 2 : ℤ) = (k : ℤ) - 1 := by omega
    rw [if_neg zero, abs_eq, mod_eq_of_lt short]
    rw [abs_eq] at moved
    dsimp only
    rw [moved]
    dsimp only
    rw [first]
    dsimp only
    rw [start, looped]
    dsimp only
    have sign_iff := stands.len_neg_iff
    by_cases negative : m.len < 0
    · obtain ⟨a, read_eq, a_eq, canonical⟩ := read (-1) (.inr rfl)
      obtain ⟨pre, old, rfl⟩ := (eq_nil_or_concat' pre').resolve_left
        (by rintro rfl; exact absurd left (lt_irrefl 0))
      rw [if_pos negative, put_last]
      refine ⟨_, a, rfl, ?_, ?_, iff_of_true canonical y_ne⟩
      · have index : (((pre ++ [old]).length : ℤ) - 1 - 1 + 1).toNat = pre.length := by
          rw [length_append, length_singleton]
          omega
        dsimp only
        rw [index, drop_left, ← cons_append, cstring_append, append_assoc]
        · rw [mIn, singleton_append, cons_append, mInLoop_minus]
          exact read_eq
        · intro c mem
          rcases mem_cons.1 mem with rfl | body_mem
          · decide
          · exact no_nul c body_mem
      · rw [a_eq, ← v_eq, abs_of_neg (sign_iff.1 negative), neg_one_mul, neg_neg]
    · obtain ⟨a, read_eq, a_eq, canonical⟩ := read 1 (.inl rfl)
      rw [if_neg negative]
      refine ⟨_, a, rfl, ?_, ?_, iff_of_true canonical y_ne⟩
      · have index : ((pre'.length : ℤ) - 1 + 1).toNat = pre'.length := by omega
        dsimp only
        rw [index, drop_left, cstring_append no_nul, append_assoc]
        exact read_eq
      · rw [a_eq, ← v_eq, one_mul, abs_of_nonneg (not_lt.1 (mt sign_iff.2 negative))]

/-! ### The texts of a number -/

/-- The texts of canonical numbers.  `mtox` fails for zero, and every buffer for the numbers that
are so long that its size wraps around.  The line of zero is read as a digit. -/
theorem text_iff (junk : ℤ) :
    (∀ m : Mint, m.Canonical → 0 ≤ m.toInt →
      ((∃ buf m', mtox junk m = some buf ∧ xtom junk (cstring buf) = some (some m') ∧
        m'.Canonical ∧ m'.toInt = m.toInt) ↔ m.toInt ≠ 0 ∧ m.toInt < base ^ mtoxDigits)) ∧
    (∀ s : List Char, (∀ c ∈ s, 0 ≤ xtoi c) →
      ((∃ m buf, xtom junk s = some (some m) ∧ mtox junk m = some buf ∧
        cstring buf = normalized s) ↔
        (∃ c ∈ s, c ≠ '0') ∧ (hexValue 0 s : ℤ) < base ^ mtoxDigits)) ∧
    ∀ (m : Mint) (b : ℕ) (rest : List Char), m.Canonical → b = 10 ∨ b = 8 →
      ((∃ text a, mOut junk b m = some text ∧ mIn junk b (text ++ rest) = some ⟨0, a, rest⟩ ∧
        a.toInt = m.toInt ∧ (a.Canonical ↔ m.toInt ≠ 0)) ↔ 7 * m.len.natAbs < 2 ^ 32) := by
  refine ⟨?_, fun s hex => xtom_mtox_iff hex, ?_⟩
  · intro m canonical nonneg
    obtain ⟨v, v_eq⟩ := eq_ofNat_of_zero_le nonneg
    have stands := canonical.stands
    rw [v_eq] at stands ⊢
    rw [mtox_xtom_iff stands, natCast_ne_zero]
  · intro m b rest canonical decimal_or_octal
    constructor
    · rintro ⟨text, a, printed, -⟩
      by_contra wraps
      rw [mOut_outside (by omega) (by omega) canonical.stands (not_lt.1 wraps)] at printed
      cases printed
    · intro short
      exact mOut_mIn (by omega) (by omega) canonical.stands short rest

/-- Twenty-six in lower case, and minus twelve in decimal. -/
theorem text_iff_samples :
    (∃ m buf, xtom 0 ['0', '1', 'A'] = some (some m) ∧ mtox 0 m = some buf ∧
      cstring buf = ['1', 'a']) ∧
    ∃ text a, mOut 0 (10 : ℕ) ⟨-1, [12]⟩ = some text ∧
      mIn 0 (10 : ℕ) (text ++ []) = some ⟨0, a, []⟩ ∧ a.toInt = -12 ∧ a.Canonical := by
  obtain ⟨-, hexadecimal, lines⟩ := text_iff 0
  constructor
  · refine (hexadecimal ['0', '1', 'A'] (@of_decide_eq_true _ (List.decidableBAll _ _) rfl)).2
      ⟨⟨'1', by decide, by decide⟩, ?_⟩
    calc ((hexValue 0 ['0', '1', 'A'] : ℕ) : ℤ) < base ^ 1 := by decide
      _ ≤ base ^ mtoxDigits := pow_le_pow_right₀ (by decide) (by decide)
  · obtain ⟨text, a, printed, read, a_eq, canonical⟩ :=
      (lines ⟨-1, [12]⟩ 10 [] ⟨by decide, by decide, by decide⟩ (.inl rfl)).2 (by decide)
    exact ⟨text, a, printed, read, a_eq, canonical.2 (by decide)⟩

/-- `mtox` has one byte for the text of zero. -/
theorem not_mtox_inside :
    ¬∀ (junk : ℤ) (m : Mint), m.Canonical → 0 ≤ m.toInt → ∃ buf, mtox junk m = some buf := by
  intro inside
  obtain ⟨buf, written⟩ := inside 0 xfree ⟨by decide, by decide, by decide⟩ (by decide)
  rw [mtox_outside (v := 0) Stands.xfree (by decide)] at written
  exact nomatch written

end Sol25.Libmp
