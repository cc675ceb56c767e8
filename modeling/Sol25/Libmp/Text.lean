import Sol25.Libmp.Root
import Mathlib.Data.List.TakeWhile
import Mathlib.Data.Nat.Digits.Lemmas

/-!
# Hexadecimal text

`xtom` reads a number from a string, and `mtox` writes one to a string of its own. A string is the
characters in front of the first NUL.
-/

namespace Sol25.Libmp

open Digits List Option Int Nat

variable {junk : ℤ} {a b c m : Mint} {x y z : ℤ} {fuel v : ℕ}

/-- A character from its code. -/
def chr (n : ℤ) : Char := Char.ofNat n.toNat

/-- `xtoi`: the value of a hexadecimal digit. -/
def xtoi (c : Char) : ℤ :=
  if '0'.toNat ≤ c.toNat ∧ c.toNat ≤ '9'.toNat then c.toNat - '0'.toNat
  else if 'a'.toNat ≤ c.toNat ∧ c.toNat ≤ 'f'.toNat then c.toNat - 'a'.toNat + 10
  else if 'A'.toNat ≤ c.toNat ∧ c.toNat ≤ 'F'.toNat then c.toNat - 'A'.toNat + 10
  else -1

def itom (junk n : ℤ) : Mint :=
  if 0 < n then oneDigit junk n
  else if n < 0 then ⟨-1, (oneDigit junk (toShort (-n))).val⟩
  else xfree

/-- The loop of `xtom`: `some none` stands for the null pointer. -/
def xtomLoop (junk : ℤ) : List Char → Mint → Mint → Option (Option Mint)
  | [], _, m => some (some m)
  | c :: key, sixteen, m =>
    let digit := xtoi c
    if digit < 0 then some none
    else
      match mult junk m sixteen with
      | none => none
      | some (_, sixteen, m) =>
        match madd junk depth m (itom junk digit) with
        | none => none
        | some m => xtomLoop junk key sixteen m

def xtom (junk : ℤ) (key : List Char) : Option (Option Mint) :=
  xtomLoop junk key (itom junk 16) (itom junk 0)

def itox (d : ℤ) : Char :=
  let d := d % 16
  if d < 10 then chr ('0'.toNat + d) else chr ('a'.toNat - 10 + d)

/-- A write of a character to a place of a buffer. -/
def put (buf : List Char) (i : ℤ) (c : Char) : Option (List Char) :=
  if 0 ≤ i ∧ i.toNat < buf.length then some (buf.set i.toNat c) else none

/-- The loop of `mtox` over the digits, lowest first. -/
def mtoxLoop (junk : ℤ) : ℕ → Mint → List Char → ℕ → Option (List Char × ℕ)
  | 0, _, _, _ => none
  | fuel + 1, m, hex, p =>
    match sdiv junk m 16 with
    | none => none
    | some (m, r) =>
      match put hex p (itox r) with
      | none => none
      | some hex =>
        match mcmp junk m xfree with
        | none => none
        | some res => if res ≠ 0 then mtoxLoop junk fuel m hex (p + 1) else some (hex, p + 1)

/-- The loop of `mtox` that turns the digits round. -/
def swapLoop : ℕ → List Char → ℕ → ℕ → Option (List Char)
  | 0, _, _, _ => none
  | fuel + 1, hex, s, p =>
    if s < p then
      match hex[p]?, hex[s]? with
      | some c, some d =>
        ((put hex p d).bind fun hex => put hex s c).bind fun hex =>
          swapLoop fuel hex (s + 1) (p - 1)
      | _, _ => none
    else some hex

/-- The bytes that `mtox` asks `malloc` for, in unsigned arithmetic. -/
def mtoxSize (size : ℕ) : ℕ := (size * 15 + 3) % 2 ^ 32 / 4 + 1

/-- `mtox`: the buffer. -/
def mtox (junk : ℤ) (key : Mint) : Option (List Char) :=
  let hex := List.replicate (mtoxSize key.len.natAbs) (chr junk)
  match mpMove junk key with
  | none => none
  | some m =>
    match mtoxLoop junk (rounds m) m hex 0 with
    | none => none
    | some (hex, p) => (put hex p (chr 0)).bind fun hex => swapLoop hex.length hex 0 (p - 1)

/-- The string in a buffer. -/
def cstring (buf : List Char) : List Char := buf.takeWhile (· ≠ chr 0)

/-- A string in lower case without leading zeroes. -/
def normalized (s : List Char) : List Char :=
  let rest := (s.map Char.toLower).dropWhile (· = '0')
  if rest = [] then ['0'] else rest

/-! ### Digits -/

/-- The digits, as `xtoi` reads them and `itox` writes them. -/
theorem xtoi_cases {c : Char} (hex : 0 ≤ xtoi c) :
    ∃ d : ℕ, xtoi c = d ∧ d < 16 ∧ itox d = c.toLower ∧ (c = '0' ↔ d = 0) := by
  have codes : c.toNat ∈ ['0', '1', '2', '3', '4', '5', '6', '7', '8', '9', 'a', 'b', 'c', 'd',
      'e', 'f', 'A', 'B', 'C', 'D', 'E', 'F'].map Char.toNat := by
    simp only [xtoi] at hex
    simp only [map_cons, map_nil, mem_cons, not_mem_nil, or_false]
    split_ifs at hex with decimal lower upper
    · simp only [Char.reduceToNat] at decimal ⊢
      omega
    · simp only [Char.reduceToNat] at lower ⊢
      omega
    · simp only [Char.reduceToNat] at upper ⊢
      omega
    · omega
  obtain ⟨d, mem, same⟩ := List.mem_map.1 codes
  obtain rfl : d = c := Char.toNat_inj.1 same
  have all : ∀ c ∈ ['0', '1', '2', '3', '4', '5', '6', '7', '8', '9', 'a', 'b', 'c', 'd',
      'e', 'f', 'A', 'B', 'C', 'D', 'E', 'F'], xtoi c = (xtoi c).toNat ∧ (xtoi c).toNat < 16 ∧
        itox ((xtoi c).toNat : ℤ) = c.toLower ∧ (c = '0' ↔ (xtoi c).toNat = 0) :=
    @of_decide_eq_true _ (List.decidableBAll _ _) rfl
  exact ⟨(xtoi d).toNat, all d mem⟩

variable {s : List Char} {d : ℕ}

theorem itox_hex (lt : d < 16) : xtoi (itox d) = d ∧ itox d ≠ chr 0 := by
  interval_cases d <;> decide

/-! ### Reading -/

theorem itom_stands {n : ℤ} (digit : 0 ≤ n ∧ n < base) : Stands (itom junk n) n := by
  rw [itom]
  by_cases pos : 0 < n
  · rw [if_pos pos]
    exact oneDigit_stands ⟨pos, digit.2⟩
  · obtain rfl : n = 0 := by omega
    rw [if_neg pos, if_neg pos]
    exact Stands.xfree

/-- The value of a string of hexadecimal digits after others. -/
def hexValue (v : ℕ) (s : List Char) : ℕ := s.foldl (fun v c => 16 * v + (xtoi c).toNat) v

/-- The loop of `xtom` appends digits. -/
theorem xtomLoop_spec {sixteen : Mint} (hex : ∀ c ∈ s, 0 ≤ xtoi c) (stands_16 : Stands sixteen 16)
    (stands : Stands m v) :
    ∃ m', xtomLoop junk s sixteen m = some (some m') ∧ Stands m' (hexValue v s) := by
  induction s generalizing m v with
  | nil => exact ⟨m, rfl, stands⟩
  | cons c s ih =>
    obtain ⟨d, d_eq, d_lt, -⟩ := xtoi_cases (hex c mem_cons_self)
    obtain ⟨product, multiplied, stands_product⟩ := @mult_spec junk _ _ _ _ stands stands_16
    have stands_d := @itom_stands junk d ⟨by omega, by simp only [base]; omega⟩
    obtain ⟨sum, added, stands_sum⟩ := @madd_spec junk _ _ _ _ stands_product stands_d
    rw [show (v : ℤ) * 16 + d = (16 * v + d : ℕ) by push_cast; ring] at stands_sum
    rw [xtomLoop, d_eq, if_neg (by omega), multiplied]
    dsimp only
    rw [added]
    dsimp only
    rw [hexValue, foldl_cons, d_eq, toNat_natCast]
    exact ih (fun c mem => hex c (mem_cons_of_mem _ mem)) stands_sum

theorem xtom_spec (hex : ∀ c ∈ s, 0 ≤ xtoi c) :
    ∃ m, xtom junk s = some (some m) ∧ Stands m (hexValue 0 s) :=
  xtomLoop_spec hex (itom_stands (by decide)) Stands.xfree

/-! ### Writing -/

/-- The digits of a number that `mtox` writes, lowest first. -/
def hexDigits (v : ℕ) : List ℕ := if v = 0 then [0] else digits 16 v

theorem hexDigits_pos (v : ℕ) : 0 < (hexDigits v).length := by
  rw [hexDigits]
  split_ifs with zero
  · exact Nat.one_pos
  · exact length_pos_iff.2 (digits_ne_nil_iff_ne_zero.2 zero)

theorem hexDigits_step (v : ℕ) :
    hexDigits v = v % 16 :: if v / 16 = 0 then [] else hexDigits (v / 16) := by
  rw [hexDigits, hexDigits]
  by_cases zero : v = 0
  · rw [zero]
    rfl
  · rw [if_neg zero, digits_def' (by decide) (Nat.pos_of_ne_zero zero)]
    by_cases last : v / 16 = 0
    · rw [if_pos last, last, digits_zero]
    · rw [if_neg last, if_neg last]

theorem put_append {pre post : List Char} {old c : Char} {i : ℕ} (i_eq : pre.length = i) :
    put (pre ++ old :: post) i c = some (pre ++ c :: post) := by
  have inside : (i : ℤ).toNat < (pre ++ old :: post).length := by
    rw [toNat_natCast, length_append, length_cons]
    omega
  rw [put, if_pos ⟨natCast_nonneg i, inside⟩, toNat_natCast, ← i_eq,
    set_append_right _ _ le_rfl, Nat.sub_self, set_cons_zero]

/-- The loop writes the digits behind what is there, as long as there is room. -/
theorem mtoxLoop_spec {pre post : List Char} (stands : Stands m v) (lt : v < fuel)
    (room : (hexDigits v).length ≤ post.length) :
    mtoxLoop junk fuel m (pre ++ post) pre.length =
      some (pre ++ (hexDigits v).map (fun d : ℕ => itox d) ++ post.drop (hexDigits v).length,
        pre.length + (hexDigits v).length) := by
  induction fuel generalizing m v pre post with
  | zero => exact absurd lt (not_lt_zero _)
  | succ fuel ih =>
    obtain ⟨old, post, rfl⟩ : ∃ old rest, post = old :: rest :=
      exists_cons_of_length_pos ((hexDigits_pos v).trans_le room)
    obtain ⟨q, divided, stands_q⟩ :=
      @sdiv_spec junk _ _ 16 stands (natCast_nonneg v) (by decide) (by decide)
    obtain ⟨res, compared, res_sign⟩ := @mcmp_spec junk _ _ _ _ stands_q Stands.xfree
    rw [sub_zero] at res_sign
    have last_iff : res ≠ 0 ↔ ¬v / 16 = 0 := by
      rw [not_iff_not, ← sign_eq_zero_iff_zero, res_sign, sign_eq_zero_iff_zero]
      omega
    rw [hexDigits_step] at room ⊢
    rw [mtoxLoop, divided]
    dsimp only
    rw [put_append rfl, show (v : ℤ) % 16 = (v % 16 : ℕ) by push_cast; rfl]
    dsimp only
    rw [compared]
    dsimp only
    by_cases last : v / 16 = 0
    · rw [if_neg (mt last_iff.1 (not_not_intro last)), if_pos last]
      simp
    · rw [if_neg last, length_cons, length_cons] at room
      rw [show (v : ℤ) / 16 = (v / 16 : ℕ) by push_cast; rfl] at stands_q
      have rest := @ih q (v / 16) (pre ++ [itox (v % 16 : ℕ)]) post stands_q (by omega) (by omega)
      rw [length_append, length_singleton, append_assoc, singleton_append]
        at rest
      rw [if_pos (last_iff.2 last), if_neg last, rest]
      simp only [map_cons, length_cons, drop_succ_cons, append_assoc, cons_append, nil_append]
      rw [Nat.add_right_comm, Nat.add_assoc]

theorem put_length {buf buf' : List Char} {i : ℤ} {c : Char} (written : put buf i c = some buf') :
    buf'.length = buf.length := by
  rw [put] at written
  split_ifs at written
  cases written
  exact length_set

/-- The loop takes a place for every digit and leaves the size of the buffer. -/
theorem mtoxLoop_length {hex hex' : List Char} {p p' : ℕ} (stands : Stands m v)
    (written : mtoxLoop junk fuel m hex p = some (hex', p')) :
    p' = p + (hexDigits v).length ∧ hex'.length = hex.length := by
  induction fuel generalizing m v hex p with
  | zero => cases written
  | succ fuel ih =>
    obtain ⟨q, divided, stands_q⟩ :=
      @sdiv_spec junk _ _ 16 stands (natCast_nonneg v) (by decide) (by decide)
    obtain ⟨res, compared, res_sign⟩ := @mcmp_spec junk _ _ _ _ stands_q Stands.xfree
    rw [sub_zero] at res_sign
    have last_iff : res ≠ 0 ↔ ¬v / 16 = 0 := by
      rw [not_iff_not, ← sign_eq_zero_iff_zero, res_sign, sign_eq_zero_iff_zero]
      omega
    rw [mtoxLoop, divided] at written
    dsimp only at written
    rw [hexDigits_step]
    cases stored : put hex p (itox (v % 16)) with
    | none =>
      rw [stored] at written
      cases written
    | some next =>
      rw [stored] at written
      dsimp only at written
      rw [compared] at written
      dsimp only at written
      split_ifs at written with more
      · obtain ⟨rfl, same⟩ := ih (v := v / 16) (by exact_mod_cast stands_q) written
        rw [if_neg (last_iff.1 more), length_cons]
        exact ⟨by omega, same.trans (put_length stored)⟩
      · cases written
        rw [if_pos (not_not.1 (mt last_iff.2 more))]
        exact ⟨rfl, put_length stored⟩

/-- The loop turns the middle of a buffer round. -/
theorem swapLoop_spec (pre mid post : List Char) (lt : mid.length < fuel) :
    swapLoop fuel (pre ++ mid ++ post) pre.length (pre.length + mid.length - 1) =
      some (pre ++ mid.reverse ++ post) := by
  induction fuel generalizing pre mid post with
  | zero => exact absurd lt (not_lt_zero _)
  | succ fuel ih =>
    rw [swapLoop]
    cases mid using List.bidirectionalRec with
    | nil => rw [if_neg (by simp)]; rfl
    | singleton c => rw [if_neg (by simp)]; rfl
    | cons_append c mid d =>
      have last : (pre ++ c :: mid).length = pre.length + (c :: (mid ++ [d])).length - 1 := by
        simp only [length_append, length_cons, length_nil]
        omega
      have shape : pre ++ c :: (mid ++ [d]) ++ post = (pre ++ c :: mid) ++ d :: post := by simp
      have at_p : (pre ++ c :: (mid ++ [d]) ++ post)[
          pre.length + (c :: (mid ++ [d])).length - 1]? = some d := by
        rw [← last, shape, getElem?_append_right le_rfl, Nat.sub_self]
        rfl
      have at_s : (pre ++ c :: (mid ++ [d]) ++ post)[pre.length]? = some c := by
        rw [append_assoc, getElem?_append_right le_rfl, Nat.sub_self]
        rfl
      have first : put (pre ++ c :: (mid ++ [d]) ++ post)
          (pre.length + (c :: (mid ++ [d])).length - 1 : ℕ) c =
            some (pre ++ c :: (mid ++ c :: post)) := by
        rw [shape, put_append last, append_assoc, cons_append]
      have second : put (pre ++ c :: (mid ++ c :: post)) pre.length d =
          some ((pre ++ [d]) ++ mid ++ (c :: post)) := by
        rw [put_append rfl]
        simp
      have inner := ih (pre ++ [d]) mid (c :: post) (by simp at lt; omega)
      rw [length_append, length_singleton] at inner
      have index : pre.length + (c :: (mid ++ [d])).length - 1 - 1 =
          pre.length + 1 + mid.length - 1 := by
        simp only [length_append, length_cons, length_nil]
        omega
      rw [if_pos (by simp), at_p, at_s]
      dsimp only
      rw [first, bind_some, second, bind_some, index, inner]
      simp

/-- The digits of the longest numbers for which the size of the buffer of `mtox` does not wrap
around. -/
def mtoxDigits : ℕ := 286331152

/-- The buffer of `mtox` has room for the digits and the NUL. -/
theorem mtox_room_iff (stands : Stands m v) :
    (hexDigits v).length < mtoxSize m.len.natAbs ↔ v ≠ 0 ∧ (v : ℤ) < base ^ mtoxDigits := by
  obtain ⟨n, m_len, holds, full⟩ := stands.nonneg_cases (stands.nonneg_iff.2 (natCast_nonneg v))
  rw [m_len, natAbs_natCast]
  by_cases zero : v = 0
  · obtain rfl : n = 0 := by
      have len_eq := stands.len_eq_zero_iff.2 (by exact_mod_cast zero)
      omega
    simp [zero, hexDigits, mtoxSize]
  · have n_pos : n ≠ 0 := by
      rintro rfl
      exact zero (by exact_mod_cast holds.zero)
    have power (k : ℕ) : base ^ k = ((2 ^ (15 * k) : ℕ) : ℤ) := by
      rw [pow_mul]
      push_cast
      rfl
    have fits_iff : (v : ℤ) < base ^ mtoxDigits ↔ n ≤ mtoxDigits := by
      constructor
      · intro lt
        by_contra more
        exact absurd (lt.trans_le ((pow_le_pow_right₀ (by decide) (by omega)).trans (full n_pos)))
          (lt_irrefl _)
      · intro le
        exact holds.lt.trans_le (pow_le_pow_right₀ (by decide) le)
    have v_lt : v < 2 ^ (15 * n) := by
      have lt := holds.lt
      rw [power] at lt
      exact_mod_cast lt
    have v_ge : 2 ^ (15 * (n - 1)) ≤ v := by
      have le := full n_pos
      rw [power] at le
      exact_mod_cast le
    rw [fits_iff, hexDigits, if_neg zero, and_iff_right zero, mtoxDigits]
    have upper : (digits 16 v).length ≤ (n * 15 + 3) / 4 := by
      rw [digits_length_le_iff (by decide)]
      calc v < 2 ^ (15 * n) := v_lt
        _ ≤ 2 ^ (4 * ((n * 15 + 3) / 4)) := Nat.pow_le_pow_right (by decide) (by omega)
        _ = 16 ^ ((n * 15 + 3) / 4) := pow_mul 2 4 _
    have lower : 15 * (n - 1) / 4 < (digits 16 v).length := by
      rw [lt_digits_length_iff (by decide)]
      calc 16 ^ (15 * (n - 1) / 4) = 2 ^ (4 * (15 * (n - 1) / 4)) := (pow_mul 2 4 _).symm
        _ ≤ 2 ^ (15 * (n - 1)) := Nat.pow_le_pow_right (by decide) (by omega)
        _ ≤ v := v_ge
    rw [mtoxSize]
    by_cases wraps : n * 15 + 3 < 2 ^ 32
    · rw [mod_eq_of_lt wraps]
      omega
    · have size_le : (n * 15 + 3) % 2 ^ 32 ≤ n * 15 + 3 - 2 ^ 32 :=
        (mod_eq_sub_mod (not_lt.1 wraps)).trans_le (mod_le _ _)
      omega

theorem mtox_digits {hex : List Char} (stands : Stands m v)
    (room : (hexDigits v).length ≤ hex.length) :
    mtoxLoop junk (rounds m) m hex 0 =
      some ((hexDigits v).map (fun d : ℕ => itox d) ++ hex.drop (hexDigits v).length,
        (hexDigits v).length) := by
  have written := @mtoxLoop_spec junk _ _ _ [] hex stands stands.natAbs_lt_rounds room
  rwa [nil_append, nil_append, length_nil, zero_add] at written

/-- `mtox` of a number that its buffer has room for: the digits, highest first, and a NUL. -/
theorem mtox_spec (stands : Stands m v)
    (room : (hexDigits v).length < mtoxSize m.len.natAbs) :
    ∃ post, mtox junk m =
      some ((hexDigits v).reverse.map (fun d : ℕ => itox d) ++ chr 0 :: post) := by
  obtain ⟨m', moved, len_eq, stands'⟩ := @Stands.moved junk _ _ stands
  have written := @mtox_digits junk _ _ (List.replicate (mtoxSize m.len.natAbs) (chr junk)) stands'
    (by rw [length_replicate]; exact room.le)
  rw [drop_replicate] at written
  obtain ⟨k, k_eq⟩ : ∃ k, mtoxSize m.len.natAbs - (hexDigits v).length = k + 1 :=
    ⟨mtoxSize m.len.natAbs - (hexDigits v).length - 1, by omega⟩
  rw [k_eq, replicate_succ (n := k)] at written
  have swapped := swapLoop_spec [] ((hexDigits v).map fun d : ℕ => itox d)
    (chr 0 :: List.replicate k (chr junk)) (lt_succ_of_le (Nat.le_add_right _ k))
  rw [nil_append, nil_append, length_nil, zero_add, length_map, ← map_reverse] at swapped
  refine ⟨List.replicate k (chr junk), ?_⟩
  rw [mtox, moved]
  dsimp only
  rw [written]
  dsimp only
  rw [put_append (length_map _), bind_some, length_append, length_map,
    length_cons, length_replicate]
  exact swapped

theorem mtox_outside (stands : Stands m v)
    (long : mtoxSize m.len.natAbs ≤ (hexDigits v).length) : mtox junk m = none := by
  obtain ⟨m', moved, len_eq, stands'⟩ := @Stands.moved junk _ _ stands
  rw [mtox, moved]
  dsimp only
  cases written : mtoxLoop junk (rounds m') m' (List.replicate (mtoxSize m.len.natAbs) (chr junk))
    0 with
  | none => rfl
  | some r =>
    obtain ⟨p_eq, length_eq⟩ := mtoxLoop_length stands' written
    rw [length_replicate] at length_eq
    dsimp only
    rw [put, if_neg (by omega)]
    rfl

/-! ### Round trips -/

theorem cstring_append {post : List Char} (no_nul : ∀ c ∈ s, c ≠ chr 0) :
    cstring (s ++ chr 0 :: post) = s := by
  rw [cstring, takeWhile_append_of_pos fun c mem => decide_eq_true (no_nul c mem),
    takeWhile_cons_of_neg (by decide), append_nil]

theorem hexDigits_lt (mem : d ∈ hexDigits v) : d < 16 := by
  rw [hexDigits] at mem
  split_ifs at mem with zero
  · rw [mem_singleton.1 mem]
    decide
  · exact digits_lt_base (by decide) mem

theorem cstring_digits {post : List Char} :
    cstring ((hexDigits v).reverse.map (fun d : ℕ => itox d) ++ chr 0 :: post) =
      (hexDigits v).reverse.map fun d : ℕ => itox d := by
  refine cstring_append fun c mem => ?_
  obtain ⟨d, d_mem, rfl⟩ := List.mem_map.1 mem
  exact (itox_hex (hexDigits_lt (mem_reverse.1 d_mem))).2

theorem hexValue_map {digits : List ℕ} (lt : ∀ d ∈ digits, d < 16) :
    hexValue 0 (digits.reverse.map fun d : ℕ => itox d) = ofDigits 16 digits := by
  rw [hexValue, map_reverse, foldl_reverse]
  induction digits with
  | nil => rfl
  | cons d digits ih =>
    rw [map_cons, foldr_cons, ih fun d mem => lt d (mem_cons_of_mem _ mem),
      (itox_hex (lt d mem_cons_self)).1, toNat_natCast, ofDigits_cons, add_comm]

theorem ofDigits_hexDigits (v : ℕ) : ofDigits 16 (hexDigits v) = v := by
  rw [hexDigits]
  split_ifs with zero
  · rw [zero]
    rfl
  · exact ofDigits_digits 16 v

/-- The values of the digits of a string. -/
def hexNumbers (s : List Char) : List ℕ := s.map fun c => (xtoi c).toNat

theorem map_hexNumbers (hex : ∀ c ∈ s, 0 ≤ xtoi c) :
    (hexNumbers s).map (fun d : ℕ => itox d) = s.map Char.toLower := by
  rw [hexNumbers, List.map_map]
  refine map_congr_left fun c mem => ?_
  obtain ⟨d, d_eq, -, lower, -⟩ := xtoi_cases (hex c mem)
  rw [Function.comp_apply, d_eq, toNat_natCast, lower]

theorem hexNumbers_lt (hex : ∀ c ∈ s, 0 ≤ xtoi c) (mem : d ∈ hexNumbers s) : d < 16 := by
  obtain ⟨c, c_mem, rfl⟩ := List.mem_map.1 mem
  obtain ⟨d, d_eq, d_lt, -⟩ := xtoi_cases (hex c c_mem)
  rwa [d_eq, toNat_natCast]

theorem hexValue_eq (s : List Char) : hexValue 0 s = ofDigits 16 (hexNumbers s).reverse := by
  rw [hexNumbers, ofDigits_eq_foldr, foldr_reverse, foldl_map, hexValue]
  congr 1
  funext v c
  rw [add_comm]
  rfl

theorem ofDigits_dropWhile (digits : List ℕ) :
    ofDigits 16 digits.reverse = ofDigits 16 (digits.dropWhile (· = 0)).reverse := by
  induction digits with
  | nil => rfl
  | cons d digits ih =>
    by_cases zero : d = 0
    · rw [dropWhile_cons, if_pos (decide_eq_true zero), ← ih, zero, reverse_cons,
        ofDigits_append, ofDigits_singleton, mul_zero, add_zero]
    · rw [dropWhile_cons, if_neg (by simpa using zero)]

/-- The digits of the value of a string are its digits without the zeroes in front. -/
theorem digits_hexValue (hex : ∀ c ∈ s, 0 ≤ xtoi c) :
    (digits 16 (hexValue 0 s)).reverse = (hexNumbers s).dropWhile (· = 0) := by
  rw [hexValue_eq, ofDigits_dropWhile, digits_ofDigits 16 (by decide), reverse_reverse]
  · intro d mem
    exact hexNumbers_lt hex ((dropWhile_sublist _).mem (mem_reverse.1 mem))
  · intro nonempty
    rw [getLast_reverse]
    have head := @head_dropWhile_not _ (fun d => decide (d = 0)) (hexNumbers s)
      (by simpa using nonempty)
    simpa using head

theorem dropWhile_itox {digits : List ℕ} (lt : ∀ d ∈ digits, d < 16) :
    (digits.map fun d : ℕ => itox d).dropWhile (· = '0') =
      (digits.dropWhile (· = 0)).map fun d : ℕ => itox d := by
  induction digits with
  | nil => rfl
  | cons d digits ih =>
    have same : decide (itox (d : ℤ) = '0') = decide (d = 0) := by
      have d_lt := lt d mem_cons_self
      interval_cases d <;> decide
    rw [map_cons, dropWhile_cons, dropWhile_cons, same,
      ih fun d mem => lt d (mem_cons_of_mem _ mem)]
    split_ifs
    · rfl
    · rfl

theorem hexDigits_hexValue (hex : ∀ c ∈ s, 0 ≤ xtoi c) :
    (hexDigits (hexValue 0 s)).reverse.map (fun d : ℕ => itox d) = normalized s := by
  rw [normalized, ← map_hexNumbers hex, dropWhile_itox fun d mem => hexNumbers_lt hex mem,
    ← digits_hexValue hex, hexDigits]
  by_cases zero : hexValue 0 s = 0
  · rw [if_pos zero, zero]
    decide
  · rw [if_neg zero, if_neg]
    rw [map_eq_nil_iff, reverse_eq_nil_iff]
    exact digits_ne_nil_iff_ne_zero.2 zero

theorem hexValue_ne_zero (hex : ∀ c ∈ s, 0 ≤ xtoi c) : hexValue 0 s ≠ 0 ↔ ∃ c ∈ s, c ≠ '0' := by
  rw [← digits_ne_nil_iff_ne_zero (b := 16), ← not_iff_not, not_not,
    ← reverse_eq_nil_iff, digits_hexValue hex, dropWhile_eq_nil_iff]
  simp only [not_exists, not_and, not_not]
  constructor
  · intro zeroes c mem
    obtain ⟨d, d_eq, -, -, zero_iff⟩ := xtoi_cases (hex c mem)
    have zero := zeroes (xtoi c).toNat (List.mem_map_of_mem mem)
    rw [d_eq, toNat_natCast, decide_eq_true_eq] at zero
    exact zero_iff.2 zero
  · intro zeroes d mem
    obtain ⟨c, c_mem, rfl⟩ := List.mem_map.1 mem
    rw [zeroes c c_mem]
    decide

/-- `xtom` reads back what `mtox` writes of any number but zero and the very long ones, for which
`mtox` writes outside its buffer. -/
theorem mtox_xtom_iff (stands : Stands m v) :
    (∃ buf m', mtox junk m = some buf ∧ xtom junk (cstring buf) = some (some m') ∧
      m'.Canonical ∧ m'.toInt = v) ↔ v ≠ 0 ∧ (v : ℤ) < base ^ mtoxDigits := by
  rw [← mtox_room_iff stands]
  constructor
  · rintro ⟨buf, -, written, -⟩
    by_contra long
    rw [mtox_outside stands (not_lt.1 long)] at written
    exact nomatch written
  · intro room
    obtain ⟨post, written⟩ := @mtox_spec junk _ _ stands room
    have lt : ∀ d ∈ hexDigits v, d < 16 := fun d mem => hexDigits_lt mem
    have hex : ∀ c ∈ (hexDigits v).reverse.map (fun d : ℕ => itox d), 0 ≤ xtoi c := by
      intro c mem
      obtain ⟨d, d_mem, rfl⟩ := List.mem_map.1 mem
      rw [(itox_hex (lt d (mem_reverse.1 d_mem))).1]
      exact natCast_nonneg d
    obtain ⟨m', read, stands'⟩ := @xtom_spec junk _ hex
    rw [hexValue_map lt, ofDigits_hexDigits] at stands'
    rw [written]
    refine ⟨_, m', rfl, ?_, stands'.canonical, stands'.toInt_eq⟩
    rw [cstring_digits, read]

/-- `mtox` writes the string back that `xtom` read, if there is a digit that is not zero and the
number is not too long. -/
theorem xtom_mtox_iff (hex : ∀ c ∈ s, 0 ≤ xtoi c) :
    (∃ m buf, xtom junk s = some (some m) ∧ mtox junk m = some buf ∧
      cstring buf = normalized s) ↔
      (∃ c ∈ s, c ≠ '0') ∧ (hexValue 0 s : ℤ) < base ^ mtoxDigits := by
  obtain ⟨m, read, stands⟩ := @xtom_spec junk s hex
  rw [← hexValue_ne_zero hex, ← mtox_room_iff stands, read]
  constructor
  · rintro ⟨m', buf, ⟨⟩, written, -⟩
    by_contra long
    rw [mtox_outside stands (not_lt.1 long)] at written
    exact nomatch written
  · intro room
    obtain ⟨post, written⟩ := @mtox_spec junk _ _ stands room
    refine ⟨m, _, rfl, written, ?_⟩
    rw [cstring_digits, hexDigits_hexValue hex]

end Sol25.Libmp
