import Mathlib.Algebra.Order.BigOperators.Group.List
import Mathlib.Algebra.Order.Ring.Int

/-!
# Counts from the wire

The operations of the memory stream and of the mblk stream that take a count in `XDR_DECODE` mode.
`x_handy` and the count are numbers of 32 bits, and their difference is compared with zero as a
signed number.
-/

namespace Sol25
namespace Xdr.Counts

open List Option BitVec

/-- `RNDUP` of an `int`. -/
def rndup (x : BitVec 32) : BitVec 32 := (x + 3).sdiv 4 * 4

/-- The bytes that a count stands for together with the padding. -/
def padded (n : BitVec 32) : ℕ := (n.toNat + 3) / 4 * 4

/-! ### The memory stream -/

/-- A memory stream: the bytes of the data, and `x_private` and `x_handy`. -/
structure MemStream where
  size : ℕ
  pos : ℤ
  handy : BitVec 32

namespace MemStream

/-- The part that `xdrmem_getbytes` and `XDR_SKIPBYTES` have in common. -/
def pass (x : MemStream) (len : BitVec 32) : Bool × MemStream :=
  let handy := x.handy - len
  if handy.toInt < 0 then
    (false, { x with handy }) else (true, { x with handy, pos := x.pos + len.toInt })

/-- `xdrmem_getbytes` -/
def getbytes (x : MemStream) (n : BitVec 32) : Bool × MemStream := x.pass n

/-- `XDR_SKIPBYTES` of `xdrmem_control` -/
def skipbytes (x : MemStream) (n : BitVec 32) : Bool × MemStream := x.pass (rndup n)

/-- `x_handy` does not promise more than there is. -/
structure Valid (x : MemStream) : Prop where
  pos_nonneg : 0 ≤ x.pos
  pos_le : x.pos ≤ x.size
  small : x.size < 2 ^ 31
  handy_le : x.handy.toInt ≤ x.size - x.pos

/-- An operation succeeds only if as many bytes are left, and leaves the position between the one
before and the end of the data. -/
structure Sound (x : MemStream) (count : ℕ) (r : Bool × MemStream) : Prop where
  enough : r.1 = true → (count : ℤ) ≤ x.size - x.pos
  forward : x.pos ≤ r.2.pos
  within : r.2.pos ≤ x.size

end MemStream

/-! ### The mblk stream -/

/-- A block of a message: `b_rptr`, `b_wptr`, and the word that lies at an address. -/
structure Block where
  rptr : ℤ
  wptr : ℤ
  word : ℤ → BitVec 32

def Block.len (m : Block) : ℤ := m.wptr - m.rptr

/-- An mblk stream: the blocks from `x_base` on, and `x_handy`. -/
structure MblkStream where
  blocks : List Block
  handy : BitVec 32

namespace MblkStream

/-- The loop that `xdrmblk_getbytes` and `XDR_SKIPBYTES` have in common. -/
def passLoop : List Block → BitVec 32 → BitVec 32 → Bool × MblkStream
  | [], handy, _ => (false, ⟨[], handy⟩)
  | m :: cont, handy, len =>
    if (handy - len).toInt < 0 then
      let handy := handy - len + len
      -- what is left of the block is taken, and the block is left
      let len := if 0 < handy.toInt then len - handy else len
      match cont with
      | [] => (false, ⟨[], 0⟩)
      | next :: _ => passLoop cont (BitVec.ofInt 32 next.len) len
    else (true, ⟨{ m with rptr := m.rptr + len.toInt } :: cont, handy - len⟩)

/-- `xdrmblk_getbytes` -/
def getbytes (s : MblkStream) (n : BitVec 32) : Bool × MblkStream := passLoop s.blocks s.handy n

/-- `XDR_SKIPBYTES` of `xdrmblk_control` -/
def skipbytes (s : MblkStream) (n : BitVec 32) : Bool × MblkStream :=
  passLoop s.blocks s.handy (rndup n)

/-- The loop of `xdrmblk_getlong`. -/
def getlongLoop : List Block → BitVec 32 → Option (BitVec 32) × MblkStream
  | [], handy => (none, ⟨[], handy⟩)
  | m :: cont, handy =>
    if (handy - 4).toInt < 0 then
      if handy - 4 ≠ -4 then (none, ⟨m :: cont, handy - 4⟩)
      else match cont with
        | [] => (none, ⟨[], 0⟩)
        | next :: _ => getlongLoop cont (BitVec.ofInt 32 next.len)
    else (some (m.word m.rptr), ⟨{ m with rptr := m.rptr + 4 } :: cont, handy - 4⟩)

/-- `xdrmblk_getlong` -/
def getlong (s : MblkStream) : Option (BitVec 32) × MblkStream := getlongLoop s.blocks s.handy

def left (s : MblkStream) : ℤ := (s.blocks.map Block.len).sum

/-- `xdrmblk_getmblk`: whether it succeeds, the blocks and the count it returns, and the stream. -/
def getmblk (s : MblkStream) : Bool × Option (List Block × BitVec 32) × MblkStream :=
  match s.getlong with
  | (none, s) => (false, none, s)
  | (some llen, s) =>
    if (BitVec.ofInt 32 s.left).toInt < llen.toInt then (false, some (s.blocks, llen), s)
    else (true, some (s.blocks, llen), ⟨[], 0⟩)

def InOrder (s : MblkStream) : Prop := ∀ m ∈ s.blocks, m.rptr ≤ m.wptr

/-- `x_handy` does not promise more than there is in the first block. -/
structure Valid (s : MblkStream) : Prop where
  inOrder : s.InOrder
  small : s.left < 2 ^ 31
  handy_le : ∀ m ∈ s.blocks.head?, s.handy.toInt ≤ m.len

/-- An operation succeeds only if as many bytes are left, does not move back, and does not leave the
data. -/
structure Sound (s : MblkStream) (count : ℕ) (r : Bool × MblkStream) : Prop where
  enough : r.1 = true → (count : ℤ) ≤ s.left
  forward : r.2.left ≤ s.left
  within : r.2.InOrder

end MblkStream

/-! ### Numbers of 32 bits -/

variable {n h l : BitVec 32}

theorem sub_toInt_nonneg_iff : 0 ≤ (h - l).toInt ↔
    (l.toNat : ℤ) ≤ h.toInt ∨ h.toInt + 2 ^ 31 < l.toNat ∧ (l.toNat : ℤ) ≤ h.toInt + 2 ^ 32 := by
  have h_lt := h.isLt
  have l_lt := l.isLt
  rw [toInt_eq_toNat_cond, toInt_eq_toNat_cond h, toNat_sub]
  split <;> split <;> omega

theorem toInt_small (small : l.toNat < 2 ^ 31) : l.toInt = l.toNat := by
  rw [toInt_eq_toNat_cond, if_pos (by omega)]

theorem toNat_nonneg (nonneg : 0 ≤ h.toInt) : h.toInt = h.toNat := by
  have bound := h.isLt
  rw [toInt_eq_toNat_cond] at nonneg ⊢
  split at nonneg <;> omega

theorem ofInt_toInt {i : ℤ} (nonneg : 0 ≤ i) (small : i < 2 ^ 31) :
    (BitVec.ofInt 32 i).toInt = i := by
  rw [toInt_ofInt]
  exact Int.bmod_eq_of_le (by omega) (by omega)

theorem rndup_small (small : n.toNat ≤ 2 ^ 31 - 4) : (rndup n).toNat = padded n := by
  have three : (3 : BitVec 32).toNat = 3 := rfl
  have four : (4 : BitVec 32).toNat = 4 := rfl
  have sum : (n + 3).toNat = n.toNat + 3 := by
    rw [toNat_add, three]
    omega
  have positive : (n + 3).msb = false := by
    rw [msb_eq_false_iff_two_mul_lt, sum]
    omega
  have four_positive : (4 : BitVec 32).msb = false := rfl
  rw [rndup, padded, sdiv_eq, positive, four_positive]
  dsimp only
  rw [toNat_mul, udiv_eq, toNat_udiv, sum, four]
  omega

/-- From `2 ^ 31 - 3` on the sum or the count itself is negative, and so is the result unless it is
zero. -/
theorem rndup_large (large : 2 ^ 31 - 4 < n.toNat) : rndup n = 0 ∨ 2 ^ 31 ≤ (rndup n).toNat := by
  have three : (3 : BitVec 32).toNat = 3 := rfl
  have four : (4 : BitVec 32).toNat = 4 := rfl
  have four_positive : (4 : BitVec 32).msb = false := rfl
  have bound := n.isLt
  have sum : (n + 3).toNat = (n.toNat + 3) % 2 ^ 32 := by rw [toNat_add, three]
  rw [rndup, sdiv_eq, four_positive]
  cases sign : (n + 3).msb with
  | false =>
    rw [msb_eq_false_iff_two_mul_lt, sum] at sign
    refine .inl (eq_of_toNat_eq ?_)
    have zero : (0 : BitVec 32).toNat = 0 := rfl
    dsimp only
    rw [toNat_mul, udiv_eq, toNat_udiv, sum, four, zero]
    omega
  | true =>
    rw [msb_eq_true_iff_two_mul_ge, sum] at sign
    dsimp only
    rw [BitVec.neg_mul]
    by_cases zero : (-(n + 3)).udiv 4 * 4 = 0
    · rw [zero]
      exact .inl rfl
    · have ne : ((-(n + 3)).udiv 4 * 4).toNat ≠ 0 := fun eq => zero (eq_of_toNat_eq eq)
      have le : ((-(n + 3)).udiv 4 * 4).toNat ≤ 2 ^ 31 := by
        rw [toNat_mul, udiv_eq, toNat_udiv, toNat_neg, sum, four]
        omega
      rw [toNat_neg]
      omega

/-- A count with its padding is what `RNDUP` gives, or does not fit into 31 bits. -/
theorem rndup_cases : (rndup n).toNat = padded n ∧ padded n < 2 ^ 31 ∨
    2 ^ 31 ≤ padded n ∧ (rndup n = 0 ∨ 2 ^ 31 ≤ (rndup n).toNat) := by
  by_cases small : n.toNat ≤ 2 ^ 31 - 4
  · refine .inl ⟨rndup_small small, ?_⟩
    rw [padded]
    omega
  · refine .inr ⟨?_, rndup_large (by omega)⟩
    rw [padded]
    omega

/-! ### The memory stream -/

namespace MemStream

variable {x : MemStream}

theorem pass_sound_iff {count : ℕ} (valid : x.Valid)
    (agree : l.toNat = count ∧ count < 2 ^ 31 ∨ 2 ^ 31 ≤ count) :
    x.Sound count (x.pass l) ↔ (count : ℤ) ≤ x.size - x.pos ∨ x.handy.toInt < l.toNat ∧
        (l.toNat : ℤ) ≤ x.handy.toInt + 2 ^ 31 ∨
        x.handy.toInt + 2 ^ 32 < l.toNat := by
  obtain ⟨pos_nonneg, pos_le, small, handy_le⟩ := valid
  have passes := @sub_toInt_nonneg_iff x.handy l
  rw [pass]
  by_cases refused : (x.handy - l).toInt < 0
  · rw [if_pos refused]
    have bounds := mt passes.2 (Int.not_le.2 refused)
    refine ⟨fun _ => ?_, fun _ => ⟨nofun, Int.le_refl _, pos_le⟩⟩
    omega
  · rw [if_neg refused]
    have bounds := passes.1 (Int.not_lt.1 refused)
    constructor
    · exact fun sound => .inl (sound.enough rfl)
    · intro condition
      have enough : (count : ℤ) ≤ x.size - x.pos := by omega
      have same : l.toNat = count := by omega
      have step : l.toInt = count := by rw [toInt_small (by omega), same]
      refine ⟨fun _ => enough, ?_, ?_⟩ <;> dsimp only <;> omega

end MemStream

/-! ### The mblk stream -/

namespace MblkStream

variable {m next : Block} {cont : List Block} {s : MblkStream} {r : Bool × MblkStream}
  {count count' : ℕ}

theorem left_nil : left ⟨[], h⟩ = 0 := rfl

theorem left_cons : left ⟨m :: cont, h⟩ = m.len + (cont.map Block.len).sum := by
  rw [left, map_cons, sum_cons]

theorem InOrder.len_nonneg (inOrder : InOrder ⟨m :: cont, h⟩) : 0 ≤ m.len := by
  have le := inOrder m mem_cons_self
  rw [Block.len]
  exact Int.sub_nonneg_of_le le

theorem InOrder.tail (inOrder : InOrder ⟨m :: cont, h⟩) : InOrder ⟨cont, l⟩ := fun next mem =>
  inOrder next (mem_cons_of_mem m mem)

theorem InOrder.left_nonneg (inOrder : InOrder s) : 0 ≤ s.left := by
  refine sum_nonneg fun len mem => ?_
  obtain ⟨m, m_mem, rfl⟩ := List.mem_map.1 mem
  have le := inOrder m m_mem
  rw [Block.len]
  exact Int.sub_nonneg_of_le le

theorem Sound.at_end (inOrder : InOrder s) : Sound s count (false, ⟨[], h⟩) :=
  ⟨nofun, inOrder.left_nonneg, fun _ mem => (nomatch mem)⟩

theorem Sound.any (sound : Sound s count r) (more : s.left < count) : Sound s count' r :=
  ⟨fun ok => absurd (sound.enough ok) (Int.not_le.2 more), sound.forward, sound.within⟩

theorem Sound.behind (sound : Sound ⟨cont, l⟩ count' r) (inOrder : InOrder ⟨m :: cont, h⟩)
    (le : (count : ℤ) ≤ m.len + count') : Sound ⟨m :: cont, h⟩ count r := by
  have nonneg := inOrder.len_nonneg
  refine ⟨fun ok => ?_, ?_, sound.within⟩
  · have enough := sound.enough ok
    rw [left_cons]
    exact le.trans (Int.add_le_add_left enough _)
  · have forward := sound.forward
    rw [left_cons]
    exact forward.trans (by rw [left]; dsimp only; omega)

/-- What is still asked for when a block has been left. -/
def remaining (h l : BitVec 32) : BitVec 32 := if 0 < h.toInt then l - h else l

theorem passLoop_next (refused : (h - l).toInt < 0) : passLoop (m :: next :: cont) h l =
    passLoop (next :: cont) (BitVec.ofInt 32 next.len) (remaining h l) := by
  rw [passLoop, if_pos refused, sub_add_cancel]
  rfl

theorem passLoop_last (refused : (h - l).toInt < 0) : passLoop [m] h l = (false, ⟨[], 0⟩) := by
  rw [passLoop, if_pos refused]

theorem passLoop_here (passes : 0 ≤ (h - l).toInt) : passLoop (m :: cont) h l =
    (true, ⟨{ m with rptr := m.rptr + l.toInt } :: cont, h - l⟩) := by
  rw [passLoop, if_neg (Int.not_lt.2 passes)]

theorem remaining_toNat (refused : (h - l).toInt < 0) (nonneg : 0 ≤ h.toInt) :
    ((remaining h l).toNat : ℤ) = l.toNat - h.toInt := by
  have bounds := mt sub_toInt_nonneg_iff.2 (Int.not_le.2 refused)
  have h_eq := toNat_nonneg nonneg
  have l_lt := l.isLt
  rw [remaining]
  split
  · rw [toNat_sub]
    omega
  · omega

/-- The blocks behind the first one are a stream whose `x_handy` is the length of the next block. -/
theorem Valid.tail (valid : Valid ⟨m :: next :: cont, h⟩) :
    Valid ⟨next :: cont, BitVec.ofInt 32 next.len⟩ ∧
      (BitVec.ofInt 32 next.len).toInt = next.len := by
  have inOrder : InOrder ⟨next :: cont, BitVec.ofInt 32 next.len⟩ := valid.inOrder.tail
  have nonneg := valid.inOrder.len_nonneg
  have small := valid.small
  have behind := (inOrder.tail (l := h)).left_nonneg
  rw [left_cons, map_cons, sum_cons] at small
  rw [left] at behind
  dsimp only at behind
  have eq : (BitVec.ofInt 32 next.len).toInt = next.len := ofInt_toInt inOrder.len_nonneg (by omega)
  refine ⟨⟨inOrder, ?_, fun m' mem => ?_⟩, eq⟩
  · rw [left_cons]
    omega
  · obtain rfl := some.inj mem
    exact Int.le_of_eq eq

/-- A count of 31 bits. -/
theorem passLoop_small (valid : Valid ⟨cont, h⟩) (nonneg : 0 ≤ h.toInt) (small : l.toNat < 2 ^ 31) :
    Sound ⟨cont, h⟩ l.toNat (passLoop cont h l) := by
  induction cont generalizing h l with
  | nil => exact Sound.at_end valid.inOrder
  | cons m cont ih =>
    have handy_le : h.toInt ≤ m.len := valid.handy_le m rfl
    by_cases passes : 0 ≤ (h - l).toInt
    · have bounds := sub_toInt_nonneg_iff.1 passes
      have step := toInt_small small
      have behind := (valid.inOrder.tail (l := h)).left_nonneg
      rw [left] at behind
      dsimp only at behind
      rw [passLoop_here passes]
      refine ⟨fun _ => ?_, ?_, fun m' mem => ?_⟩
      · rw [left_cons]
        omega
      · rw [left_cons, left_cons, Block.len, Block.len]
        dsimp only
        omega
      · rcases mem_cons.1 mem with rfl | mem
        · rw [Block.len] at handy_le
          dsimp only
          omega
        · exact valid.inOrder m' (mem_cons_of_mem m mem)
    have refused := Int.not_le.1 passes
    have bounds := mt sub_toInt_nonneg_iff.2 passes
    cases cont with
    | nil =>
      rw [passLoop_last refused]
      exact Sound.at_end valid.inOrder
    | cons next cont =>
      rw [passLoop_next refused]
      obtain ⟨valid', eq⟩ := valid.tail
      have rest := remaining_toNat refused nonneg
      have sound := ih valid' (by rw [eq]; exact valid'.inOrder.len_nonneg)
        (by omega : (remaining h l).toNat < 2 ^ 31)
      exact sound.behind valid.inOrder (by omega)

/-- A count of more than 31 bits that is refused at the first block is refused at the others. -/
theorem passLoop_refused (valid : Valid ⟨cont, h⟩) (nonneg : 0 ≤ h.toInt) (large : 2 ^ 31 ≤ l.toNat)
    (refused : (l.toNat : ℤ) ≤ h.toInt + 2 ^ 31) : Sound ⟨cont, h⟩ count (passLoop cont h l) := by
  induction cont generalizing h l with
  | nil => exact Sound.at_end valid.inOrder
  | cons m cont ih =>
    have handy_le : h.toInt ≤ m.len := valid.handy_le m rfl
    have total := valid.small
    have behind := (valid.inOrder.tail (l := h)).left_nonneg
    rw [left] at behind
    dsimp only at behind
    rw [left_cons] at total
    have stops : (h - l).toInt < 0 := by
      refine Int.not_le.1 (mt sub_toInt_nonneg_iff.1 ?_)
      omega
    have rest := remaining_toNat stops nonneg
    cases cont with
    | nil =>
      rw [passLoop_last stops]
      exact Sound.at_end valid.inOrder
    | cons next cont =>
      rw [passLoop_next stops]
      obtain ⟨valid', eq⟩ := valid.tail
      have nonneg' : 0 ≤ (BitVec.ofInt 32 next.len).toInt := by
        rw [eq]
        exact valid'.inOrder.len_nonneg
      by_cases small : (remaining h l).toNat < 2 ^ 31
      · have sound := passLoop_small valid' nonneg' small
        have total' : left ⟨next :: cont, BitVec.ofInt 32 next.len⟩ =
            ((next :: cont).map Block.len).sum := rfl
        have all : Sound ⟨next :: cont, _⟩ (count + 2 ^ 31) _ := sound.any (by omega)
        exact all.behind valid.inOrder (by omega)
      · have sound := ih valid' nonneg' (Nat.le_of_not_lt small) (by omega)
        exact sound.behind valid.inOrder (by omega)

/-- The counts that the streams check properly, for what is in the first block and the next one: it
is in the first block, or its difference from `x_handy` is negative as a number of 32 bits. -/
def Proper (handy : ℤ) (len : ℕ) : List Block → Prop
  | [] => True
  | m :: cont =>
    len ≤ m.len ∨ len ≤ handy + 2 ^ 31 ∨ handy + 2 ^ 32 < len ∧ ∀ next ∈ cont.head?,
      len ≤ next.len + 2 ^ 31

theorem passLoop_sound_iff (valid : Valid ⟨cont, h⟩)
    (agree : count = l.toNat ∨ 2 ^ 31 ≤ count ∧ 2 ^ 31 ≤ l.toNat) :
    Sound ⟨cont, h⟩ count (passLoop cont h l) ↔ Proper h.toInt l.toNat cont := by
  cases cont with
  | nil => exact ⟨fun _ => trivial, fun _ => Sound.at_end valid.inOrder⟩
  | cons m cont =>
    have handy_le : h.toInt ≤ m.len := valid.handy_le m rfl
    have total := valid.small
    have nonneg := valid.inOrder.len_nonneg
    have behind := (valid.inOrder.tail (l := h)).left_nonneg
    have l_lt := l.isLt
    have h_ge : -2 ^ 32 ≤ 2 * h.toInt := le_two_mul_toInt
    rw [left] at behind
    dsimp only at behind
    rw [left_cons] at total
    rw [Proper]
    by_cases passes : 0 ≤ (h - l).toInt
    · have bounds := sub_toInt_nonneg_iff.1 passes
      rw [passLoop_here passes]
      constructor
      · intro sound
        have enough := sound.enough rfl
        have within : m.rptr + l.toInt ≤ m.wptr := sound.within _ mem_cons_self
        rw [left_cons] at enough
        have step := toInt_small (show l.toNat < 2 ^ 31 by omega)
        rw [step] at within
        refine .inl ?_
        rw [Block.len]
        omega
      · intro proper
        have le : (l.toNat : ℤ) ≤ m.len := by omega
        have step := toInt_small (show l.toNat < 2 ^ 31 by omega)
        refine ⟨fun _ => ?_, ?_, fun m' mem => ?_⟩
        · rw [left_cons]
          omega
        · rw [left_cons, left_cons, Block.len, Block.len]
          dsimp only
          omega
        · rcases mem_cons.1 mem with rfl | mem
          · rw [Block.len] at le
            dsimp only
            omega
          · exact valid.inOrder m' (mem_cons_of_mem m mem)
    have refused := Int.not_le.1 passes
    have bounds := mt sub_toInt_nonneg_iff.2 passes
    by_cases live : 0 ≤ h.toInt
    · refine ⟨fun _ => .inr (.inl (by omega)), fun _ => ?_⟩
      by_cases small : l.toNat < 2 ^ 31
      · obtain rfl : count = l.toNat := by omega
        exact passLoop_small valid live small
      · exact passLoop_refused valid live (Nat.le_of_not_lt small) (by omega)
    have same : remaining h l = l := if_neg (by omega)
    cases cont with
    | nil =>
      rw [passLoop_last refused]
      refine ⟨fun _ => ?_, fun _ => Sound.at_end valid.inOrder⟩
      by_cases below : (l.toNat : ℤ) ≤ h.toInt + 2 ^ 31
      · exact .inr (.inl below)
      · exact .inr (.inr ⟨by omega, fun next mem => nomatch mem⟩)
    | cons next cont =>
      rw [passLoop_next refused, same]
      obtain ⟨valid', eq⟩ := valid.tail
      have nonneg' : 0 ≤ (BitVec.ofInt 32 next.len).toInt := by
        rw [eq]
        exact valid'.inOrder.len_nonneg
      by_cases below : (l.toNat : ℤ) ≤ h.toInt + 2 ^ 31
      · refine ⟨fun _ => .inr (.inl below), fun _ => ?_⟩
        have sound := passLoop_small valid' nonneg' (show l.toNat < 2 ^ 31 by omega)
        exact sound.behind valid.inOrder (by omega)
      by_cases refused' : (l.toNat : ℤ) ≤ next.len + 2 ^ 31
      · constructor
        · refine fun _ => .inr (.inr ⟨by omega, fun m' mem => ?_⟩)
          obtain rfl := some.inj mem
          exact refused'
        · intro _
          have sound : Sound _ count _ :=
            passLoop_refused valid' nonneg' (show 2 ^ 31 ≤ l.toNat by omega)
              (by rw [eq]; exact refused')
          exact sound.behind valid.inOrder (by omega)
      · have passes' : 0 ≤ (BitVec.ofInt 32 next.len - l).toInt := by
          rw [sub_toInt_nonneg_iff, eq]
          have small := valid'.inOrder.len_nonneg
          omega
        rw [passLoop_here passes']
        constructor
        · intro sound
          have enough := sound.enough rfl
          rw [left_cons] at enough
          omega
        · rintro (here | below' | ⟨-, next_le⟩)
          · omega
          · exact absurd below' below
          · exact absurd (next_le next rfl) refused'

/-- `RNDUP` makes zero of a count near `2 ^ 32`, and zero bytes are there in the first block that is
looked at with `x_handy` not negative. -/
theorem passLoop_zero_iff (valid : Valid ⟨cont, h⟩) (large : 2 ^ 31 ≤ count) :
    Sound ⟨cont, h⟩ count (passLoop cont h 0) ↔ cont = [] ∨ h.toInt < 0 ∧ cont.tail = [] := by
  have total := valid.small
  have zero : (0 : BitVec 32).toNat = 0 := rfl
  cases cont with
  | nil => exact ⟨fun _ => .inl rfl, fun _ => Sound.at_end valid.inOrder⟩
  | cons m cont =>
    by_cases passes : 0 ≤ (h - 0).toInt
    · have bounds := sub_toInt_nonneg_iff.1 passes
      rw [zero] at bounds
      rw [passLoop_here passes]
      refine ⟨fun sound => absurd (sound.enough rfl) (by omega), ?_⟩
      rintro (empty | ⟨negative, -⟩)
      · exact nomatch empty
      · have h_ge : -2 ^ 32 ≤ 2 * h.toInt := le_two_mul_toInt
        omega
    have refused := Int.not_le.1 passes
    have negative := mt sub_toInt_nonneg_iff.2 passes
    rw [zero] at negative
    cases cont with
    | nil =>
      rw [passLoop_last refused]
      exact ⟨fun _ => .inr ⟨by omega, rfl⟩, fun _ => Sound.at_end valid.inOrder⟩
    | cons next cont =>
      obtain ⟨valid', eq⟩ := valid.tail
      have nonneg' := valid'.inOrder.len_nonneg
      have same : remaining h 0 = 0 := if_neg (by omega)
      have passes' : 0 ≤ (BitVec.ofInt 32 next.len - 0).toInt := by
        rw [sub_toInt_nonneg_iff, eq, zero]
        omega
      rw [passLoop_next refused, same, passLoop_here passes']
      refine ⟨fun sound => absurd (sound.enough rfl) (by omega), ?_⟩
      rintro (empty | ⟨-, empty⟩)
      · exact nomatch empty
      · exact nomatch empty

/-- A count on the wire and where `XDR_GETLONG` finds it: the four bytes are there. -/
theorem getlongLoop_spec (valid : Valid ⟨cont, h⟩)
    (there : ∀ m ∈ cont.head?, -2 ^ 31 + 4 ≤ h.toInt ∨ 4 ≤ m.len) :
    (getlongLoop cont h).2.left ≤ left ⟨cont, h⟩ ∧ (getlongLoop cont h).2.InOrder := by
  induction cont generalizing h with
  | nil => exact ⟨Int.le_refl _, fun _ mem => (nomatch mem)⟩
  | cons m cont ih =>
    have handy_le : h.toInt ≤ m.len := valid.handy_le m rfl
    have there : -2 ^ 31 + 4 ≤ h.toInt ∨ 4 ≤ m.len := there m rfl
    have four : (4 : BitVec 32).toNat = 4 := rfl
    have nonneg := valid.inOrder.len_nonneg
    rw [getlongLoop.eq_def]
    dsimp only
    by_cases passes : 0 ≤ (h - 4).toInt
    · have bounds := sub_toInt_nonneg_iff.1 passes
      rw [four] at bounds
      rw [if_neg (Int.not_lt.2 passes)]
      have enough : 4 ≤ m.len := by omega
      refine ⟨?_, fun m' mem => ?_⟩
      · rw [left_cons, left_cons, Block.len, Block.len]
        dsimp only
        omega
      · rcases mem_cons.1 mem with rfl | mem
        · rw [Block.len] at enough
          dsimp only
          omega
        · exact valid.inOrder m' (mem_cons_of_mem m mem)
    · rw [if_pos (Int.not_le.1 passes)]
      by_cases empty : h - 4 = -4
      · rw [if_neg (not_not.2 empty)]
        cases cont with
        | nil => exact ⟨valid.inOrder.left_nonneg, fun _ mem => (nomatch mem)⟩
        | cons next cont =>
          obtain ⟨valid', eq⟩ := valid.tail
          have nonneg' := valid'.inOrder.len_nonneg
          obtain ⟨forward, within⟩ := ih valid' fun m' _ => .inl (by rw [eq]; omega)
          refine ⟨forward.trans ?_, within⟩
          rw [left_cons, left_cons, map_cons, sum_cons]
          omega
      · rw [if_pos empty]
        exact ⟨Int.le_refl _, valid.inOrder⟩

/-- `xdrmblk_getmblk` succeeds only if the bytes it has read the count of are left, and the stream
is sound. -/
structure MblkSound (s : MblkStream) : Prop where
  enough : s.getmblk.1 = true → ∀ llen s', s.getlong = (some llen, s') → (llen.toNat : ℤ) ≤ s'.left
  forward : s.getmblk.2.2.left ≤ s.left
  within : s.getmblk.2.2.InOrder

/-- The count is one of 31 bits.  Where `x_handy` wraps around when the count itself is read, the
bytes are there together with the count. -/
def MblkProper (s : MblkStream) : Prop :=
  match s.blocks with
  | [] => True
  | m :: _ =>
    if s.handy.toInt < -2 ^ 31 + 4 ∧ m.len < 4 then ((m.word m.rptr).toNat + 4 : ℤ) ≤ s.left
    else ∀ llen s', s.getlong = (some llen, s') → llen.toNat < 2 ^ 31

/-- The comparison of `xdrmblk_getmblk` when the count has been read. -/
theorem getmblk_read {s' : MblkStream} {llen : BitVec 32} (read : s.getlong = (some llen, s'))
    (forward : s'.left ≤ s.left) (total : s.left < 2 ^ 31) (negative : -2 ^ 31 ≤ s'.left) :
    (s.MblkSound ↔ (llen.toNat : ℤ) ≤ s'.left ∨ s'.left < llen.toInt ∧ s'.InOrder) := by
  have small : (BitVec.ofInt 32 s'.left).toInt = s'.left := by
    rw [toInt_ofInt]
    exact Int.bmod_eq_of_le (by omega) (by omega)
  have outcome : s.getmblk = if s'.left < llen.toInt then (false, some (s'.blocks, llen), s')
      else (true, some (s'.blocks, llen), ⟨[], 0⟩) := by
    rw [getmblk, read]
    dsimp only
    rw [small]
  by_cases fails : s'.left < llen.toInt
  · rw [if_pos fails] at outcome
    constructor
    · intro sound
      have within := sound.within
      rw [outcome] at within
      exact .inr ⟨fails, within⟩
    · rintro (le | ⟨-, within⟩)
      · have step := toInt_small (show llen.toNat < 2 ^ 31 by omega)
        omega
      · exact ⟨by rw [outcome]; exact nofun, by rw [outcome]; exact forward,
          by rw [outcome]; exact within⟩
  · rw [if_neg fails] at outcome
    constructor
    · intro sound
      exact .inl (sound.enough (by rw [outcome]) llen s' read)
    · rintro (le | ⟨lt, -⟩)
      · refine ⟨fun _ llen' s'' read' => ?_, ?_, ?_⟩
        · cases read.symm.trans read'
          exact le
        · rw [outcome, left_nil]
          omega
        · rw [outcome]
          exact fun _ mem => (nomatch mem)
      · exact absurd lt fails

theorem getmblk_sound_iff (valid : s.Valid) : s.MblkSound ↔ s.MblkProper := by
  obtain ⟨cont, h⟩ := s
  cases cont with
  | nil =>
    refine ⟨fun _ => trivial, fun _ => ⟨nofun, Int.le_refl _, fun _ mem => (nomatch mem)⟩⟩
  | cons m cont =>
    have total := valid.small
    have nonneg := valid.inOrder.left_nonneg
    rw [MblkProper]
    dsimp only
    by_cases wraps : h.toInt < -2 ^ 31 + 4 ∧ m.len < 4
    · rw [if_pos wraps]
      have four : (4 : BitVec 32).toNat = 4 := rfl
      have h_ge : -2 ^ 32 ≤ 2 * h.toInt := le_two_mul_toInt
      have passes : 0 ≤ (h - 4).toInt := by
        rw [sub_toInt_nonneg_iff, four]
        omega
      have read : getlong ⟨m :: cont, h⟩ =
          (some (m.word m.rptr), ⟨{ m with rptr := m.rptr + 4 } :: cont, h - 4⟩) := by
        rw [getlong, getlongLoop.eq_def]
        dsimp only
        rw [if_neg (Int.not_lt.2 passes)]
      have less : left ⟨{ m with rptr := m.rptr + 4 } :: cont, h - 4⟩ = left
          ⟨m :: cont, h⟩ - 4 := by
        rw [left_cons, left_cons, Block.len, Block.len]
        dsimp only
        omega
      rw [getmblk_read read (by omega) total (by omega), less]
      have out : ¬ InOrder ⟨{ m with rptr := m.rptr + 4 } :: cont, h - 4⟩ := by
        intro within
        have le : m.rptr + 4 ≤ m.wptr := within _ mem_cons_self
        rw [Block.len] at wraps
        omega
      constructor
      · rintro (le | ⟨-, within⟩)
        · omega
        · exact absurd within out
      · exact fun le => .inl (by omega)
    · rw [if_neg wraps]
      obtain ⟨forward, within⟩ := getlongLoop_spec valid fun m' mem => by
        obtain rfl := some.inj mem
        omega
      cases read : getlong ⟨m :: cont, h⟩ with
      | mk found s' =>
        have same : getlongLoop (m :: cont) h = (found, s') := read
        rw [same] at forward within
        dsimp only at forward within
        cases found with
        | none =>
          have outcome : getmblk ⟨m :: cont, h⟩ = (false, none, s') := by rw [getmblk, read]
          refine ⟨fun _ llen s'' eq => (nomatch eq), fun _ => ⟨?_, ?_, ?_⟩⟩
          · rw [outcome]
            exact nofun
          · rw [outcome]
            exact forward
          · rw [outcome]
            exact within
        | some llen =>
          have behind := within.left_nonneg
          rw [getmblk_read read forward total (by omega)]
          constructor
          · rintro (le | ⟨lt, -⟩) llen' s'' eq
            · cases eq
              omega
            · cases eq
              rw [toInt_eq_toNat_cond] at lt
              split at lt <;> omega
          · intro small
            have step := toInt_small (small llen s' rfl)
            by_cases le : (llen.toNat : ℤ) ≤ s'.left
            · exact .inl le
            · exact .inr ⟨by omega, within⟩

/-- `XDR_SKIPBYTES` checks the count properly. -/
def SkipProper (s : MblkStream) (n : BitVec 32) : Prop :=
  if 2 ^ 31 ≤ padded n ∧ rndup n = 0 then s.blocks = [] ∨ s.handy.toInt < 0 ∧ s.blocks.tail = []
  else Proper s.handy.toInt (rndup n).toNat s.blocks

theorem skipbytes_sound_iff (valid : s.Valid) :
    s.Sound (padded n) (s.skipbytes n) ↔ s.SkipProper n := by
  rw [SkipProper, skipbytes]
  by_cases zero : 2 ^ 31 ≤ padded n ∧ rndup n = 0
  · rw [if_pos zero, zero.2]
    exact passLoop_zero_iff valid zero.1
  · rw [if_neg zero]
    refine passLoop_sound_iff valid ?_
    rcases @rndup_cases n with ⟨eq, -⟩ | ⟨large, eq | large'⟩
    · exact .inl eq.symm
    · exact absurd ⟨large, eq⟩ zero
    · exact .inr ⟨large, large'⟩

end MblkStream

/-! ### All of them -/

/-- What a memory stream and an mblk stream promise about a count. -/
structure CountLaw (x : MemStream) (s : MblkStream) (n : BitVec 32) : Prop where
  mem_getbytes : x.Sound n.toNat (x.getbytes n)
  mem_skipbytes : x.Sound (padded n) (x.skipbytes n)
  mblk_getbytes : s.Sound n.toNat (s.getbytes n)
  mblk_skipbytes : s.Sound (padded n) (s.skipbytes n)
  mblk_getmblk : s.MblkSound

/-- The counts for which they keep it.  With `x_handy` not negative a count passed to `XDR_GETBYTES`
may be up to `2 ^ 31 + x_handy`. -/
structure CountProper (x : MemStream) (s : MblkStream) (n : BitVec 32) : Prop where
  mem_getbytes : (n.toNat : ℤ) ≤ x.size - x.pos ∨
    x.handy.toInt < n.toNat ∧ (n.toNat : ℤ) ≤ x.handy.toInt + 2 ^ 31 ∨
      x.handy.toInt + 2 ^ 32 < n.toNat
  mem_skipbytes : (padded n : ℤ) ≤ x.size - x.pos ∨
    x.handy.toInt < (rndup n).toNat ∧ ((rndup n).toNat : ℤ) ≤ x.handy.toInt + 2 ^ 31 ∨
      x.handy.toInt + 2 ^ 32 < (rndup n).toNat
  mblk_getbytes : MblkStream.Proper s.handy.toInt n.toNat s.blocks
  mblk_skipbytes : s.SkipProper n
  mblk_getmblk : s.MblkProper

/-- The operations succeed only if as many bytes are left, and move the stream forward within its
data, exactly for the counts that are proper. -/
theorem count_law_iff {x : MemStream} {s : MblkStream} (valid : x.Valid) (valid' : s.Valid)
    (n : BitVec 32) :
    CountLaw x s n ↔ CountProper x s n := by
  have agree : n.toNat = n.toNat ∧ n.toNat < 2 ^ 31 ∨ 2 ^ 31 ≤ n.toNat := by omega
  have agree' : (rndup n).toNat = padded n ∧ padded n < 2 ^ 31 ∨ 2 ^ 31 ≤ padded n :=
    rndup_cases.imp_right And.left
  have mem_getbytes := MemStream.pass_sound_iff valid agree
  have mem_skipbytes := MemStream.pass_sound_iff valid agree'
  have mblk_getbytes : s.Sound n.toNat (s.getbytes n) ↔
      MblkStream.Proper s.handy.toInt n.toNat s.blocks :=
    MblkStream.passLoop_sound_iff valid' (.inl rfl)
  have mblk_skipbytes := @MblkStream.skipbytes_sound_iff n s valid'
  have mblk_getmblk := MblkStream.getmblk_sound_iff valid'
  constructor
  · intro law
    exact ⟨mem_getbytes.1 law.mem_getbytes, mem_skipbytes.1 law.mem_skipbytes,
      mblk_getbytes.1 law.mblk_getbytes,
      mblk_skipbytes.1 law.mblk_skipbytes, mblk_getmblk.1 law.mblk_getmblk⟩
  · intro proper
    exact ⟨mem_getbytes.2 proper.mem_getbytes, mem_skipbytes.2 proper.mem_skipbytes,
      mblk_getbytes.2 proper.mblk_getbytes, mblk_skipbytes.2 proper.mblk_skipbytes,
      mblk_getmblk.2 proper.mblk_getmblk⟩

def eightBytes : MemStream := ⟨8, 0, 8⟩

/-- Eight bytes in one block, which begin with the word `v`. -/
def oneBlock (v : BitVec 32) : MblkStream := ⟨[⟨0, 8, fun _ => v⟩], 8⟩

theorem eightBytes_valid : eightBytes.Valid := ⟨by decide, by decide, by decide, by decide⟩

theorem oneBlock_valid (v : BitVec 32) : (oneBlock v).Valid := by
  refine ⟨fun m mem => ?_, show (8 : ℤ) < 2 ^ 31 by decide, fun m mem => ?_⟩
  · obtain rfl := mem_singleton.1 mem
    exact show (0 : ℤ) ≤ 8 by decide
  · obtain rfl := some.inj mem
    exact show (8 : BitVec 32).toInt ≤ 8 - 0 by decide

/-- Four bytes are taken off streams of eight bytes. -/
theorem count_law_four : CountLaw eightBytes (oneBlock 4) 4 := by
  refine (count_law_iff eightBytes_valid (oneBlock_valid 4) 4).2 ⟨by decide, by decide, ?_, ?_, ?_⟩
  · exact .inl (show ((4 : BitVec 32).toNat : ℤ) ≤ 8 - 0 by decide)
  · rw [MblkStream.SkipProper, if_neg (by decide)]
    exact .inl (show ((rndup 4).toNat : ℤ) ≤ 8 - 0 by decide)
  · rw [MblkStream.MblkProper]
    intro llen s' read
    obtain rfl : 4 = llen := some.inj (congrArg Prod.fst read)
    decide

/-- A count of `2 ^ 32 - 4` moves the memory stream back by four bytes, and succeeds. -/
theorem not_count_law :
    ¬ ∀ (x : MemStream) (s : MblkStream), x.Valid → s.Valid → ∀ n, CountLaw x s n := by
  intro all
  have law := all eightBytes (oneBlock 4) eightBytes_valid (oneBlock_valid 4) 0xfffffffc
  have forward : (0 : ℤ) ≤ (eightBytes.getbytes 0xfffffffc).2.pos := law.mem_getbytes.forward
  exact absurd forward (by decide)

end Xdr.Counts
end Sol25
