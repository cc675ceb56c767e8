import Mathlib.Algebra.Order.Ring.Int

/-!
# Blocks and fragments

The free map of a cylinder group, `ufs_tables.c` and the block operations of `ufs_subr.c`: a bit for
each fragment, set when the fragment is free, and the counts of the runs of free fragments within
the blocks.
-/

namespace Sol25.Ufs

open Function List Nat Bool BitVec

/-- A map as bytes, from which the bits are taken. -/
abbrev Bits := ℕ → BitVec 8

/-! ### Tables -/

/-- Bit patterns used as `(map & around) == inside`. -/
def around : List ℕ := [0x3, 0x7, 0xf, 0x1f, 0x3f, 0x7f, 0xff, 0x1ff, 0x3ff]

def inside : List ℕ := [0x0, 0x2, 0x6, 0xe, 0x1e, 0x3e, 0x7e, 0xfe, 0x1fe]

/-- The sizes of the runs in a map of a block, for blocks of one, two and four fragments. -/
def fragtbl124 : List ℕ := [
  0x00, 0x16, 0x16, 0x2a, 0x16, 0x16, 0x26, 0x4e, 0x16, 0x16, 0x16, 0x3e, 0x2a, 0x3e, 0x4e, 0x8a,
  0x16, 0x16, 0x16, 0x3e, 0x16, 0x16, 0x36, 0x5e, 0x16, 0x16, 0x16, 0x3e, 0x3e, 0x3e, 0x5e, 0x9e,
  0x16, 0x16, 0x16, 0x3e, 0x16, 0x16, 0x36, 0x5e, 0x16, 0x16, 0x16, 0x3e, 0x3e, 0x3e, 0x5e, 0x9e,
  0x2a, 0x3e, 0x3e, 0x2a, 0x3e, 0x3e, 0x2e, 0x6e, 0x3e, 0x3e, 0x3e, 0x3e, 0x2a, 0x3e, 0x6e, 0xaa,
  0x16, 0x16, 0x16, 0x3e, 0x16, 0x16, 0x36, 0x5e, 0x16, 0x16, 0x16, 0x3e, 0x3e, 0x3e, 0x5e, 0x9e,
  0x16, 0x16, 0x16, 0x3e, 0x16, 0x16, 0x36, 0x5e, 0x16, 0x16, 0x16, 0x3e, 0x3e, 0x3e, 0x5e, 0x9e,
  0x26, 0x36, 0x36, 0x2e, 0x36, 0x36, 0x26, 0x6e, 0x36, 0x36, 0x36, 0x3e, 0x2e, 0x3e, 0x6e, 0xae,
  0x4e, 0x5e, 0x5e, 0x6e, 0x5e, 0x5e, 0x6e, 0x4e, 0x5e, 0x5e, 0x5e, 0x7e, 0x6e, 0x7e, 0x4e, 0xce,
  0x16, 0x16, 0x16, 0x3e, 0x16, 0x16, 0x36, 0x5e, 0x16, 0x16, 0x16, 0x3e, 0x3e, 0x3e, 0x5e, 0x9e,
  0x16, 0x16, 0x16, 0x3e, 0x16, 0x16, 0x36, 0x5e, 0x16, 0x16, 0x16, 0x3e, 0x3e, 0x3e, 0x5e, 0x9e,
  0x16, 0x16, 0x16, 0x3e, 0x16, 0x16, 0x36, 0x5e, 0x16, 0x16, 0x16, 0x3e, 0x3e, 0x3e, 0x5e, 0x9e,
  0x3e, 0x3e, 0x3e, 0x3e, 0x3e, 0x3e, 0x3e, 0x7e, 0x3e, 0x3e, 0x3e, 0x3e, 0x3e, 0x3e, 0x7e, 0xbe,
  0x2a, 0x3e, 0x3e, 0x2a, 0x3e, 0x3e, 0x2e, 0x6e, 0x3e, 0x3e, 0x3e, 0x3e, 0x2a, 0x3e, 0x6e, 0xaa,
  0x3e, 0x3e, 0x3e, 0x3e, 0x3e, 0x3e, 0x3e, 0x7e, 0x3e, 0x3e, 0x3e, 0x3e, 0x3e, 0x3e, 0x7e, 0xbe,
  0x4e, 0x5e, 0x5e, 0x6e, 0x5e, 0x5e, 0x6e, 0x4e, 0x5e, 0x5e, 0x5e, 0x7e, 0x6e, 0x7e, 0x4e, 0xce,
  0x8a, 0x9e, 0x9e, 0xaa, 0x9e, 0x9e, 0xae, 0xce, 0x9e, 0x9e, 0x9e, 0xbe, 0xaa, 0xbe, 0xce, 0x8a]

def fragtbl8 : List ℕ := [
  0x00, 0x01, 0x01, 0x02, 0x01, 0x01, 0x02, 0x04, 0x01, 0x01, 0x01, 0x03, 0x02, 0x03, 0x04, 0x08,
  0x01, 0x01, 0x01, 0x03, 0x01, 0x01, 0x03, 0x05, 0x02, 0x03, 0x03, 0x02, 0x04, 0x05, 0x08, 0x10,
  0x01, 0x01, 0x01, 0x03, 0x01, 0x01, 0x03, 0x05, 0x01, 0x01, 0x01, 0x03, 0x03, 0x03, 0x05, 0x09,
  0x02, 0x03, 0x03, 0x02, 0x03, 0x03, 0x02, 0x06, 0x04, 0x05, 0x05, 0x06, 0x08, 0x09, 0x10, 0x20,
  0x01, 0x01, 0x01, 0x03, 0x01, 0x01, 0x03, 0x05, 0x01, 0x01, 0x01, 0x03, 0x03, 0x03, 0x05, 0x09,
  0x01, 0x01, 0x01, 0x03, 0x01, 0x01, 0x03, 0x05, 0x03, 0x03, 0x03, 0x03, 0x05, 0x05, 0x09, 0x11,
  0x02, 0x03, 0x03, 0x02, 0x03, 0x03, 0x02, 0x06, 0x03, 0x03, 0x03, 0x03, 0x02, 0x03, 0x06, 0x0a,
  0x04, 0x05, 0x05, 0x06, 0x05, 0x05, 0x06, 0x04, 0x08, 0x09, 0x09, 0x0a, 0x10, 0x11, 0x20, 0x40,
  0x01, 0x01, 0x01, 0x03, 0x01, 0x01, 0x03, 0x05, 0x01, 0x01, 0x01, 0x03, 0x03, 0x03, 0x05, 0x09,
  0x01, 0x01, 0x01, 0x03, 0x01, 0x01, 0x03, 0x05, 0x03, 0x03, 0x03, 0x03, 0x05, 0x05, 0x09, 0x11,
  0x01, 0x01, 0x01, 0x03, 0x01, 0x01, 0x03, 0x05, 0x01, 0x01, 0x01, 0x03, 0x03, 0x03, 0x05, 0x09,
  0x03, 0x03, 0x03, 0x03, 0x03, 0x03, 0x03, 0x07, 0x05, 0x05, 0x05, 0x07, 0x09, 0x09, 0x11, 0x21,
  0x02, 0x03, 0x03, 0x02, 0x03, 0x03, 0x02, 0x06, 0x03, 0x03, 0x03, 0x03, 0x02, 0x03, 0x06, 0x0a,
  0x03, 0x03, 0x03, 0x03, 0x03, 0x03, 0x03, 0x07, 0x02, 0x03, 0x03, 0x02, 0x06, 0x07, 0x0a, 0x12,
  0x04, 0x05, 0x05, 0x06, 0x05, 0x05, 0x06, 0x04, 0x05, 0x05, 0x05, 0x07, 0x06, 0x07, 0x04, 0x0c,
  0x08, 0x09, 0x09, 0x0a, 0x09, 0x09, 0x0a, 0x0c, 0x10, 0x11, 0x11, 0x12, 0x20, 0x21, 0x40, 0x80]

def fragtbl : ℕ → List ℕ
  | 1 => fragtbl124
  | 2 => fragtbl124
  | 4 => fragtbl124
  | 8 => fragtbl8
  | _ => []

/-! ### Bits -/

/-- `isset`: the fragment is free. -/
def isset (a : Bits) (i : ℕ) : Bool := a (i / 8) &&& (1#8 <<< (i % 8)) != 0

def setbit (a : Bits) (i : ℕ) : Bits := update a (i / 8) (a (i / 8) ||| (1#8 <<< (i % 8)))

/-- `blkmap`: the bits of a block. -/
def blkmap (frag : ℕ) (map : Bits) (loc : ℕ) : BitVec 8 :=
  map (loc / 8) >>> (loc % 8) &&& 0xff#8 >>> (8 - frag)

/-- `isblock`: all of the block is free. -/
def isblock (frag : ℕ) (cp : Bits) (h : ℕ) : Bool :=
  match frag with
  | 8 => cp h == 0xff#8
  | 4 => cp (h >>> 1) &&& 0x0f#8 <<< ((h &&& 0x1) <<< 2) == 0x0f#8 <<< ((h &&& 0x1) <<< 2)
  | 2 => cp (h >>> 2) &&& 0x03#8 <<< ((h &&& 0x3) <<< 1) == 0x03#8 <<< ((h &&& 0x3) <<< 1)
  | 1 => cp (h >>> 3) &&& 0x01#8 <<< (h &&& 0x7) == 0x01#8 <<< (h &&& 0x7)
  | _ => false

/-- `isclrblock`: all of the block is allocated. -/
def isclrblock (frag : ℕ) (cp : Bits) (h : ℕ) : Bool :=
  match frag with
  | 8 => cp h == 0
  | 4 => cp (h >>> 1) == cp (h >>> 1) &&& ~~~(0x0f#8 <<< ((h &&& 0x1) <<< 2))
  | 2 => cp (h >>> 2) == cp (h >>> 2) &&& ~~~(0x03#8 <<< ((h &&& 0x3) <<< 1))
  | 1 => cp (h >>> 3) == cp (h >>> 3) &&& ~~~(0x01#8 <<< (h &&& 0x7))
  | _ => false

def setblock (frag : ℕ) (cp : Bits) (h : ℕ) : Bits :=
  match frag with
  | 8 => update cp h 0xff#8
  | 4 => update cp (h >>> 1) (cp (h >>> 1) ||| 0x0f#8 <<< ((h &&& 0x1) <<< 2))
  | 2 => update cp (h >>> 2) (cp (h >>> 2) ||| 0x03#8 <<< ((h &&& 0x3) <<< 1))
  | 1 => update cp (h >>> 3) (cp (h >>> 3) ||| 0x01#8 <<< (h &&& 0x7))
  | _ => cp

/-! ### Counts of runs -/

/-- The loop over the positions of one size in `fragacct`, on the count of that size.  The first
argument bounds the rounds. -/
def fragacctPos (frag fragmap siz : ℕ) (cnt : BitVec 32) : ℕ → ℕ → ℕ → ℕ → BitVec 32 → BitVec 32
  | 0, _, _, _, total => total
  | rounds + 1, pos, field, subfield, total =>
    if pos ≤ frag then
      if fragmap &&& field = subfield then
        fragacctPos frag fragmap siz cnt rounds (pos + siz + 1) (field <<< siz <<< 1)
          (subfield <<< siz <<< 1)
          (total + cnt)
      else fragacctPos frag fragmap siz cnt rounds (pos + 1) (field <<< 1) (subfield <<< 1) total
    else total

/-- The runs of one size in `fragacct`. -/
def fragacctSize (frag fragmap : ℕ) (cnt : BitVec 32) (fraglist : ℕ → BitVec 32)
    (siz : ℕ) : ℕ → BitVec 32 :=
  if (fragtbl frag).getD fragmap 0 <<< 1 &&& 1 <<< (siz + frag % 8) = 0 then fraglist
  else
    update fraglist siz
      (fragacctPos frag (fragmap <<< 1) siz cnt (frag + 1) siz (around.getD siz 0)
        (inside.getD siz 0)
        (fraglist siz))

/-- `fragacct`: count the runs of a block, `1` or `-1` for each. -/
def fragacct (frag fragmap : ℕ) (fraglist : ℕ → BitVec 32) (cnt : BitVec 32) : ℕ → BitVec 32 :=
  (List.range' 1 (frag - 1)).foldl (fragacctSize frag fragmap cnt) fraglist

variable {a : Bits} {frag fragmap shift loc i j siz : ℕ} {fraglist : ℕ → BitVec 32}
  {cnt : BitVec 32}

/-! ### Bits of a map -/

theorem isset_eq : isset a i = (a (i / 8)).getLsbD (i % 8) := by
  have lt := Nat.mod_lt i (show 0 < 8 by decide)
  rw [isset, Bool.eq_iff_iff, bne_iff_ne]
  constructor
  · intro ne
    by_contra clear
    refine ne (eq_of_getLsbD_eq fun k k_lt => ?_)
    have zero : (0 : BitVec 8).getLsbD k = false := getLsbD_zero
    rw [getLsbD_and, getLsbD_shiftLeft, zero]
    rcases Nat.lt_trichotomy k (i % 8) with below | rfl | above
    · simp [below]
    · simp [clear]
    · simp [getLsbD_one, sub_ne_zero_of_lt above]
  · intro set zero
    have bit := congrArg (fun w => getLsbD w (i % 8)) zero
    rw [getLsbD_and, getLsbD_shiftLeft, set] at bit
    simp [lt] at bit

theorem setbit_isset : isset (setbit a i) j = (decide (j = i) || isset a j) := by
  rw [isset_eq, isset_eq, setbit]
  by_cases word : j / 8 = i / 8
  · rw [word, update_self, BitVec.getLsbD_or, BitVec.getLsbD_shiftLeft, Bool.or_comm]
    congr 1
    have lt := mod_lt j (show 0 < 8 by decide)
    rw [BitVec.getLsbD_one, Bool.eq_iff_iff]
    simp only [and_eq_true, decide_eq_true_eq, not_eq_true', decide_eq_false_iff_not]
    omega
  · rw [update_of_ne word]
    have ne : j ≠ i := fun eq => word (by rw [eq])
    simp [ne]

theorem frag_cases (le : shift ≤ 3) :
    2 ^ shift = 1 ∨ 2 ^ shift = 2 ∨ 2 ^ shift = 4 ∨ 2 ^ shift = 8 := by
  have cases : shift = 0 ∨ shift = 1 ∨ shift = 2 ∨ shift = 3 := by omega
  rcases cases with rfl | rfl | rfl | rfl <;> decide

theorem blkmap_bit (le : shift ≤ 3) (aligned : loc % 2 ^ shift = 0) :
    (blkmap (2 ^ shift) a loc).getLsbD j = (decide (j < 2 ^ shift) && isset a (loc + j)) := by
  have ones : 0xff#8 = BitVec.allOnes 8 := rfl
  rw [blkmap, BitVec.getLsbD_and, BitVec.getLsbD_ushiftRight, BitVec.getLsbD_ushiftRight, ones,
    BitVec.getLsbD_allOnes, isset_eq, Bool.and_comm]
  have in_block : 8 - 2 ^ shift + j < 8 ↔ j < 2 ^ shift := by
    rcases frag_cases le with eq | eq | eq | eq <;> rw [eq] <;> omega
  rw [decide_eq_decide.2 in_block]
  by_cases lt : j < 2 ^ shift
  · have same : (loc + j) / 8 = loc / 8 ∧ (loc + j) % 8 = loc % 8 + j := by
      rcases frag_cases le with eq | eq | eq | eq <;> rw [eq] at aligned lt <;> omega
    rw [same.1, same.2]
  · simp [lt]

theorem blkmap_lt (le : shift ≤ 3) : (blkmap (2 ^ shift) a loc).toNat < 2 ^ 2 ^ shift := by
  have bound : (0xff#8 >>> (8 - 2 ^ shift)).toNat < 2 ^ 2 ^ shift := by
    rcases frag_cases le with eq | eq | eq | eq <;> rw [eq] <;> decide
  rw [blkmap, toNat_and]
  exact Nat.lt_of_le_of_lt and_le_right bound

theorem blkmap_zero_iff (le : shift ≤ 3) (aligned : loc % 2 ^ shift = 0) :
    (blkmap (2 ^ shift) a loc).toNat = 0 ↔ ∀ j < 2 ^ shift, isset a (loc + j) = false := by
  constructor
  · intro zero j lt
    have bit := @blkmap_bit a shift loc j le aligned
    rw [eq_of_toNat_eq (y := 0#8) zero] at bit
    simpa [lt] using bit.symm
  · intro clear
    refine congrArg BitVec.toNat (eq_of_getLsbD_eq (y := 0#8) fun j _ => ?_)
    rw [blkmap_bit le aligned, getLsbD_zero]
    by_cases lt : j < 2 ^ shift
    · simp [clear j lt]
    · simp [lt]

theorem blkmap_full_iff (le : shift ≤ 3) (aligned : loc % 2 ^ shift = 0) :
    (blkmap (2 ^ shift) a loc).toNat = 2 ^ 2 ^ shift - 1 ↔
      ∀ j < 2 ^ shift, isset a (loc + j) = true := by
  have full : 2 ^ 2 ^ shift - 1 = (0xff#8 >>> (8 - 2 ^ shift)).toNat := by
    rcases frag_cases le with eq | eq | eq | eq <;> rw [eq] <;> decide
  have full_bit : ∀ j, (0xff#8 >>> (8 - 2 ^ shift)).getLsbD j = decide (j < 2 ^ shift) := by
    intro j
    have ones : 0xff#8 = allOnes 8 := rfl
    rw [ones, getLsbD_ushiftRight, getLsbD_allOnes, decide_eq_decide]
    rcases frag_cases le with eq | eq | eq | eq <;> rw [eq] <;> omega
  rw [full]
  constructor
  · intro eq j lt
    have bit := @blkmap_bit a shift loc j le aligned
    rw [eq_of_toNat_eq eq, full_bit] at bit
    simpa [lt] using bit.symm
  · intro set
    congr 1
    refine eq_of_getLsbD_eq fun j _ => ?_
    rw [blkmap_bit le aligned, full_bit]
    by_cases lt : j < 2 ^ shift
    · simp [set j lt]
    · simp [lt]

/-! ### Changes of the counts -/

theorem fragacctPos_add {rounds pos field subfield : ℕ} {count base : BitVec 32} :
    fragacctPos frag fragmap siz cnt rounds pos field subfield (base + count) =
      base + fragacctPos frag fragmap siz cnt rounds pos field subfield count := by
  induction rounds generalizing pos field subfield count with
  | zero => rfl
  | succ rounds ih =>
    rw [fragacctPos, fragacctPos]
    split
    · split
      · rw [BitVec.add_assoc, ih]
      · rw [ih]
    · rfl

theorem fragacctSize_add {change : ℕ → BitVec 32} :
    fragacctSize frag fragmap cnt (fun i => fraglist i + change i) siz =
      fun i => fraglist i + fragacctSize frag fragmap cnt change siz i := by
  rw [fragacctSize, fragacctSize]
  split
  · rfl
  · funext i
    by_cases eq : i = siz
    · subst eq
      rw [update_self, update_self, fragacctPos_add]
    · rw [update_of_ne eq, update_of_ne eq]

/-- The counts change by amounts that depend on the map of the block only. -/
theorem fragacct_add : fragacct frag fragmap fraglist cnt siz =
    fraglist siz + fragacct frag fragmap (fun _ => 0) cnt siz := by
  have sums : ∀ (sizes : List ℕ) (change : ℕ → BitVec 32),
      sizes.foldl (fragacctSize frag fragmap cnt) (fun i => fraglist i + change i) =
        fun i => fraglist i + sizes.foldl (fragacctSize frag fragmap cnt) change i := by
    intro sizes
    induction sizes with
    | nil => exact fun change => rfl
    | cons first sizes ih =>
      intro change
      rw [foldl_cons, foldl_cons, fragacctSize_add, ih]
  have zero : (fun i => fraglist i + 0) = fraglist := funext fun i => BitVec.add_zero _
  have sum := congrFun (sums (List.range' 1 (frag - 1)) fun _ => 0) siz
  rw [zero] at sum
  exact sum

theorem fragacct_outside (outside : frag ≤ siz) :
    fragacct frag fragmap fraglist cnt siz = fraglist siz := by
  have kept : ∀ (sizes : List ℕ) (fraglist : ℕ → BitVec 32), siz ∉ sizes →
      sizes.foldl (fragacctSize frag fragmap cnt) fraglist siz = fraglist siz := by
    intro sizes
    induction sizes with
    | nil => exact fun fraglist _ => rfl
    | cons first sizes ih =>
      intro fraglist notMem
      obtain ⟨ne, notMem⟩ := not_or.1 (mt mem_cons.2 notMem)
      rw [foldl_cons, ih _ notMem, fragacctSize]
      split
      · rfl
      · exact update_of_ne ne _ _
  refine kept _ fraglist fun mem => ?_
  rw [mem_range'_1] at mem
  omega

theorem fragacct_table : ∀ shift < 4, ∀ fragmap < 256, fragmap < 2 ^ 2 ^ shift →
    ((∀ siz < 8, fragacct (2 ^ shift) fragmap (fun _ => 0) (-1) siz = 0) ↔
      fragmap = 0 ∨ fragmap = 2 ^ 2 ^ shift - 1) := by
  decide +kernel

/-- Taking a block off the counts changes them, unless none of it is free or all of it is. -/
theorem fragacct_eq_iff (le : shift ≤ 3) (lt : fragmap < 2 ^ 2 ^ shift) :
    fragacct (2 ^ shift) fragmap fraglist (-1) = fraglist ↔
      fragmap = 0 ∨ fragmap = 2 ^ 2 ^ shift - 1 := by
  have frag_le : 2 ^ shift ≤ 8 := by rcases frag_cases le with eq | eq | eq | eq <;> omega
  have small : fragmap < 256 := Nat.lt_of_lt_of_le lt (Nat.pow_le_pow_right (by decide) frag_le)
  rw [← fragacct_table shift (lt_succ_of_le le) fragmap small lt]
  constructor
  · intro same siz _
    have at_siz := congrFun same siz
    rw [fragacct_add] at at_siz
    exact BitVec.add_right_eq_self.1 at_siz
  · intro zero
    funext siz
    by_cases counted : siz < 8
    · rw [fragacct_add, zero siz counted]
      exact BitVec.add_zero _
    · exact fragacct_outside (Nat.le_trans frag_le (Nat.le_of_not_lt counted))

end Sol25.Ufs
