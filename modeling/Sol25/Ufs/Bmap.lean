import Sol25.Data.Radix

/-!
# The blocks of a file

An inode names its blocks: the first twelve itself, the others through up to three levels of
indirect blocks. `bmap_read` follows the pointers, and `bmap_has_holes` compares the number of
blocks with that of a file without holes.
-/

namespace Sol25.Ufs

open Nat BitVec

/-- The parameters of a file system from `struct fs` that `ufs_bmap.c` uses.  Sizes are given by
their shifts. -/
structure Geometry where
  bshift : ℕ
  fshift : ℕ
  fshift_le : fshift ≤ bshift
  fsbtodb : ℕ
  maxcontig : ℕ

namespace Geometry

/-- `fs_bsize`. -/
def bsize (g : Geometry) : ℕ := 2 ^ g.bshift

/-- `fs_fsize`. -/
def fsize (g : Geometry) : ℕ := 2 ^ g.fshift

/-- `fs_frag`. -/
def frag (g : Geometry) : ℕ := 2 ^ (g.bshift - g.fshift)

/-- The bits of `fs_nindir - 1`: a block holds addresses of four bytes. -/
def nindirshift (g : Geometry) : ℕ := g.bshift - 2

/-- `fs_nindir`. -/
def nindir (g : Geometry) : ℕ := 2 ^ g.nindirshift

/-- `fs_nindir - 1`. -/
def nindiroffset (g : Geometry) : ℕ := g.nindir - 1

def lblkno (g : Geometry) (loc : ℕ) : ℕ := loc >>> g.bshift

def blkoff (g : Geometry) (loc : ℕ) : ℕ := loc % g.bsize

def fragroundup (g : Geometry) (size : ℕ) : ℕ := (size + g.fsize - 1) / g.fsize * g.fsize

end Geometry

/-- The parts of an inode that name its blocks.  An address of 0 is that of no block. -/
structure Inode where
  /-- `i_size`, a `long`. -/
  size : BitVec 32
  /-- `i_blocks`, in sectors. -/
  blocks : BitVec 32
  /-- `i_db`. -/
  db : ℕ → ℕ
  /-- `i_ib`. -/
  ib : ℕ → ℕ

def ndaddr : ℕ := 12

def niaddr : ℕ := 3

def eio : ℕ := 5

def efbig : ℕ := 27

variable (g : Geometry)

/-! ### bmap_read -/

/-- The loop of `findextent`, at block `k` of the table. -/
def extentLoop (tbl : ℕ → ℕ) : ℕ → ℕ → ℕ
  | 0, k => k + 1
  | rounds + 1, k =>
    if tbl (k + 1) = 0 ∨ tbl k + g.frag ≠ tbl (k + 1) then k + 1 else
      extentLoop tbl rounds (k + 1)

/-- Find contiguous blocks at the start of a table. -/
def findextent (tbl : ℕ → ℕ) (n : ℤ) : ℕ :=
  if n ≤ 0 then 0 else if tbl 0 = 0 then 0 else extentLoop g tbl (min n.toNat g.maxcontig - 1) 0

/-- `DOEXTENT`: the device address and the length, or none for a hole. -/
def doextent (lbn boff : ℕ) (size : BitVec 32) (tbl : ℕ → ℕ) (n : ℤ)
    (chkfrag : Bool) : Option (ℕ × ℕ) :=
  if tbl 0 = 0 then none
  else
    let len := findextent g tbl n <<< g.bshift
    let tmp := BitVec.ofNat 32 (g.fragroundup size.toNat) - BitVec.ofNat 32 (lbn <<< g.bshift)
    let len := if chkfrag then min tmp.toNat len else len
    if len ≤ boff then none else some (tbl 0 <<< g.fsbtodb + boff >>> 9, len - boff)

/-- Determine how many levels of indirection: `j`, the shift and what is left of the block number.
Shift counts are taken modulo 32. -/
def findLevel : ℕ → ℕ → ℕ → Option (ℕ × ℕ × ℕ)
  | 0, _, _ => none
  | j + 1, shft, tbn =>
    let shft := shft + g.nindirshift
    let sh := 1 <<< (shft % 32)
    if tbn < sh then some (j + 1, shft, tbn) else findLevel j shft (tbn - sh)

/-- Fetch through the indirect blocks.  It ends with the last of them and an index, or at a hole. -/
def fetch (fails : ℕ → Bool) (disk : ℕ → ℕ → ℕ) (tbn : ℕ) : ℕ → ℕ → ℕ → Except ℕ (Option (ℕ × ℕ))
  | 0, _, _ => .ok none
  | rounds + 1, ob, shft =>
    if fails ob then .error eio
    else
      let shft := shft - g.nindirshift
      let i := tbn >>> shft &&& g.nindiroffset
      let nb := disk ob i
      if nb = 0 then .ok none
      else if rounds = 0 then .ok (some (ob, i))
      else fetch fails disk tbn rounds nb shft

/-- Find the extent at an offset.  `fails` says of which blocks the read fails. -/
def bmapRead (fails : ℕ → Bool) (disk : ℕ → ℕ → ℕ) (ip : Inode)
    (off : ℕ) : Except ℕ (Option (ℕ × ℕ)) :=
  let lbn := g.lblkno off
  let boff := g.blkoff off
  if lbn < ndaddr then
    .ok (doextent g lbn boff ip.size (fun i => ip.db (lbn + i)) (ndaddr - lbn) true)
  else
    match findLevel g niaddr 0 (lbn - ndaddr) with
    | none => .error efbig
    | some (j, shft, tbn) =>
      let nb := ip.ib (niaddr - j)
      if nb = 0 then .ok none
      else
        match fetch g fails disk tbn (niaddr - j + 1) nb shft with
        | .error err => .error err
        | .ok none => .ok none
        | .ok (some (ob, i)) =>
          .ok (doextent g lbn boff ip.size (fun k => disk ob (i + k))
            (min (g.nindir - i : ℤ) ((ip.size.toInt - 1) >>> g.bshift - lbn + 1)) false)

/-! ### Blocks and holes -/

/-- The block of a logical block number, 0 at a hole. -/
def blockAt (disk : ℕ → ℕ → ℕ) (ip : Inode) (lbn : ℕ) : ℕ :=
  let n := g.nindir
  if lbn < ndaddr then ip.db lbn
  else if lbn - ndaddr < n then Radix.leaf 0 disk n 1 (ip.ib 0) (lbn - ndaddr)
  else if lbn - ndaddr - n < n ^ 2 then Radix.leaf 0 disk n 2 (ip.ib 1) (lbn - ndaddr - n)
  else Radix.leaf 0 disk n 3 (ip.ib 2) (lbn - ndaddr - n - n ^ 2)

variable {g} {disk : ℕ → ℕ → ℕ} {ip : Inode} {lbn tbn : ℕ}

theorem extentLoop_pos (tbl : ℕ → ℕ) (rounds k : ℕ) : 0 < extentLoop g tbl rounds k := by
  induction rounds generalizing k with
  | zero => exact succ_pos k
  | succ rounds ih =>
    rw [extentLoop]
    split_ifs
    · exact succ_pos k
    · exact ih (k + 1)

/-- At the start of a block in the file only an address of 0 is a hole. -/
theorem doextent_none_iff {tbl : ℕ → ℕ} {n : ℤ} {chkfrag : Bool} (some_left : 0 < n)
    (sizes : g.bshift ≤ 13) (small : ip.size.toNat < 2 ^ 31)
    (in_file : lbn * g.bsize < ip.size.toNat) :
    doextent g lbn 0 ip.size tbl n chkfrag = none ↔ tbl 0 = 0 := by
  rw [doextent]
  by_cases hole : tbl 0 = 0
  · simp [hole]
  have block : 0 < findextent g tbl n := by
    rw [findextent, if_neg (by omega), if_neg hole]
    exact extentLoop_pos ..
  have length : 0 < findextent g tbl n <<< g.bshift := by
    rw [Nat.shiftLeft_eq]
    exact Nat.mul_pos block (Nat.two_pow_pos _)
  have fsize_pos : 0 < g.fsize := Nat.two_pow_pos _
  have fsize_le : g.fsize ≤ 2 ^ 13 := Nat.pow_le_pow_right (by decide) (g.fshift_le.trans sizes)
  have round_le : g.fragroundup ip.size.toNat ≤ ip.size.toNat + g.fsize - 1 := div_mul_le_self ..
  have le_round : ip.size.toNat ≤ g.fragroundup ip.size.toNat := by
    have := lt_div_mul_add fsize_pos (a := ip.size.toNat + g.fsize - 1)
    rw [Geometry.fragroundup]
    omega
  have start : lbn <<< g.bshift = lbn * g.bsize := shiftLeft_eq ..
  have left : 0 < (BitVec.ofNat 32 (g.fragroundup ip.size.toNat) - BitVec.ofNat 32
      (lbn <<< g.bshift)).toNat := by
    rw [start, toNat_sub, toNat_ofNat, toNat_ofNat]
    omega
  have rest : 0 < (if chkfrag then
      min (BitVec.ofNat 32 (g.fragroundup ip.size.toNat) - BitVec.ofNat 32 (lbn <<< g.bshift)).toNat
        (findextent g tbl n <<< g.bshift) else findextent g tbl n <<< g.bshift) := by
    split_ifs
    · exact lt_min left length
    · exact length
  rw [if_neg hole]
  dsimp only
  rw [if_neg (Nat.not_le.2 rest)]
  exact ⟨(fun absent => nomatch absent), fun missing => absurd missing hole⟩

/-- The loop over the indirect blocks ends with the address of the block, or at a hole. -/
theorem fetch_spec (rounds ob : ℕ) (present : ob ≠ 0) :
    fetch g (fun _ => false) disk tbn (rounds + 1) ob ((rounds + 1) * g.nindirshift) = .ok none ∧
        Radix.leaf 0 disk g.nindir (rounds + 1) ob tbn = 0 ∨
      ∃ ob' i, fetch g (fun _ => false) disk tbn (rounds + 1) ob ((rounds + 1) * g.nindirshift) =
        .ok (some (ob', i)) ∧
        i < g.nindir ∧ disk ob' i ≠ 0 ∧
          Radix.leaf 0 disk g.nindir (rounds + 1) ob tbn = disk ob' i := by
  induction rounds generalizing ob with
  | zero =>
    have index : tbn >>> ((0 + 1) * g.nindirshift - g.nindirshift) &&& g.nindiroffset =
        tbn / g.nindir ^ 0 % g.nindir := by
      rw [Geometry.nindiroffset, Geometry.nindir, and_two_pow_sub_one_eq_mod]
      simp
    rw [fetch, Radix.leaf, if_neg present, Radix.leaf]
    dsimp only
    have small : tbn / g.nindir ^ 0 % g.nindir < g.nindir := mod_lt _ (Nat.two_pow_pos _)
    rw [index]
    generalize tbn / g.nindir ^ 0 % g.nindir = i at small ⊢
    by_cases hole : disk ob i = 0
    · exact .inl ⟨by simp [hole], hole⟩
    · exact .inr ⟨ob, i, by simp [hole], small, hole, rfl⟩
  | succ rounds ih =>
    have shift : (rounds + 1 + 1) * g.nindirshift - g.nindirshift =
        (rounds + 1) * g.nindirshift := by
      rw [Nat.succ_mul, Nat.add_sub_cancel]
    have index : tbn >>> ((rounds + 1) * g.nindirshift) &&& g.nindiroffset =
        tbn / g.nindir ^ (rounds + 1) % g.nindir := by
      rw [Geometry.nindiroffset, Geometry.nindir, and_two_pow_sub_one_eq_mod,
        shiftRight_eq_div_pow, ← pow_mul, Nat.mul_comm]
    rw [fetch, Radix.leaf, if_neg present]
    dsimp only
    rw [shift, index]
    by_cases hole : disk ob (tbn / g.nindir ^ (rounds + 1) % g.nindir) = 0
    · exact .inl ⟨by simp [hole], by rw [hole, Radix.leaf, if_pos rfl]⟩
    · rcases ih _ hole with ⟨fetched, missing⟩ | ⟨ob', i, fetched, found⟩
      · exact .inl ⟨by simp [hole, fetched], missing⟩
      · exact .inr ⟨ob', i, by simp [hole, fetched], found⟩

/-- At a level of indirection `bmap_read` finds a hole if a pointer on the way is 0. -/
theorem bmapRead_indirect {r : ℕ} (level_lt : r < niaddr) (sizes : g.bshift ≤ 13)
    (small : ip.size.toNat < 2 ^ 31) (in_file : lbn * g.bsize < ip.size.toNat)
    (indirect : ¬ lbn < ndaddr)
    (level : findLevel g niaddr 0 (lbn - ndaddr) =
      some (niaddr - r, (r + 1) * g.nindirshift, tbn)) :
    bmapRead g (fun _ => false) disk ip (lbn * g.bsize) = .ok none ↔
      Radix.leaf 0 disk g.nindir (r + 1) (ip.ib r) tbn = 0 := by
  have number : g.lblkno (lbn * g.bsize) = lbn := by
    rw [Geometry.lblkno, shiftRight_eq_div_pow]
    exact Nat.mul_div_cancel _ (Nat.two_pow_pos _)
  have aligned : g.blkoff (lbn * g.bsize) = 0 := mul_mod_left ..
  have back : niaddr - (niaddr - r) = r := by omega
  rw [bmapRead]
  dsimp only
  rw [number, aligned, if_neg indirect, level]
  dsimp only
  rw [back]
  by_cases missing : ip.ib r = 0
  · rw [if_pos missing, Radix.leaf, if_pos missing]
    exact ⟨fun _ => rfl, fun _ => rfl⟩
  rw [if_neg missing]
  have last : (lbn : ℤ) ≤ (ip.size.toInt - 1) >>> g.bshift := by
    rw [Int.shiftRight_eq_div_pow, toInt_eq_toNat_of_lt (by omega)]
    refine Int.le_ediv_of_mul_le (Int.natCast_pos.2 (Nat.two_pow_pos _)) ?_
    have start : ((lbn * g.bsize : ℕ) : ℤ) = lbn * (2 ^ g.bshift : ℕ) := cast_mul ..
    omega
  rcases fetch_spec r (ip.ib r) missing with
    ⟨fetched, gone⟩ | ⟨ob, i, fetched, index, present, found⟩
  · rw [fetched]
    exact ⟨fun _ => gone, fun _ => rfl⟩
  · have some_left :
        (0 : ℤ) < min (g.nindir - i : ℤ) ((ip.size.toInt - 1) >>> g.bshift - lbn + 1) :=
      lt_min (by omega) (by omega)
    rw [fetched, found]
    dsimp only
    rw [Except.ok.injEq, doextent_none_iff some_left sizes small in_file, Nat.add_zero]

/-- Where all reads succeed, `bmap_read` finds a hole at the start of a block exactly if it has no
address. -/
theorem bmapRead_hole_iff (sizes : g.bshift = 12 ∨ g.bshift = 13) (small : ip.size.toNat < 2 ^ 31)
    (in_file : lbn * g.bsize < ip.size.toNat) :
    bmapRead g (fun _ => false) disk ip (lbn * g.bsize) = .ok none ↔ blockAt g disk ip lbn = 0 := by
  have le_13 : g.bshift ≤ 13 := by omega
  by_cases direct : lbn < ndaddr
  · have number : g.lblkno (lbn * g.bsize) = lbn := by
      rw [Geometry.lblkno, shiftRight_eq_div_pow]
      exact Nat.mul_div_cancel _ (Nat.two_pow_pos _)
    have aligned : g.blkoff (lbn * g.bsize) = 0 := mul_mod_left ..
    have left : (0 : ℤ) < ndaddr - lbn := by omega
    rw [bmapRead, blockAt]
    dsimp only
    rw [number, aligned, if_pos direct, if_pos direct, Except.ok.injEq,
      doextent_none_iff left le_13 small in_file, Nat.add_zero]
  have few : lbn < 2 ^ 19 := by
    have size_le : 2 ^ 12 ≤ g.bsize := Nat.pow_le_pow_right (by decide) (by omega)
    have product : lbn * 2 ^ 12 ≤ lbn * g.bsize := mul_le_mul_left _ size_le
    omega
  have shift_lt : g.nindirshift = 10 ∨ g.nindirshift = 11 := by
    rw [Geometry.nindirshift]
    omega
  have first_size : 1 <<< ((0 + g.nindirshift) % 32) = g.nindir := by
    rw [Geometry.nindir]
    rcases shift_lt with same | same <;> rw [same] <;> decide
  have second_size : 1 <<< ((0 + g.nindirshift + g.nindirshift) % 32) = g.nindir ^ 2 := by
    rw [Geometry.nindir]
    rcases shift_lt with same | same <;> rw [same] <;> decide
  have large : 2 ^ 19 ≤ g.nindir ^ 2 := by
    rw [Geometry.nindir]
    rcases shift_lt with same | same <;> rw [same] <;> decide
  rw [blockAt, if_neg direct]
  by_cases single : lbn - ndaddr < g.nindir
  · rw [if_pos single]
    refine bmapRead_indirect (by decide) le_13 small in_file direct ?_
    rw [niaddr, findLevel]
    rw [first_size, if_pos single]
    simp
  · rw [if_neg single, if_pos (by omega)]
    refine bmapRead_indirect (by decide) le_13 small in_file direct ?_
    rw [niaddr, findLevel]
    rw [first_size, if_neg single, findLevel]
    rw [second_size, if_pos (by omega), Nat.zero_add, succ_mul 1, Nat.one_mul]

/-! ### bmap_has_holes -/

variable (g)

/-- The loop that counts the blocks of each level. -/
def countLevels : ℕ → BitVec 32 → BitVec 32 → Option (BitVec 32)
  | 0, _, _ => none
  | fuel + 1, dblks, cnt =>
    let cnt := cnt + dblks
    let dblks := (dblks + BitVec.ofNat 32 g.nindiroffset) >>> g.nindirshift
    if 1 < dblks then countLevels fuel dblks cnt else some cnt

/-- Whether the inode has unmapped blocks.  `i_size` is signed, but `dbtob` is not. -/
def bmapHasHoles (ip : Inode) : Option Bool :=
  let fsboffset := BitVec.ofNat 32 (g.bsize - 1)
  let dblks := (ip.size + fsboffset).sshiftRight g.bshift
  let mblks := (ip.blocks <<< 9 + fsboffset) >>> g.bshift
  if dblks ≤ BitVec.ofNat 32 ndaddr then some (decide (mblks < dblks))
  else
    (countLevels g 32 (dblks - BitVec.ofNat 32 ndaddr) (BitVec.ofNat 32 (ndaddr + 1))).map
        fun cnt =>
      decide (mblks < cnt)

end Sol25.Ufs
