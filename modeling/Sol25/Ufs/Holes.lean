import Mathlib.Algebra.BigOperators.Intervals
import Sol25.Ufs.Bmap

/-!
# Files with holes

`bmap_has_holes` compares `i_blocks` with the number of blocks of a file without holes.  The two
agree exactly if no block below the end of the file is missing, but the number of data blocks is
wrong in the last block below two gigabytes.
-/

namespace Sol25.Ufs

open Finset Option Nat BitVec

variable {g : Geometry} {disk : ℕ → ℕ → ℕ} {ip : Inode}

/-- The blocks up to the size of a file. -/
def dataBlocks (g : Geometry) (ip : Inode) : ℕ := ip.size.toNat ⌈/⌉ g.bsize

/-- The bytes of the first direct blocks, of which the last one in the file may be a run of
fragments. -/
def directBytes (g : Geometry) (ip : Inode) (run N : ℕ) : ℕ :=
  ∑ i ∈ range N, if ip.db i = 0 then 0 else if i + 1 = dataBlocks g ip then run * g.fsize
    else g.bsize

def directBlocks (ip : Inode) (N : ℕ) : ℕ := ∑ i ∈ range N, if ip.db i = 0 then 0 else 1

/-- The number of indirect blocks and of the blocks named by them. -/
def treeBlocks (g : Geometry) (disk : ℕ → ℕ → ℕ) (ip : Inode) : ℕ :=
  ∑ r ∈ range niaddr, Radix.nodes 0 disk g.nindir (r + 1) (ip.ib r)

theorem treeBlocks_eq (g : Geometry) (disk : ℕ → ℕ → ℕ) (ip : Inode) : treeBlocks g disk ip =
    Radix.nodes 0 disk g.nindir 1 (ip.ib 0) + Radix.nodes 0 disk g.nindir 2 (ip.ib 1) +
      Radix.nodes 0 disk g.nindir 3 (ip.ib 2) := by
  rw [treeBlocks, niaddr, sum_range_succ, sum_range_succ, sum_range_succ, sum_range_zero,
    Nat.zero_add]

/-- No block is past the end of the file, and `i_blocks` counts the sectors of all blocks. -/
structure Accounted (g : Geometry) (disk : ℕ → ℕ → ℕ) (ip : Inode) : Prop where
  direct : ∀ i < ndaddr, ip.db i ≠ 0 → i < dataBlocks g ip
  single : Radix.Within 0 disk g.nindir 1 (ip.ib 0) (dataBlocks g ip - ndaddr)
  double : Radix.Within 0 disk g.nindir 2 (ip.ib 1) (dataBlocks g ip - ndaddr - g.nindir)
  triple : Radix.Within 0 disk g.nindir 3 (ip.ib 2)
    (dataBlocks g ip - ndaddr - g.nindir - g.nindir ^ 2)
  counted : ∃ run, 0 < run ∧ run ≤ g.frag ∧
    ip.blocks.toNat * 512 = directBytes g ip run ndaddr + g.bsize * treeBlocks g disk ip

/-- The number of blocks of a file without holes. -/
def fullBlocks (g : Geometry) (dblks : ℕ) : ℕ :=
  min dblks ndaddr + Radix.full g.nindir 1 (min (dblks - ndaddr) (g.nindir ^ 1)) +
    Radix.full g.nindir 2 (min (dblks - ndaddr - g.nindir) (g.nindir ^ 2))

/-- A hole that `bmap_read` finds below the size of the file. -/
def HasHole (g : Geometry) (disk : ℕ → ℕ → ℕ) (ip : Inode) : Prop :=
  ∃ lbn < dataBlocks g ip, bmapRead g (fun _ => false) disk ip (lbn * g.bsize) = .ok none

/-! ### Counting -/

theorem bsize_pos (g : Geometry) : 0 < g.bsize := Nat.two_pow_pos _

theorem nindir_pos (g : Geometry) : 0 < g.nindir := Nat.two_pow_pos _

theorem bsize_eq (g : Geometry) : g.bsize = g.frag * g.fsize := by
  rw [Geometry.bsize, Geometry.frag, Geometry.fsize, ← pow_add, Nat.sub_add_cancel g.fshift_le]

theorem in_file_iff {lbn : ℕ} : lbn < dataBlocks g ip ↔ lbn * g.bsize < ip.size.toNat := by
  rw [dataBlocks, ← Nat.not_le, ceilDiv_le_iff_le_mul (bsize_pos g), Nat.not_le, Nat.mul_comm]

/-- The bytes of the direct blocks fall short of whole blocks by less than one. -/
theorem directBytes_spec {run : ℕ} (some_run : 0 < run) (run_le : run ≤ g.frag) (N : ℕ) :
    ∃ short < g.bsize, (N < dataBlocks g ip → short = 0) ∧
      directBytes g ip run N + short = g.bsize * directBlocks ip N := by
  have fsize_pos : 0 < g.fsize := Nat.two_pow_pos _
  have run_pos : 0 < run * g.fsize := Nat.mul_pos some_run fsize_pos
  have run_size : run * g.fsize ≤ g.bsize := (bsize_eq g).symm ▸ mul_le_mul_right _ run_le
  induction N with
  | zero => exact ⟨0, bsize_pos g, fun _ => rfl, by simp [directBytes, directBlocks]⟩
  | succ N ih =>
    obtain ⟨short, below, zero, total⟩ := ih
    rw [directBytes, directBlocks, sum_range_succ, sum_range_succ, ← directBytes, ← directBlocks,
      Nat.mul_add]
    by_cases missing : ip.db N = 0
    · rw [if_pos missing, if_pos missing]
      exact ⟨short, below, fun before => zero (by omega), by omega⟩
    rw [if_neg missing, if_neg missing]
    by_cases last : N + 1 = dataBlocks g ip
    · have whole := zero (by omega)
      rw [if_pos last]
      exact ⟨g.bsize - run * g.fsize, by omega, fun before => by omega, by omega⟩
    · rw [if_neg last]
      exact ⟨short, below, fun before => zero (by omega), by omega⟩

theorem sum_lt_eq_min (N D : ℕ) : (∑ i ∈ range N, if i < D then 1 else 0) = min D N := by
  induction N with
  | zero => simp
  | succ N ih =>
    rw [sum_range_succ, ih]
    split_ifs <;> omega

theorem directBlocks_spec (accounted : Accounted g disk ip) :
    directBlocks ip ndaddr ≤ min (dataBlocks g ip) ndaddr ∧
      (directBlocks ip ndaddr = min (dataBlocks g ip) ndaddr ↔
        ∀ lbn < ndaddr, lbn < dataBlocks g ip → ip.db lbn ≠ 0) := by
  have each : ∀ i ∈ range ndaddr, (if ip.db i = 0 then 0 else 1) ≤ if i < dataBlocks g ip then 1
      else 0 := by
    intro i member
    by_cases missing : ip.db i = 0
    · rw [if_pos missing]
      exact zero_le _
    · rw [if_neg missing, if_pos (accounted.direct i (mem_range.1 member) missing)]
  rw [← sum_lt_eq_min, directBlocks]
  refine ⟨sum_le_sum each,
    (sum_eq_sum_iff_of_le each).trans ⟨fun same lbn small in_file missing => ?_, ?_⟩⟩
  · have differ := same lbn (mem_range.2 small)
    rw [if_pos missing, if_pos in_file] at differ
    exact absurd differ Nat.zero_ne_one
  · intro filled i member
    by_cases in_file : i < dataBlocks g ip
    · rw [if_neg (filled i (mem_range.1 member) in_file), if_pos in_file]
    · have missing : ip.db i = 0 := by
        by_contra present
        exact in_file (accounted.direct i (mem_range.1 member) present)
      rw [if_pos missing, if_neg in_file]

section Small

variable (sizes : g.bshift = 12 ∨ g.bshift = 13)
include sizes

theorem nindir_sizes :
    g.bsize = 2 ^ 12 ∧ g.nindir = 2 ^ 10 ∨ g.bsize = 2 ^ 13 ∧ g.nindir = 2 ^ 11 := by
  rw [Geometry.bsize, Geometry.nindir, Geometry.nindirshift]
  rcases sizes with same | same <;> rw [same]
  · exact .inl ⟨rfl, rfl⟩
  · exact .inr ⟨rfl, rfl⟩

/-! ### The full count -/

theorem fullBlocks_eq {dblks : ℕ} (few : dblks ≤ 2 ^ 19) (many : ndaddr < dblks) :
    fullBlocks g dblks = ndaddr + 1 + (dblks - ndaddr) +
      if 1 < (dblks - ndaddr) ⌈/⌉ g.nindir then (dblks - ndaddr) ⌈/⌉ g.nindir else 0 := by
  have one (m : ℕ) : Radix.full g.nindir 1 m = m + m ⌈/⌉ g.nindir := by
    simp [Radix.full, sum_range_succ]
  have two (m : ℕ) : Radix.full g.nindir 2 m = m + m ⌈/⌉ g.nindir + m ⌈/⌉ g.nindir ^ 2 := by
    simp [Radix.full, sum_range_succ]
  rw [ndaddr] at many ⊢
  rw [fullBlocks, one, two, ndaddr]
  simp only [ceilDiv_eq_add_pred_div]
  rcases nindir_sizes sizes with ⟨-, nindir⟩ | ⟨-, nindir⟩ <;> rw [nindir] <;> norm_num only <;>
    split_ifs <;> omega

omit sizes in
theorem fullBlocks_direct {dblks : ℕ} (few : dblks ≤ ndaddr) : fullBlocks g dblks = dblks := by
  have none_left : dblks - ndaddr = 0 := by omega
  rw [fullBlocks, none_left, Nat.zero_sub, Nat.zero_min, Nat.zero_min, Radix.full_zero_right,
    Radix.full_zero_right, Nat.min_eq_left few]
  rfl

/-- A level of the tree has the blocks of the level below, divided by the arity and rounded up. -/
theorem level_toNat {d : BitVec 32} (few : d.toNat ≤ 2 ^ 31) :
    ((d + BitVec.ofNat 32 g.nindiroffset) >>> g.nindirshift).toNat = d.toNat ⌈/⌉ g.nindir := by
  have size := nindir_pos g
  rw [toNat_ushiftRight, toNat_add, toNat_ofNat, shiftRight_eq_div_pow,
    ← Geometry.nindir, ceilDiv_eq_add_pred_div, Geometry.nindiroffset]
  have wraps : (d.toNat + (g.nindir - 1) % 2 ^ 32) % 2 ^ 32 = d.toNat + g.nindir - 1 := by
    rcases nindir_sizes sizes with ⟨-, nindir⟩ | ⟨-, nindir⟩ <;> rw [nindir] <;> omega
  rw [wraps]

/-- The loop counts the data blocks and the indirect blocks of a file without holes. -/
theorem countLevels_spec {dblks : BitVec 32} (few : dblks.toNat ≤ 2 ^ 19)
    (many : ndaddr < dblks.toNat) :
    ∃ cnt, countLevels g 32 (dblks - BitVec.ofNat 32 ndaddr)
      (BitVec.ofNat 32 (ndaddr + 1)) = some cnt ∧
      cnt.toNat = fullBlocks g dblks.toNat := by
  have left : (dblks - BitVec.ofNat 32 ndaddr).toNat = dblks.toNat - ndaddr := by
    rw [toNat_sub, toNat_ofNat, ndaddr]
    rw [ndaddr] at many
    omega
  have first := level_toNat sizes (d := dblks - BitVec.ofNat 32 ndaddr) (by omega)
  rw [left] at first
  have size_le : (dblks.toNat - ndaddr) ⌈/⌉ g.nindir ≤ 2 ^ 19 := by
    rw [ceilDiv_le_iff_le_mul (nindir_pos g)]
    have := Nat.le_mul_of_pos_left (2 ^ 19) (nindir_pos g)
    omega
  have le_one : (dblks.toNat - ndaddr) ⌈/⌉ g.nindir ⌈/⌉ g.nindir ≤ 1 := by
    rw [ceilDiv_le_iff_le_mul (nindir_pos g), ceilDiv_le_iff_le_mul (nindir_pos g)]
    rcases nindir_sizes sizes with ⟨-, nindir⟩ | ⟨-, nindir⟩ <;> rw [nindir] <;> omega
  have cnt_one : (BitVec.ofNat 32 (ndaddr + 1) + (dblks - BitVec.ofNat 32 ndaddr)).toNat =
      ndaddr + 1 + (dblks.toNat - ndaddr) := by
    rw [toNat_add, left, toNat_ofNat, ndaddr]
    omega
  rw [fullBlocks_eq sizes few many, countLevels]
  generalize (dblks - BitVec.ofNat 32 ndaddr + BitVec.ofNat 32 g.nindiroffset) >>> g.nindirshift =
    next at first ⊢
  have deeper_iff : 1 < next ↔ 1 < (dblks.toNat - ndaddr) ⌈/⌉ g.nindir := by
    rw [← first]
    exact lt_def
  by_cases deeper : 1 < (dblks.toNat - ndaddr) ⌈/⌉ g.nindir
  · have second := level_toNat sizes (d := next) (by omega)
    have stops : ¬ 1 < (next + BitVec.ofNat 32 g.nindiroffset) >>> g.nindirshift := by
      rw [lt_def, second, first]
      exact Nat.not_lt.2 le_one
    rw [if_pos (deeper_iff.2 deeper), if_pos deeper, countLevels, if_neg stops]
    refine ⟨_, rfl, ?_⟩
    rw [toNat_add, cnt_one, first]
    rw [ndaddr] at many size_le ⊢
    omega
  · rw [if_neg fun more => deeper (deeper_iff.1 more), if_neg deeper]
    exact ⟨_, rfl, cnt_one⟩

/-! ### Blocks in use -/

variable (small : ip.size.toNat < 2 ^ 31)
include small

theorem dataBlocks_le : dataBlocks g ip ≤ 2 ^ 31 / g.bsize := by
  rw [dataBlocks, ceilDiv_le_iff_le_mul (bsize_pos g)]
  rcases nindir_sizes sizes with ⟨bsize, -⟩ | ⟨bsize, -⟩ <;> rw [bsize] <;> omega

/-- A file has at most the blocks of a file without holes, and has them all exactly if it has no
hole. -/
theorem usedBlocks_spec (accounted : Accounted g disk ip) :
    directBlocks ip ndaddr + treeBlocks g disk ip ≤ fullBlocks g (dataBlocks g ip) ∧
      (directBlocks ip ndaddr + treeBlocks g disk ip = fullBlocks g (dataBlocks g ip) ↔
        ¬ HasHole g disk ip) := by
  have positive := nindir_pos g
  have few := dataBlocks_le sizes small
  have beyond : dataBlocks g ip - ndaddr - g.nindir - g.nindir ^ 2 = 0 := by
    rcases nindir_sizes sizes with ⟨bsize, nindir⟩ | ⟨bsize, nindir⟩ <;>
      rw [bsize] at few <;> rw [nindir] <;> omega
  obtain ⟨direct_le, direct_iff⟩ := directBlocks_spec accounted
  obtain ⟨single_le, single_iff⟩ := Radix.nodes_spec positive accounted.single
  obtain ⟨double_le, double_iff⟩ := Radix.nodes_spec positive accounted.double
  have triple_le := (Radix.nodes_spec positive accounted.triple).1
  rw [beyond, Nat.zero_min, Radix.full_zero_right] at triple_le
  have hole_iff : ¬ HasHole g disk ip ↔ ∀ lbn < dataBlocks g ip, blockAt g disk ip lbn ≠ 0 := by
    rw [HasHole]
    constructor
    · intro no_hole lbn in_file missing
      exact no_hole ⟨lbn, in_file,
        (bmapRead_hole_iff sizes small (in_file_iff.1 in_file)).2 missing⟩
    · rintro filled ⟨lbn, in_file, hole⟩
      exact filled lbn in_file ((bmapRead_hole_iff sizes small (in_file_iff.1 in_file)).1 hole)
  rw [hole_iff, treeBlocks_eq, fullBlocks]
  refine ⟨by omega, ?_⟩
  have parts : directBlocks ip ndaddr + (Radix.nodes 0 disk g.nindir 1 (ip.ib 0) +
      Radix.nodes 0 disk g.nindir 2 (ip.ib 1) + Radix.nodes 0 disk g.nindir 3 (ip.ib 2)) =
        min (dataBlocks g ip) ndaddr + Radix.full g.nindir 1
          (min (dataBlocks g ip - ndaddr) (g.nindir ^ 1)) +
          Radix.full g.nindir 2 (min (dataBlocks g ip - ndaddr - g.nindir) (g.nindir ^ 2)) ↔
      (∀ lbn < ndaddr, lbn < dataBlocks g ip → ip.db lbn ≠ 0) ∧
        Radix.Filled 0 disk g.nindir 1 (ip.ib 0) (dataBlocks g ip - ndaddr) ∧
        Radix.Filled 0 disk g.nindir 2 (ip.ib 1) (dataBlocks g ip - ndaddr - g.nindir) := by
    rw [← direct_iff, ← single_iff, ← double_iff]
    omega
  rw [parts]
  constructor
  · rintro ⟨direct, single, double⟩ lbn in_file
    rw [blockAt]
    split_ifs with is_direct is_single is_double
    · exact direct lbn is_direct in_file
    · exact single _ (by rw [pow_one]; omega)
    · exact double _ (by omega)
    · omega
  · intro filled
    refine ⟨fun lbn is_direct in_file => ?_, fun i below => ?_, fun i below => ?_⟩
    · have there := filled lbn in_file
      rwa [blockAt, if_pos is_direct] at there
    · rw [pow_one] at below
      have there := filled (ndaddr + i) (by omega)
      rwa [blockAt, if_neg (by omega), Nat.add_sub_cancel_left, if_pos (by omega)] at there
    · have there := filled (ndaddr + g.nindir + i) (by omega)
      rw [blockAt, if_neg (by omega), if_neg (by omega), if_pos (by omega)] at there
      rwa [show ndaddr + g.nindir + i - ndaddr - g.nindir = i by omega] at there

theorem fullBlocks_le : g.bsize * fullBlocks g (dataBlocks g ip) + g.bsize < 2 ^ 32 := by
  have few := dataBlocks_le sizes small
  by_cases direct : dataBlocks g ip ≤ ndaddr
  · rw [fullBlocks_direct direct]
    rw [ndaddr] at direct
    rcases nindir_sizes sizes with ⟨bsize, -⟩ | ⟨bsize, -⟩ <;> rw [bsize] <;> omega
  · have in_reach : dataBlocks g ip ≤ 2 ^ 19 := by
      rcases nindir_sizes sizes with ⟨bsize, -⟩ | ⟨bsize, -⟩ <;> rw [bsize] at few <;> omega
    rw [fullBlocks_eq sizes in_reach (Nat.lt_of_not_le direct), ceilDiv_eq_add_pred_div, ndaddr]
    rw [ndaddr] at direct
    rcases nindir_sizes sizes with ⟨bsize, nindir⟩ | ⟨bsize, nindir⟩ <;>
      rw [bsize] at few ⊢ <;> rw [nindir] <;>
      split_ifs <;> omega

/-- `i_blocks` rounded up is the number of blocks. -/
theorem mblks_toNat (accounted : Accounted g disk ip) :
    ((ip.blocks <<< 9 + BitVec.ofNat 32 (g.bsize - 1)) >>> g.bshift).toNat =
      directBlocks ip ndaddr + treeBlocks g disk ip := by
  obtain ⟨used_le, -⟩ := usedBlocks_spec sizes small accounted
  obtain ⟨run, some_run, run_le, counted⟩ := accounted.counted
  obtain ⟨short, short_lt, -, direct⟩ := @directBytes_spec g ip run some_run run_le ndaddr
  have few := fullBlocks_le sizes small
  have total : ip.blocks.toNat * 512 + short =
      g.bsize * (directBlocks ip ndaddr + treeBlocks g disk ip) := by
    rw [Nat.mul_add, ← direct, counted, Nat.add_right_comm]
  have bound : g.bsize * (directBlocks ip ndaddr + treeBlocks g disk ip) ≤ g.bsize * fullBlocks g
      (dataBlocks g ip) :=
    mul_le_mul_left _ used_le
  have bytes : (ip.blocks <<< 9).toNat = ip.blocks.toNat * 512 := by
    rw [BitVec.toNat_shiftLeft, Nat.shiftLeft_eq]
    omega
  rw [toNat_ushiftRight, toNat_add, bytes, toNat_ofNat, shiftRight_eq_div_pow, ← Geometry.bsize]
  have wraps : (ip.blocks.toNat * 512 + (g.bsize - 1) % 2 ^ 32) % 2 ^ 32 =
      ip.blocks.toNat * 512 + (g.bsize - 1) := by
    omega
  rw [wraps, Nat.div_eq_iff (bsize_pos g), Nat.mul_comm _ g.bsize]
  omega

/-! ### The result -/

omit sizes in
/-- Unless the sum with the offset is negative, the number of data blocks is right. -/
theorem dblks_toNat (fits : ip.size.toNat + g.bsize - 1 < 2 ^ 31) :
    ((ip.size + BitVec.ofNat 32 (g.bsize - 1)).sshiftRight g.bshift).toNat = dataBlocks g ip := by
  have positive := bsize_pos g
  have sum : (ip.size + BitVec.ofNat 32 (g.bsize - 1)).toNat = ip.size.toNat + g.bsize - 1 := by
    rw [toNat_add, toNat_ofNat]
    omega
  have no_sign : (ip.size + BitVec.ofNat 32 (g.bsize - 1)).msb = false := by
    rw [msb_eq_decide, sum]
    exact decide_eq_false (by omega)
  rw [sshiftRight_eq_of_msb_false no_sign, toNat_ushiftRight, sum,
    shiftRight_eq_div_pow, ← Geometry.bsize, dataBlocks, ceilDiv_eq_add_pred_div]

/-- Then the result is whether blocks are missing. -/
theorem bmapHasHoles_fits (fits : ip.size.toNat + g.bsize - 1 < 2 ^ 31)
    (accounted : Accounted g disk ip) :
    bmapHasHoles g ip = some (decide
      (directBlocks ip ndaddr + treeBlocks g disk ip < fullBlocks g (dataBlocks g ip))) := by
  have dblks := dblks_toNat small fits
  have mblks := mblks_toNat sizes small accounted
  have few := dataBlocks_le sizes small
  have in_reach : dataBlocks g ip ≤ 2 ^ 19 := by
    rcases nindir_sizes sizes with ⟨bsize, -⟩ | ⟨bsize, -⟩ <;> rw [bsize] at few <;> omega
  rw [bmapHasHoles]
  generalize (ip.size + BitVec.ofNat 32 (g.bsize - 1)).sshiftRight g.bshift = d at dblks ⊢
  generalize (ip.blocks <<< 9 + BitVec.ofNat 32 (g.bsize - 1)) >>> g.bshift = b at mblks ⊢
  have direct_iff : d ≤ BitVec.ofNat 32 ndaddr ↔ dataBlocks g ip ≤ ndaddr := by
    rw [← dblks]
    exact le_def
  by_cases direct : dataBlocks g ip ≤ ndaddr
  · rw [if_pos (direct_iff.2 direct), fullBlocks_direct direct, ← mblks, ← dblks]
    rfl
  · have few : d.toNat ≤ 2 ^ 19 := by omega
    have many : ndaddr < d.toNat := by omega
    obtain ⟨cnt, counted, cnt_eq⟩ := countLevels_spec sizes few many
    rw [if_neg fun le => direct (direct_iff.1 le), counted, ← mblks, ← dblks, ← cnt_eq]
    rfl

omit sizes in
/-- In the last block below two gigabytes the number of data blocks comes out negative. -/
theorem dblks_wraps (wraps : 2 ^ 31 ≤ ip.size.toNat + g.bsize - 1) (blocks : g.bsize ≤ 2 ^ 31) :
    ((ip.size + BitVec.ofNat 32 (g.bsize - 1)).sshiftRight g.bshift).toNat =
      2 ^ 32 - 2 ^ 31 / g.bsize := by
  have positive := bsize_pos g
  have sum : (ip.size + BitVec.ofNat 32 (g.bsize - 1)).toNat = ip.size.toNat + g.bsize - 1 := by
    rw [toNat_add, toNat_ofNat]
    omega
  have sign : (ip.size + BitVec.ofNat 32 (g.bsize - 1)).msb = true := by
    rw [msb_eq_decide, sum]
    exact decide_eq_true (by omega)
  have shift_le : g.bshift ≤ 31 := (Nat.pow_le_pow_iff_right (by decide)).1 blocks
  have whole : g.bsize * (2 ^ 31 / g.bsize) = 2 ^ 31 :=
    Nat.mul_div_cancel' (Nat.pow_dvd_pow 2 shift_le)
  have quotient : (2 ^ 32 - 1 - (ip.size.toNat + g.bsize - 1)) / g.bsize =
      2 ^ 31 / g.bsize - 1 := by
    rw [Nat.div_eq_iff positive, Nat.sub_mul, Nat.mul_comm _ g.bsize, whole]
    omega
  rw [sshiftRight_eq_of_msb_true sign, toNat_not, toNat_ushiftRight,
    toNat_not, sum, shiftRight_eq_div_pow, ← Geometry.bsize, quotient]
  have some_block : 0 < 2 ^ 31 / g.bsize := div_pos blocks positive
  omega

omit sizes small in
theorem countLevels_congr {g' : Geometry} (same : g.bshift = g'.bshift) (fuel : ℕ)
    (dblks cnt : BitVec 32) :
    countLevels g fuel dblks cnt = countLevels g' fuel dblks cnt := by
  have shift : g.nindirshift = g'.nindirshift := congrArg (· - 2) same
  have offset : g.nindiroffset = g'.nindiroffset := by
    rw [Geometry.nindiroffset, Geometry.nindiroffset, Geometry.nindir, Geometry.nindir, shift]
  induction fuel generalizing dblks cnt with
  | zero => rfl
  | succ fuel ih => rw [countLevels, countLevels, shift, offset, ih]

omit small in
theorem countLevels_wraps {dblks : BitVec 32} (wraps : dblks.toNat = 2 ^ 32 - 2 ^ 31 / g.bsize) :
    ∃ cnt, countLevels g 32 (dblks - BitVec.ofNat 32 ndaddr)
      (BitVec.ofNat 32 (ndaddr + 1)) = some cnt ∧
      2 ^ 32 < g.bsize * cnt.toNat := by
  rcases sizes with same | same
  · have dblks_eq : dblks = 4294443008#32 := eq_of_toNat_eq (by
      rw [wraps, Geometry.bsize, same]
      decide)
    rw [dblks_eq, @countLevels_congr g ⟨12, 9, by decide, 0, 0⟩ same, Geometry.bsize, same]
    exact ⟨3673605#32, by decide +kernel, by decide⟩
  · have dblks_eq : dblks = 4294705152#32 := eq_of_toNat_eq (by
      rw [wraps, Geometry.bsize, same]
      decide)
    rw [dblks_eq, @countLevels_congr g ⟨13, 9, by decide, 0, 0⟩ same, Geometry.bsize, same]
    exact ⟨1835905#32, by decide +kernel, by decide⟩

theorem bmapHasHoles_wraps (wraps : 2 ^ 31 ≤ ip.size.toNat + g.bsize - 1)
    (accounted : Accounted g disk ip) :
    bmapHasHoles g ip = some true := by
  obtain ⟨used_le, -⟩ := usedBlocks_spec sizes small accounted
  have mblks := mblks_toNat sizes small accounted
  have bound := fullBlocks_le sizes small
  have blocks : g.bsize ≤ 2 ^ 31 := by
    rcases nindir_sizes sizes with ⟨bsize, -⟩ | ⟨bsize, -⟩ <;> rw [bsize] <;> decide
  have dblks := dblks_wraps small wraps blocks
  obtain ⟨cnt, counted, large⟩ := countLevels_wraps sizes dblks
  have indirect : ¬ (ip.size + BitVec.ofNat 32 (g.bsize - 1)).sshiftRight g.bshift ≤
      BitVec.ofNat 32 ndaddr := by
    rw [le_def, dblks, toNat_ofNat, ndaddr]
    rcases nindir_sizes sizes with ⟨bsize, -⟩ | ⟨bsize, -⟩ <;> rw [bsize] <;> decide
  have missing : directBlocks ip ndaddr + treeBlocks g disk ip < cnt.toNat := by
    refine Nat.lt_of_mul_lt_mul_left
      (Nat.lt_trans (Nat.lt_of_le_of_lt (mul_le_mul_left g.bsize used_le) ?_) large)
    omega
  have less : (ip.blocks <<< 9 + BitVec.ofNat 32 (g.bsize - 1)) >>> g.bshift < cnt := by
    rw [lt_def, mblks]
    exact missing
  rw [bmapHasHoles, if_neg indirect, counted, map_some, decide_eq_true less]

/-- `bmap_has_holes` is right about the holes of a file exactly if its size rounded up stays below
two gigabytes, or if it has a hole. -/
theorem bmapHasHoles_iff (accounted : Accounted g disk ip) :
    (∃ has_holes, bmapHasHoles g ip = some has_holes ∧ (has_holes = true ↔ HasHole g disk ip)) ↔
      ip.size.toNat + g.bsize - 1 < 2 ^ 31 ∨ HasHole g disk ip := by
  obtain ⟨used_le, used_iff⟩ := usedBlocks_spec sizes small accounted
  by_cases fits : ip.size.toNat + g.bsize - 1 < 2 ^ 31
  · refine iff_of_true ⟨_, bmapHasHoles_fits sizes small fits accounted, ?_⟩ (.inl fits)
    rw [decide_eq_true_iff]
    constructor
    · intro missing
      by_contra no_hole
      have := used_iff.2 no_hole
      omega
    · intro hole
      have differ : ¬ directBlocks ip ndaddr + treeBlocks g disk ip = fullBlocks g
          (dataBlocks g ip) :=
        fun same => used_iff.1 same hole
      omega
  · have result := bmapHasHoles_wraps sizes small (by omega) accounted
    constructor
    · rintro ⟨has_holes, is_result, right⟩
      rw [result] at is_result
      exact .inr (right.1 (some.inj is_result).symm)
    · rintro (fits' | hole)
      · exact absurd fits' fits
      · exact ⟨true, result, iff_of_true rfl hole⟩

end Small

/-! ### Two files -/

/-- Blocks of 8192 bytes and fragments of 1024. -/
def wide : Geometry := ⟨13, 10, by decide, 1, 7⟩

/-- A file of fourteen blocks without the thirteenth: the indirect block is at 200. -/
def holed : Inode := ⟨114688, 224, fun i => 8 * (1 + i), fun r => if r = 0 then 200 else 0⟩

def holedDisk (block i : ℕ) : ℕ := if block = 200 ∧ i = 1 then 400 else 0

theorem holed_accounted : Accounted wide holedDisk holed := by
  have blocks : dataBlocks wide holed = 14 := rfl
  have absent (k m : ℕ) : Radix.Within 0 holedDisk wide.nindir k 0 m := by
    cases k <;> exact fun present => absurd rfl present
  refine ⟨fun i lt _ => ?_, fun _ => ⟨by decide, fun i _ present => ?_⟩, absent 2 _, absent 3 _,
    1, by decide, by decide, by decide +kernel⟩
  · rw [blocks]
    exact lt.trans (by decide)
  · rw [blocks]
    obtain rfl : i = 1 := by
      by_contra other
      exact present (if_neg fun both => other both.2)
    decide

theorem bmapHasHoles_holed :
    bmapHasHoles wide holed = some true ∧ HasHole wide holedDisk holed := by
  have found : bmapHasHoles wide holed = some true := by decide +kernel
  obtain ⟨has_holes, result, right⟩ :=
    (bmapHasHoles_iff (.inr rfl) (by decide) holed_accounted).2 (.inl (by decide))
  cases found.symm.trans result
  exact ⟨found, right.1 rfl⟩

/-- The largest file, without holes.  The single indirect block is at 160, the double one at 168,
the blocks named by it are from 240 on and the data from 8000 on. -/
def largest : Inode where
  size := 2147483647
  blocks := 4196368
  db i := 8 * (1000 + i)
  ib r := if r = 0 then 160 else if r = 1 then 168 else 0

def largestDisk (block i : ℕ) : ℕ :=
  if block = 160 then 8 * (1012 + i)
  else if block = 168 then if i < 127 then 8 * (30 + i) else 0
  else
    let lbn := 2060 + (block / 8 - 30) * 2048 + i
    if lbn < 262144 then 8 * (1000 + lbn) else 0

theorem largest_blocks : dataBlocks wide largest = 262144 := rfl

theorem wide_nindir : wide.nindir = 2048 := rfl

theorem largestDisk_double {j i : ℕ} (small : j < 127) :
    largestDisk (8 * (30 + j)) i =
      if 2060 + j * 2048 + i < 262144 then 8 * (1000 + (2060 + j * 2048 + i)) else 0 := by
  rw [largestDisk, if_neg (by omega), if_neg (by omega)]
  dsimp only
  rw [show 8 * (30 + j) / 8 - 30 = j by omega]

theorem largestDisk_single (i : ℕ) : largestDisk 160 i = 8 * (1012 + i) := if_pos rfl

theorem largestDisk_indirect (j : ℕ) : largestDisk 168 j = if j < 127 then 8 * (30 + j) else 0 := by
  rw [largestDisk, if_neg (by decide), if_pos rfl]

theorem largest_single : Radix.Within 0 largestDisk 2048 1 160 262132 ∧
    Radix.Filled 0 largestDisk 2048 1 160 262132 := by
  constructor
  · refine fun _ => ⟨by decide, fun i small _ => ?_⟩
    rw [pow_zero]
    omega
  · intro i below
    rw [Radix.leaf, if_neg (by decide), Radix.leaf, largestDisk_single]
    omega

theorem largest_double : Radix.Within 0 largestDisk 2048 2 168 260084 ∧
    Radix.Filled 0 largestDisk 2048 2 168 260084 := by
  constructor
  · refine fun _ => ⟨by decide, fun j _ present => ?_⟩
    rw [largestDisk_indirect] at present ⊢
    have few : j < 127 := by
      by_contra many
      exact present (if_neg many)
    rw [if_pos few, pow_one]
    refine ⟨by omega, fun i small there => ?_⟩
    rw [largestDisk_double few] at there
    rw [pow_zero]
    by_contra out
    exact there (if_neg (by omega))
  · intro i below
    have few : i / 2048 ^ 1 % 2048 < 127 := by omega
    rw [Radix.leaf, if_neg (by decide), largestDisk_indirect, if_pos few, Radix.leaf,
      if_neg (by omega), Radix.leaf, largestDisk_double few, if_pos (by omega)]
    omega

theorem largest_tree : treeBlocks wide largestDisk largest = 262261 := by
  have single := (Radix.nodes_spec (by decide) largest_single.1).2.2 largest_single.2
  have double := (Radix.nodes_spec (by decide) largest_double.1).2.2 largest_double.2
  have triple : Radix.nodes 0 largestDisk 2048 3 0 = 0 := by rw [Radix.nodes, if_pos rfl]
  have count : Radix.full 2048 1 (min 262132 (2048 ^ 1)) + Radix.full 2048 2
      (min 260084 (2048 ^ 2)) = 262261 := by
    decide +kernel
  have ib : largest.ib 0 = 160 ∧ largest.ib 1 = 168 ∧ largest.ib 2 = 0 := ⟨rfl, rfl, rfl⟩
  rw [← count, ← single, ← double, treeBlocks_eq, wide_nindir, ib.1, ib.2.1, ib.2.2, triple,
    Nat.add_zero]

theorem largest_accounted : Accounted wide largestDisk largest := by
  have left : dataBlocks wide largest - ndaddr = 262132 := by rw [largest_blocks, ndaddr]
  have ib : largest.ib 0 = 160 ∧ largest.ib 1 = 168 ∧ largest.ib 2 = 0 := ⟨rfl, rfl, rfl⟩
  constructor
  · intro i small _
    rw [largest_blocks]
    rw [ndaddr] at small
    omega
  · rw [left, ib.1, wide_nindir]
    exact largest_single.1
  · rw [left, ib.2.1, wide_nindir]
    exact largest_double.1
  · rw [ib.2.2]
    exact fun present => absurd rfl present
  · refine ⟨8, by decide, by decide, ?_⟩
    rw [largest_tree]
    decide +kernel

/-- The largest file has no hole, but `bmap_has_holes` finds one. -/
theorem not_bmapHasHoles :
    ¬ ∀ (g : Geometry) (disk : ℕ → ℕ → ℕ) (ip : Inode), g.bshift = 12 ∨ g.bshift = 13 →
    ip.size.toNat < 2 ^ 31 → Accounted g disk ip →
      ∃ has_holes, bmapHasHoles g ip = some has_holes ∧ (has_holes = true ↔ HasHole g disk ip) := by
  intro always
  have small : largest.size.toNat < 2 ^ 31 := by decide +kernel
  obtain ⟨has_holes, is_result, right⟩ :=
    always wide largestDisk largest (.inr rfl) small largest_accounted
  have wraps : bmapHasHoles wide largest = some true := by decide +kernel
  have full : directBlocks largest ndaddr + 262261 = fullBlocks wide 262144 := by decide +kernel
  have no_hole := (usedBlocks_spec (.inr rfl) small largest_accounted).2.1
    (by rwa [largest_tree, largest_blocks])
  rw [wraps] at is_result
  exact no_hole (right.1 (some.inj is_result).symm)

end Sol25.Ufs
