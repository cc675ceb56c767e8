import Sol25.Ufs.Blocks

/-!
# Freeing blocks and fragments

`free` of `ufs_alloc.c`.  A whole block is checked before anything changes.  Fragments are checked
one by one, after the runs of their block have been taken off the counts.
-/

namespace Sol25.Ufs

open Function Option Nat Bool

/-- The parameters of a file system from `struct fs` that are used here.  Sizes are given by their
shifts. -/
structure Fs where
  fshift : ℕ
  fragshift : ℕ
  /-- A block has one, two, four or eight fragments. -/
  fragshift_le : fragshift ≤ 3
  fpg : ℕ
  nspf : ℕ
  spc : ℕ
  nsect : ℕ
  nrpos : ℕ

namespace Fs

/-- `fs_fsize`. -/
def fsize (fs : Fs) : ℕ := 2 ^ fs.fshift

/-- `fs_frag`. -/
def frag (fs : Fs) : ℕ := 2 ^ fs.fragshift

/-- `fs_bsize`. -/
def bsize (fs : Fs) : ℕ := fs.fsize * fs.frag

def fragoff (fs : Fs) (loc : ℕ) : ℕ := loc % fs.fsize

def numfrags (fs : Fs) (loc : ℕ) : ℕ := loc / fs.fsize

def fragstoblks (fs : Fs) (frags : ℕ) : ℕ := frags / fs.frag

def fragnum (fs : Fs) (fsb : ℕ) : ℕ := fsb % fs.frag

def dtog (fs : Fs) (d : ℕ) : ℕ := d / fs.fpg

def dtogd (fs : Fs) (d : ℕ) : ℕ := d % fs.fpg

def cbtocylno (fs : Fs) (bno : ℕ) : ℕ := bno * fs.nspf / fs.spc

def cbtorpos (fs : Fs) (bno : ℕ) : ℕ :=
  bno * fs.nspf % fs.spc % fs.nsect % fs.nsect * fs.nrpos / fs.nsect

end Fs

/-- `struct csum`. -/
structure Csum where
  ndir : BitVec 32
  nbfree : BitVec 32
  nifree : BitVec 32
  nffree : BitVec 32
  deriving DecidableEq

def Csum.add (cs : Csum) (nbfree nffree : BitVec 32) : Csum :=
  { cs with nbfree := cs.nbfree + nbfree, nffree := cs.nffree + nffree }

/-- `struct cg`, with the maps that lie behind it. -/
structure Cg where
  time : ℕ
  cs : Csum
  frsum : ℕ → BitVec 32
  blktot : ℕ → BitVec 32
  blks : ℕ → ℕ → BitVec 16
  blksfree : Bits

/-- The state of a mounted file system: the cylinder groups and the summaries in the superblock. -/
structure Volume where
  cg : ℕ → Cg
  cs : ℕ → Csum
  cstotal : Csum
  fmod : Bool

/-- Change a cylinder group. -/
def Volume.setCg (vol : Volume) (cg : ℕ) (cgp : Cg) : Volume :=
  { vol with cg := update vol.cg cg cgp }

/-- Add to the summary of a cylinder group and to its two copies. -/
def Volume.credit (vol : Volume) (cg : ℕ) (nbfree nffree : BitVec 32) : Volume :=
  { vol with
    cg := update vol.cg cg { vol.cg cg with cs := (vol.cg cg).cs.add nbfree nffree }
    cstotal := vol.cstotal.add nbfree nffree
    cs := update vol.cs cg ((vol.cs cg).add nbfree nffree) }

/-- Count a free block at its rotational position and in its cylinder. -/
def Cg.countBlock (cgp : Cg) (fs : Fs) (bno : ℕ) : Cg :=
  let cylno := fs.cbtocylno bno
  let rpos := fs.cbtorpos bno
  { cgp with
    blks := update cgp.blks cylno
      (update (cgp.blks cylno) rpos (cgp.blks cylno rpos + 1))
    blktot := update cgp.blktot cylno (cgp.blktot cylno + 1) }

/-- What `free` tells `ufs_fault`. -/
inductive Fault
  /-- `free: bad size`. -/
  | badSize (size : ℕ)
  /-- `free: freeing free block`. -/
  | freeingFreeBlock (block : ℕ)
  /-- `free: freeing free frag`. -/
  | freeingFreeFrag (block cg : ℕ)
  deriving DecidableEq

/-- The state when `free` returns, with what it reported. -/
structure Freed where
  vol : Volume
  fault : Option Fault
  /-- `vfs_lock` is still held. -/
  locked : Bool
  /-- The buffer of the cylinder group has not been released. -/
  held : Bool

/-- The part of `free` for a whole block. -/
def freeBlock (fs : Fs) (vol : Volume) (cg bno : ℕ) : Freed :=
  let cgp := vol.cg cg
  let blkno := fs.fragstoblks bno
  if !isclrblock fs.frag cgp.blksfree blkno then
    { vol, fault := some (.freeingFreeBlock bno), locked := false, held := true }
  else
    let cgp := { cgp with blksfree := setblock fs.frag cgp.blksfree blkno }.countBlock fs bno
    { vol := { (vol.setCg cg cgp).credit cg 1 0 with fmod := true },
      fault := none, locked := false, held := false }

/-- The loop over the fragments, up to the first one that is free. -/
def setFrags (bno : ℕ) : ℕ → ℕ → Bits → Bits × Option ℕ
  | 0, _, blksfree => (blksfree, none)
  | left + 1, i, blksfree =>
    if isset blksfree (bno + i) then (blksfree, some (bno + i))
    else setFrags bno left (i + 1) (setbit blksfree (bno + i))

/-- The part of `free` for fragments. -/
def freeFrags (fs : Fs) (vol : Volume) (cg bno size : ℕ) : Freed :=
  let cgp := vol.cg cg
  let bbase := bno - fs.fragnum bno
  let frsum := fragacct fs.frag (blkmap fs.frag cgp.blksfree bbase).toNat cgp.frsum (-1)
  match setFrags bno (fs.numfrags size) 0 cgp.blksfree with
  | (blksfree, some block) =>
    { vol := vol.setCg cg { cgp with frsum, blksfree }
      fault := some (.freeingFreeFrag block cg), locked := true, held := true }
  | (blksfree, none) =>
    let vol := (vol.setCg cg { cgp with frsum, blksfree }).credit cg 0 (fs.numfrags size)
    let cgp := vol.cg cg
    let frsum := fragacct fs.frag (blkmap fs.frag cgp.blksfree bbase).toNat cgp.frsum 1
    let cgp := { cgp with frsum }
    let vol :=
      if isblock fs.frag cgp.blksfree (fs.fragstoblks bbase) then
        (vol.setCg cg (cgp.countBlock fs bbase)).credit cg 1 (-fs.frag)
      else vol.setCg cg cgp
    { vol := { vol with fmod := true }, fault := none, locked := false, held := false }

/-- `free`, with the size as an unsigned number.  The cylinder group can be read and has its magic
number if `readable`; `now` is the time of day. -/
def free (fs : Fs) (readable : Bool) (now : ℕ) (vol : Volume) (bno size : ℕ) : Freed :=
  if size > fs.bsize ∨ fs.fragoff size ≠ 0 then
    { vol, fault := some (.badSize size), locked := false, held := false }
  else
    let cg := fs.dtog bno
    if !readable then { vol, fault := none, locked := false, held := false }
    else
      let vol := vol.setCg cg { vol.cg cg with time := now }
      let bno := fs.dtogd bno
      if size = fs.bsize then freeBlock fs vol cg bno else freeFrags fs vol cg bno size

variable {fs : Fs} {vol : Volume} {map : Bits} {block bno i j left size now cg : ℕ}
  {readable : Bool}

/-! ### Rejected calls -/

/-- One of the reports about what is free already. -/
def Fault.Freeing : Fault → Prop
  | badSize _ => False
  | freeingFreeBlock _ => True
  | freeingFreeFrag _ _ => True

/-- The free maps, the counts of fragments and the summaries are the same. -/
structure Untouched (vol vol' : Volume) : Prop where
  blksfree : ∀ cg, (vol'.cg cg).blksfree = (vol.cg cg).blksfree
  frsum : ∀ cg, (vol'.cg cg).frsum = (vol.cg cg).frsum
  cg_cs : ∀ cg, (vol'.cg cg).cs = (vol.cg cg).cs
  cs : vol'.cs = vol.cs
  cstotal : vol'.cstotal = vol.cstotal

theorem untouched_setCg {cgp : Cg} (blksfree : cgp.blksfree = (vol.cg cg).blksfree)
    (frsum : cgp.frsum = (vol.cg cg).frsum) (cs : cgp.cs = (vol.cg cg).cs) :
    Untouched vol (vol.setCg cg cgp) := by
  refine ⟨fun other => ?_, fun other => ?_, fun other => ?_, rfl, rfl⟩ <;>
    rw [Volume.setCg] <;> dsimp only <;> by_cases eq : other = cg
  · rw [eq, update_self, blksfree]
  · rw [update_of_ne eq]
  · rw [eq, update_self, frsum]
  · rw [update_of_ne eq]
  · rw [eq, update_self, cs]
  · rw [update_of_ne eq]

theorem setFrags_none_iff :
    (setFrags bno left i map).2 = none ↔ ∀ k < left, isset map (bno + (i + k)) = false := by
  induction left generalizing i map with
  | zero => exact ⟨fun _ k lt => absurd lt (not_lt_zero k), fun _ => rfl⟩
  | succ left ih =>
    rw [setFrags]
    by_cases here : isset map (bno + i) = true
    · rw [if_pos here]
      exact ⟨nofun, fun clear => absurd (clear 0 (succ_pos left)) (by simp [here])⟩
    · rw [if_neg here, ih]
      constructor
      · intro clear k lt
        cases k with
        | zero => exact eq_false_iff.2 here
        | succ k =>
          have later := clear k (lt_of_succ_lt_succ lt)
          rw [setbit_isset, or_eq_false_iff] at later
          rw [show i + (k + 1) = i + 1 + k by omega]
          exact later.2
      · intro clear k lt
        rw [setbit_isset, or_eq_false_iff]
        refine ⟨decide_eq_false (by omega), ?_⟩
        rw [show i + 1 + k = i + (k + 1) by omega]
        exact clear (k + 1) (succ_lt_succ lt)

theorem setFrags_isset (set : isset map j = true) : isset (setFrags bno left i map).1 j = true := by
  induction left generalizing i map with
  | zero => exact set
  | succ left ih =>
    rw [setFrags]
    split
    · exact set
    · refine ih ?_
      rw [setbit_isset, set, Bool.or_true]

/-- The loop stops at once if the first fragment is free, else it changes the map. -/
theorem setFrags_same_iff (some_left : 0 < left) :
    (setFrags bno left 0 map).1 = map ↔ isset map bno = true := by
  obtain ⟨left, rfl⟩ := exists_eq_succ_of_ne_zero (Nat.ne_of_gt some_left)
  rw [setFrags, Nat.add_zero]
  by_cases here : isset map bno = true
  · rw [if_pos here]
    exact ⟨fun _ => here, fun _ => rfl⟩
  · rw [if_neg here]
    refine ⟨fun same => ?_, fun set => absurd set here⟩
    have set : isset (setbit map bno) bno = true := by simp [setbit_isset]
    rw [← same]
    exact setFrags_isset set

theorem bbase_aligned : (bno - fs.fragnum bno) % 2 ^ fs.fragshift = 0 :=
  mod_eq_zero_of_dvd (dvd_sub_mod bno)

theorem freeBlock_untouched :
    (freeBlock fs vol cg bno).fault ≠ none → (freeBlock fs vol cg bno).vol = vol := by
  rw [freeBlock]
  dsimp only
  split
  · exact fun _ => rfl
  · exact fun fault => absurd rfl fault

/-- The part for fragments reports a free fragment and leaves the state as it was only if the whole
block of the first fragment is free. -/
theorem freeFrags_iff :
    ((freeFrags fs vol cg bno size).fault ≠ none →
      Untouched vol (freeFrags fs vol cg bno size).vol) ↔
      (∀ i < fs.numfrags size, isset (vol.cg cg).blksfree (bno + i) = false) ∨
      isset (vol.cg cg).blksfree bno = true ∧
        ∀ j < fs.frag, isset (vol.cg cg).blksfree (bno - fs.fragnum bno + j) = true := by
  have none_iff := @setFrags_none_iff (vol.cg cg).blksfree bno 0 (fs.numfrags size)
  simp only [Nat.zero_add] at none_iff
  by_cases none_free : ∀ i < fs.numfrags size, isset (vol.cg cg).blksfree (bno + i) = false
  · have no_report := none_iff.2 none_free
    refine ⟨fun _ => .inl none_free, fun _ fault => absurd ?_ fault⟩
    rw [freeFrags]
    dsimp only
    cases loop : setFrags bno (fs.numfrags size) 0 (vol.cg cg).blksfree with
    | mk blksfree report =>
      rw [loop] at no_report
      obtain rfl : report = none := no_report
      rfl
  have some_left : 0 < fs.numfrags size := by
    rcases Nat.eq_zero_or_pos (fs.numfrags size) with zero | pos
    · exact absurd (fun i lt => absurd lt (by omega)) none_free
    · exact pos
  have same_iff := @setFrags_same_iff (vol.cg cg).blksfree bno _ some_left
  have frsum_iff :=
    @fragacct_eq_iff (blkmap fs.frag (vol.cg cg).blksfree (bno - fs.fragnum bno)).toNat
    fs.fragshift (vol.cg cg).frsum fs.fragshift_le (blkmap_lt fs.fragshift_le)
  rw [Fs.frag, blkmap_zero_iff fs.fragshift_le bbase_aligned,
    blkmap_full_iff fs.fragshift_le bbase_aligned] at frsum_iff
  have reported : (setFrags bno (fs.numfrags size) 0 (vol.cg cg).blksfree).2 ≠ none :=
    mt none_iff.1 none_free
  cases loop : setFrags bno (fs.numfrags size) 0 (vol.cg cg).blksfree with
  | mk blksfree report =>
    rw [loop] at same_iff reported
    obtain ⟨block, rfl⟩ := ne_none_iff_exists'.1 reported
    have outcome : freeFrags fs vol cg bno size =
        { vol := vol.setCg cg { vol.cg cg with
            frsum := fragacct fs.frag
              (blkmap fs.frag (vol.cg cg).blksfree (bno - fs.fragnum bno)).toNat
              (vol.cg cg).frsum (-1)
            blksfree }
          fault := some (.freeingFreeFrag block cg), locked := true, held := true } := by
      rw [freeFrags]
      dsimp only
      rw [loop]
    rw [outcome]
    constructor
    · intro kept
      obtain ⟨same_map, same_frsum, -, -, -⟩ := kept nofun
      have same_map := same_map cg
      have same_frsum := same_frsum cg
      rw [Volume.setCg] at same_map same_frsum
      dsimp only at same_map same_frsum
      rw [update_self] at same_map same_frsum
      have first := same_iff.1 same_map
      refine .inr ⟨first, ?_⟩
      rcases frsum_iff.1 same_frsum with clear | full
      · have clear := clear (fs.fragnum bno) (mod_lt _ (Nat.two_pow_pos _))
        have back : bno - fs.fragnum bno + fs.fragnum bno = bno := Nat.sub_add_cancel (mod_le _ _)
        rw [back, first] at clear
        exact nomatch clear
      · exact full
    · rintro (clear | ⟨first, full⟩) _
      · exact absurd clear none_free
      · exact untouched_setCg (same_iff.2 first) (frsum_iff.2 (.inr full)) rfl

theorem Untouched.trans {vol' vol'' : Volume} (first : Untouched vol vol')
    (second : Untouched vol' vol'') :
    Untouched vol vol'' where
  blksfree cg := (second.blksfree cg).trans (first.blksfree cg)
  frsum cg := (second.frsum cg).trans (first.frsum cg)
  cg_cs cg := (second.cg_cs cg).trans (first.cg_cs cg)
  cs := second.cs.trans first.cs
  cstotal := second.cstotal.trans first.cstotal

theorem Untouched.symm {vol' : Volume} (untouched : Untouched vol vol') : Untouched vol' vol where
  blksfree cg := (untouched.blksfree cg).symm
  frsum cg := (untouched.frsum cg).symm
  cg_cs cg := (untouched.cg_cs cg).symm
  cs := untouched.cs.symm
  cstotal := untouched.cstotal.symm

theorem freeFrags_freeing {fault : Fault}
    (report : (freeFrags fs vol cg bno size).fault = some fault) :
    fault.Freeing := by
  rw [freeFrags] at report
  dsimp only at report
  split at report
  · obtain rfl := some.inj report
    trivial
  · exact nomatch report

/-- A call of `free` that reports a free block or fragment has changed nothing exactly if it was for
a whole block, or if the first fragment is the free one and its whole block is free. -/
theorem free_rejected_iff (fs : Fs) (readable : Bool) (now : ℕ) (vol : Volume) (bno size : ℕ)
    (fits : size ≤ fs.bsize) (aligned : fs.fragoff size = 0) :
    (∀ fault, (free fs readable now vol bno size).fault = some fault → fault.Freeing →
        Untouched vol (free fs readable now vol bno size).vol) ↔
      readable = false ∨ size = fs.bsize ∨
      (∀ i < fs.numfrags size, isset (vol.cg (fs.dtog bno)).blksfree (fs.dtogd bno + i) = false) ∨
      isset (vol.cg (fs.dtog bno)).blksfree (fs.dtogd bno) = true ∧
        ∀ j < fs.frag, isset (vol.cg (fs.dtog bno)).blksfree
          (fs.dtogd bno - fs.fragnum (fs.dtogd bno) + j) = true := by
  have proper : ¬ (size > fs.bsize ∨ fs.fragoff size ≠ 0) :=
    not_or.2 ⟨Nat.not_lt.2 fits, not_not.2 aligned⟩
  rw [free, if_neg proper]
  dsimp only
  cases readable with
  | false => exact ⟨fun _ => .inl rfl, fun _ fault report => nomatch report⟩
  | true =>
    have stamp : Untouched vol
        (vol.setCg (fs.dtog bno) { vol.cg (fs.dtog bno) with time := now }) :=
      untouched_setCg rfl rfl rfl
    rw [if_neg (by decide)]
    by_cases whole : size = fs.bsize
    · rw [if_pos whole]
      refine ⟨fun _ => .inr (.inl whole), fun _ fault report _ => ?_⟩
      rw [freeBlock_untouched (by rw [report]; exact nofun)]
      exact stamp
    · rw [if_neg whole]
      have parts := @freeFrags_iff fs
        (vol.setCg (fs.dtog bno) { vol.cg (fs.dtog bno) with time := now })
        (fs.dtogd bno) size (fs.dtog bno)
      rw [stamp.blksfree] at parts
      have apart : ∀ p, (true = false ∨ size = fs.bsize ∨ p) ↔ p := fun p =>
        ⟨fun h => h.elim nofun (fun h => h.elim (fun eq => absurd eq whole) id),
          fun h => .inr (.inr h)⟩
      rw [apart, ← parts]
      constructor
      · intro kept report
        obtain ⟨fault, report⟩ := ne_none_iff_exists'.1 report
        exact stamp.symm.trans (kept fault report (freeFrags_freeing report))
      · intro kept fault report _
        exact stamp.trans (kept (by rw [report]; exact nofun))

/-- A file system of one cylinder group with a block of eight fragments. -/
def small : Fs where
  fshift := 10
  fragshift := 3
  fragshift_le := by decide
  fpg := 8
  nspf := 2
  spc := 16
  nsect := 16
  nrpos := 1

/-- Fragments of the block are free as the bits of `map` tell. -/
def oneBlock (map : BitVec 8) : Volume where
  cg _ := { time := 0, cs := ⟨0, 0, 0, 0⟩, frsum := fun _ => 1, blktot := fun _ => 0,
            blks := fun _ _ => 0, blksfree := fun _ => map }
  cs _ := ⟨0, 0, 0, 0⟩
  cstotal := ⟨0, 0, 0, 0⟩
  fmod := false

/-- The whole block is free, and stays so. -/
theorem free_rejected_all_free :
    Untouched (oneBlock 0xff) (free small true 5 (oneBlock 0xff) 2 1024).vol := by
  have condition : isset (fun _ => 0xff#8) 2 = true ∧ ∀ j < 8,
      isset (fun _ => 0xff#8) (0 + j) = true := by decide
  exact (free_rejected_iff small true 5 (oneBlock 0xff) 2 1024 (by decide) (by decide)).2
    (.inr (.inr (.inr condition))) (.freeingFreeFrag 2 0) rfl trivial

/-- A fragment that is allocated has become free when the free one behind it is found. -/
theorem not_free_rejected : ¬ ∀ (fs : Fs) (readable : Bool) (now : ℕ) (vol : Volume) (bno size : ℕ),
    size ≤ fs.bsize → fs.fragoff size = 0 → ∀ fault,
      (free fs readable now vol bno size).fault = some fault →
      fault.Freeing → Untouched vol (free fs readable now vol bno size).vol := by
  intro all
  have kept := all small true 5 (oneBlock 0b10) 0 2048 (by decide)
    (by decide) (.freeingFreeFrag 1 0) rfl trivial
  have same : ((free small true 5 (oneBlock 0b10) 0 2048).vol.cg 0).blksfree 0 = 0b10#8 :=
    congrFun (kept.blksfree 0) 0
  exact absurd same (by decide)

end Sol25.Ufs
