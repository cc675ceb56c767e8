import Mathlib.Algebra.Order.Ring.Int

/-!
# Cluster chains of pcfs

The allocator of the PC file system, `pc_alloc.c`, over the resident file allocation table.  The
table is memory, with 12 or 16 bits an entry; a panic is `none`.  Whether the device takes the zeros
that are written to a cluster is an argument of each call.
-/

namespace Sol25.Pcfs

open Function

def pcfFreecluster : ℕ := 0x00

def pcfErrorcluster : ℕ := 0x01

/-- `PCF_12BCLUSTER`, the first reserved value of a 12 bit entry. -/
def pcf12bcluster : ℕ := 0xFF0

def pcfRescluster : ℕ := 0xFFF0

def pcfBadcluster : ℕ := 0xFFF7

/-- `PCF_LASTCLUSTER`; from here on an entry ends a chain. -/
def pcfLastcluster : ℕ := 0xFFF8

def pcfFirstcluster : ℕ := 2

inductive Errno
  | enoent
  | eio
  | enospc
  | efbig
  deriving DecidableEq, Repr

/-- `VREG` and `VDIR`. -/
inductive Vtype
  | vreg
  | vdir
  deriving DecidableEq, Repr

/-- A `struct pcnode` with the type and the `VROOT` flag of its vnode. -/
structure Pcnode where
  vtype : Vtype
  root : Bool
  size : ℤ
  scluster : ℕ
  deriving DecidableEq, Repr

/-- What `pc_getfat` reads from the boot sector. -/
structure Layout where
  /-- `PCFS_FAT16`. -/
  fat16 : Bool
  /-- `PCFS_NOCHK`. -/
  nochk : Bool
  secsize : ℕ
  spcl : ℕ
  sdshift : ℕ
  rdirsec : ℕ
  rdirstart : ℕ
  datastart : ℕ
  clsize : ℕ
  ncluster : ℕ

/-- The clusters have numbers below the reserved values of an entry, as the format has it.
`pc_getfat` does not check that. -/
def Layout.Numbered (lay : Layout) : Prop :=
  lay.ncluster + pcfFirstcluster ≤ if lay.fat16 then pcfBadcluster else pcf12bcluster

/-- The part of a `struct pcfs` that changes, and the active pcnodes. -/
structure Fs where
  fatp : Option (ℕ → BitVec 8)
  nxfrecls : ℕ
  nodes : ℕ → Option Pcnode

variable (lay : Layout)

/-- `pc_validcl`. -/
def validcl (cn : ℕ) : Bool :=
  decide (pcfFirstcluster ≤ cn ∧ cn < lay.ncluster + pcfFirstcluster)

/-- `pc_cltodb`. -/
def cltodb (cl : ℤ) : ℤ := cl * lay.spcl

/-- `pc_dbdaddr`. -/
def dbdaddr (db : ℤ) : ℤ := db * 2 ^ lay.sdshift

/-- `pc_cldaddr`. -/
def cldaddr (cl : ℕ) : ℤ := dbdaddr lay (lay.datastart + ((cl : ℤ) - pcfFirstcluster) * lay.spcl)

/-- The macro `howmany` over a long and an int. -/
def howmany (n : ℤ) (d : ℕ) : ℤ := ((n + ((d : ℤ) - 1)).bmod (2 ^ 32)).tdiv d

/-- The entry of a cluster in the table, as `pc_getcluster` takes it out. -/
def getEntry (fat : ℕ → BitVec 8) (cn : ℕ) : ℕ :=
  if lay.fat16 then
    let fp := cn <<< 1
    (fat fp).toNat + ((fat (fp + 1)).toNat <<< 8)
  else
    let fp := cn + cn >>> 1
    let cn :=
      if cn % 2 = 1 then (((fat fp).toNat &&& 0xf0) >>> 4) + ((fat (fp + 1)).toNat <<< 4)
      else (fat fp).toNat + (((fat (fp + 1)).toNat &&& 0x0f) <<< 8)
    if pcf12bcluster ≤ cn then cn ||| pcfRescluster else cn

/-- The table after `pc_setcluster` has put a value in. -/
def setEntry (fat : ℕ → BitVec 8) (cn ncn : ℕ) : ℕ → BitVec 8 :=
  if lay.fat16 then
    let fp := cn <<< 1
    update (update fat fp (BitVec.ofNat 8 ncn)) (fp + 1)
      (BitVec.ofNat 8 (ncn >>> 8))
  else
    let fp := cn + cn >>> 1
    if cn % 2 = 1 then
      update
        (update fat fp
          (BitVec.ofNat 8 (((fat fp).toNat &&& 0x0f) ||| ((ncn <<< 4) &&& 0xf0))))
        (fp + 1) (BitVec.ofNat 8 ((ncn >>> 4) &&& 0xff))
    else
      update (update fat fp (BitVec.ofNat 8 (ncn &&& 0xff)))
        (fp + 1) (BitVec.ofNat 8 (((fat (fp + 1)).toNat &&& 0xf0) ||| ((ncn >>> 8) &&& 0x0f)))

def pcGetcluster (fs : Fs) (cn : ℕ) : Option ℕ := do
  let fat ← fs.fatp
  if validcl lay cn then some (getEntry lay fat cn) else none

def pcSetcluster (fs : Fs) (cn ncn : ℕ) : Option Fs := do
  let fat ← fs.fatp
  if validcl lay cn then
    some { fs with
      fatp := some (setEntry lay fat cn ncn)
      nxfrecls := if ncn = pcfFreecluster then pcfFirstcluster else fs.nxfrecls }
  else none

/-- `pc_gldiskchanged`: unless the disk cannot be changed, all nodes and the resident table go. -/
def pcGldiskchanged (fs : Fs) : Fs :=
  if lay.nochk then fs else { fs with fatp := none, nodes := fun _ => none }

/-- The loop of `pc_alloccluster`, with at most `fuel` rounds.  The cluster number is a `u_short`.
`werr` tells of each cluster whether writing zeros to it fails. -/
def allocLoop (fs : Fs) (zwrite : Bool) (werr : ℕ → Bool) : ℕ → ℕ → Option (ℕ × Fs)
  | 0, _ => none
  | fuel + 1, cn =>
    if cn < lay.ncluster + pcfFirstcluster then do
      if (← pcGetcluster lay fs cn) = pcfFreecluster then
        let fs ← pcSetcluster lay fs cn pcfLastcluster
        if zwrite && werr cn then some (pcfErrorcluster, pcGldiskchanged lay fs)
        else some (cn, { fs with nxfrecls := cn + 1 })
      else allocLoop fs zwrite werr fuel ((cn + 1) % 2 ^ 16)
    else some (pcfFreecluster, fs)

/-- `pc_alloccluster`.  A number that never comes to the bound comes to zero, where `pc_getcluster`
panics, so the rounds are enough. -/
def pcAlloccluster (fs : Fs) (zwrite : Bool) (werr : ℕ → Bool) : Option (ℕ × Fs) := do
  let _ ← fs.fatp
  allocLoop lay fs zwrite werr (2 ^ 16 + 1) (fs.nxfrecls % 2 ^ 16)

/-- The loop of `pc_balloc` from the cluster `cn`, `lcn` clusters further. -/
def ballocLoop (zwrite : Bool) (werr : ℕ → Bool) :
    ℕ → Fs → ℕ → Option (Except Errno ℤ × Fs)
  | 0, fs, cn => some (.ok (cldaddr lay cn), fs)
  | lcn + 1, fs, cn => do
      let ncn ← pcGetcluster lay fs cn
      if pcfLastcluster ≤ ncn then
        let (ncn, fs) ← pcAlloccluster lay fs zwrite werr
        if ncn = pcfFreecluster then some (.error .enospc, fs)
        else if ncn = pcfErrorcluster then some (.error .eio, fs)
        else
          let fs ← pcSetcluster lay fs cn ncn
          ballocLoop zwrite werr lcn fs ncn
      else if validcl lay ncn then ballocLoop zwrite werr lcn fs ncn
      else some (.error .eio, fs)

/-- `pcp->pc_scluster = cn`. -/
def setScluster (fs : Fs) (f cn : ℕ) : Fs :=
  { fs with
    nodes := fun g => if g = f then (fs.nodes f).map ({ · with scluster := cn }) else fs.nodes g }

/-- `pcp->pc_size = size`, which the callers do. -/
def setSize (fs : Fs) (f : ℕ) (size : ℤ) : Fs :=
  { fs with
    nodes := fun g => if g = f then (fs.nodes f).map ({ · with size := size }) else fs.nodes g }

/-- The files `pc_balloc` takes to have no cluster yet. -/
def Pcnode.fresh (node : Pcnode) (lcn : ℤ) : Bool :=
  decide ((node.vtype = .vreg ∧ node.size = 0) ∨ (node.vtype = .vdir ∧ lcn = 0))

def pcBalloc (fs : Fs) (f : ℕ) (lcn : ℤ) (zwrite : Bool) (werr : ℕ → Bool) :
    Option (Except Errno ℤ × Fs) := do
  let node ← fs.nodes f
  if lcn < 0 then some (.error .efbig, fs)
  else if node.root then
    let lbn := cltodb lay lcn
    if lay.rdirsec ≤ lbn then some (.error .enospc, fs)
    else some (.ok (dbdaddr lay (lay.rdirstart + lbn)), fs)
  else if lay.ncluster ≤ lcn then some (.error .enospc, fs)
  else if node.fresh lcn then
    let (cn, fs) ← pcAlloccluster lay fs true werr
    if cn = pcfFreecluster then some (.error .enospc, fs)
    else if cn = pcfErrorcluster then some (.error .eio, fs)
    else ballocLoop lay zwrite werr lcn.toNat (setScluster fs f cn) cn
  else if validcl lay node.scluster then ballocLoop lay zwrite werr lcn.toNat fs node.scluster
  else some (.error .eio, fs)

/-- What `pc_bfree` does to the entry of one cluster. -/
def bfreeEntry (fs : Fs) (cn skipcl : ℕ) : Option Fs :=
  if skipcl = 0 then pcSetcluster lay fs cn pcfFreecluster
  else if skipcl = 1 then pcSetcluster lay fs cn pcfLastcluster
  else some fs

/-- The loop of `pc_bfree`, `left` being the counter `n`. -/
def bfreeLoop (vtype : Vtype) : ℕ → Fs → ℕ → ℕ → Option (Option Errno × Fs)
  | 0, fs, _, _ => some (none, fs)
  | left + 1, fs, cn, skipcl => do
      if validcl lay cn then
        let ncn ← pcGetcluster lay fs cn
        let fs ← bfreeEntry lay fs cn skipcl
        if pcfLastcluster ≤ ncn ∧ vtype = .vdir then some (none, fs)
        else bfreeLoop vtype left fs ncn (skipcl - 1)
      else some (some .eio, fs)

/-- `pc_bfree`.  The counter is an int that is tested before it is decremented. -/
def pcBfree (fs : Fs) (f skipcl : ℕ) : Option (Option Errno × Fs) := do
  let node ← fs.nodes f
  if node.root then none
  else if node.size = 0 ∧ node.vtype = .vreg then some (none, fs)
  else
    let n := if node.vtype = .vreg then howmany node.size lay.clsize else lay.ncluster
    if node.vtype = .vreg ∧ lay.ncluster < n then some (some .eio, fs)
    else
      let fs := if skipcl = 0 then setScluster fs f pcfLastcluster else fs
      bfreeLoop lay node.vtype (n % 2 ^ 32).toNat fs node.scluster skipcl

/-- The walk of `pc_bmap` to a cluster and the one after it. -/
def bmapLoop (fs : Fs) (vtype : Vtype) : ℕ → ℕ → Option (Except Errno (ℕ × ℕ))
  | lcn, cn => do
      if validcl lay cn then
        let ncn ← pcGetcluster lay fs cn
        match lcn with
        | 0 => some (.ok (cn, ncn))
        | lcn + 1 => bmapLoop fs vtype lcn ncn
      else if pcfLastcluster ≤ cn ∧ vtype = .vdir then some (.error .enoent)
      else some (.error .eio)

/-- The loop of `pc_bmap` over the clusters that follow each other on the disk.  The cluster number
grows, so there are at most as many rounds as clusters. -/
def contigLoop (fs : Fs) (wanted : ℕ) : ℕ → ℕ → ℕ → ℕ → Option ℕ
  | 0, _, _, count => some count
  | left + 1, cn, ncn, count => do
      if cn + 1 = ncn ∧ count < wanted ∧ validcl lay ncn then
        contigLoop fs wanted left ncn (← pcGetcluster lay fs ncn) ((count + lay.clsize) % 2 ^ 32)
      else some count

/-- `pc_bmap`: the disk block, and the number of contiguous bytes if it is asked for. -/
def pcBmap (fs : Fs) (f : ℕ) (lcn : ℤ) (contigbp : Option ℕ) :
    Option (Except Errno (ℤ × Option ℕ)) := do
  let node ← fs.nodes f
  if lcn < 0 then some (.error .enoent)
  else if node.root then
    let lbn := cltodb lay lcn
    if lay.rdirsec ≤ lbn then some (.error .enoent)
    else some (.ok (dbdaddr lay (lay.rdirstart + lbn),
      contigbp.map (min · (lay.secsize * (lay.rdirsec - lbn)).toNat)))
  else if lay.ncluster ≤ lcn then some (.error .enoent)
  else if node.vtype = .vreg ∧ (node.size = 0 ∨ howmany node.size lay.clsize ≤ lcn) then
    some (.error .enoent)
  else
    match ← bmapLoop lay fs node.vtype lcn.toNat node.scluster with
    | .error e => some (.error e)
    | .ok (cn, ncn) =>
      match contigbp with
      | none => some (.ok (cldaddr lay cn, none))
      | some wanted =>
        if lay.clsize < wanted then
          let count ← contigLoop lay fs wanted lay.ncluster cn ncn lay.clsize
          some (.ok (cldaddr lay cn, some count))
        else some (.ok (cldaddr lay cn, some wanted))

/-- `pc_fileclsize`, with at most `fuel` rounds; `none` when the chain has not ended by then. -/
def pcFileclsize (fs : Fs) : ℕ → ℕ → Option ℕ
  | 0, strtcluster => if validcl lay strtcluster then none else some 0
  | fuel + 1, strtcluster => do
      if validcl lay strtcluster then
        let count ← pcFileclsize fs fuel (← pcGetcluster lay fs strtcluster)
        some (count + 1)
      else some 0

/-- What happens to a file system whose lock is held: a call of the allocator, or the new `pc_size`
that its caller stores. -/
inductive Call
  | balloc (f : ℕ) (lcn : ℤ) (zwrite : Bool)
  | bfree (f skipcl : ℕ)
  | bmap (f : ℕ) (lcn : ℤ) (contigbp : Option ℕ)
  /-- `pc_alloccluster` for the new subdirectory `f`, as in `pc_makedirentry`. -/
  | alloccluster (f : ℕ) (zwrite : Bool)
  | size (f : ℕ) (size : ℤ)

/-- What a call returns. -/
inductive Reply
  | balloc (r : Except Errno ℤ)
  | bfree (r : Option Errno)
  | bmap (r : Except Errno (ℤ × Option ℕ))
  | alloccluster (cn : ℕ)
  | size

/-- The node of a directory whose first cluster has just been taken. -/
def enterDir (fs : Fs) (f cn : ℕ) : Fs :=
  { fs with nodes := update fs.nodes f (some ⟨.vdir, false, lay.clsize, cn⟩) }

/-- One call with its effect. -/
def exec (fs : Fs) (werr : ℕ → Bool) : Call → Option (Reply × Fs)
  | .balloc f lcn zwrite => do
      let (r, fs) ← pcBalloc lay fs f lcn zwrite werr
      some (.balloc r, fs)
  | .bfree f skipcl => do
      let (r, fs) ← pcBfree lay fs f skipcl
      some (.bfree r, fs)
  | .bmap f lcn contigbp => do
      let r ← pcBmap lay fs f lcn contigbp
      some (.bmap r, fs)
  | .alloccluster f zwrite => do
      if (fs.nodes f).isSome then none
      else
        let (cn, fs) ← pcAlloccluster lay fs zwrite werr
        if cn = pcfFreecluster ∨ cn = pcfErrorcluster then some (.alloccluster cn, fs)
        else some (.alloccluster cn, enterDir lay fs f cn)
  | .size f size => some (.size, setSize fs f size)

end Sol25.Pcfs
