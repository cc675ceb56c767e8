import Mathlib.Algebra.Order.Ring.Int

/-!
# Message blocks

A message is a chain of message blocks, each of which shows a part of a data block.  Data blocks may
be shared. `pullupmsg`, `msgpullup` and `adjmsg` of `stream.c` reshape the chain.
-/

namespace Sol25.Message

open Function

scoped instance neZero : NeZero 256 := ⟨by decide⟩

/-- A number as an `int`. -/
def toInt (x : ℤ) : ℤ := Int.bmod x (2 ^ 32)

/-- A data block, `dblk_t`. -/
structure Dblk where
  /-- `db_type` -/
  type : Fin 256
  /-- The address `db_base` -/
  base : ℕ
  /-- The buffer from `db_base` on -/
  data : ℕ → Fin 256

/-- A message block, `mblk_t`.  The pointers are offsets from `db_base`. -/
structure Mblk where
  /-- `b_datap` -/
  dblk : ℕ
  /-- `b_rptr` -/
  rptr : ℕ
  /-- `b_wptr` -/
  wptr : ℕ
  /-- `b_band` -/
  band : Fin 256
  /-- `b_flag` -/
  flag : ℕ
deriving DecidableEq, Repr

/-- The bytes between `b_rptr` and `b_wptr`. -/
def Mblk.size (bp : Mblk) : ℕ := bp.wptr - bp.rptr

/-- The data blocks, of which the first `made` were allocated. -/
structure Mem where
  dblk : ℕ → Dblk
  made : ℕ

/-- What an allocation finds: the address of the buffer and what is in it. -/
structure Grant where
  base : ℕ
  stale : ℕ → Fin 256

namespace Mem

def type (mem : Mem) (bp : Mblk) : Fin 256 := (mem.dblk bp.dblk).type

def bytes (mem : Mem) (bp : Mblk) : List (Fin 256) :=
  (List.range bp.size).map fun i => (mem.dblk bp.dblk).data (bp.rptr + i)

/-- Allocate a block with its data block, of type `M_DATA`. -/
def allocb (mem : Mem) (grant : Option Grant) : Option (Mem × Mblk) :=
  grant.map fun grant =>
    (⟨update mem.dblk mem.made ⟨0, grant.base, grant.stale⟩, mem.made + 1⟩, ⟨mem.made, 0, 0, 0, 0⟩)

/-- Set `db_type` of a block. -/
def setType (mem : Mem) (bp : Mblk) (type : Fin 256) : Mem :=
  { mem with dblk := update mem.dblk bp.dblk { mem.dblk bp.dblk with type } }

/-- `bcopy` from the start of one block to the end of another. -/
def bcopy (mem : Mem) (src dst : Mblk) (n : ℕ) : Mem :=
  let target := mem.dblk dst.dblk
  let data i :=
    if dst.wptr ≤ i ∧ i < dst.wptr + n then (mem.dblk src.dblk).data (src.rptr + (i - dst.wptr))
      else target.data i
  { mem with dblk := update mem.dblk dst.dblk { target with data } }

/-- `str_aligned` of the start of a block. -/
def aligned (mem : Mem) (bp : Mblk) : Bool := ((mem.dblk bp.dblk).base + bp.rptr) % 4 = 0

/-- The loop of `xmsgsize`. -/
def xmsgsizeLoop (mem : Mem) (type : Fin 256) : List Mblk → ℤ → ℤ
  | [], count => count
  | bp :: bps, count =>
    if type ≠ mem.type bp then count else xmsgsizeLoop mem type bps (toInt (count + bp.size))

/-- The size of the leading blocks of one type. -/
def xmsgsize (mem : Mem) (mp : Mblk) (cont : List Mblk) : ℤ :=
  xmsgsizeLoop mem (mem.type mp) (mp :: cont) 0

/-! ### pullupmsg -/

/-- Copy into the new block.  It ends with the blocks that still have data in them, or have not been
reached. -/
def gather : List Mblk → ℕ → Mem → Mblk → Mem × Mblk × List Mblk
  | [], _, mem, new => (mem, new, [])
  | bp :: bps, len, mem, new =>
    let n := min bp.size len
    let mem := mem.bcopy bp new n
    let new := { new with wptr := new.wptr + n }
    let bp := { bp with rptr := bp.rptr + n }
    if bp.rptr ≠ bp.wptr then (mem, new, bp :: bps)
    else if len - n = 0 then (mem, new, bps)
    else gather bps (len - n) mem new

/-- The quick check for success. -/
def pulledUp (mem : Mem) (mp : Mblk) (cont : List Mblk) (len : ℤ) : Bool :=
  if len = -1 then cont.isEmpty && mem.aligned mp else decide (len ≤ mp.size) && mem.aligned mp

/-- Concatenate and align the first bytes of a message. -/
def pullupmsg (mem : Mem) (grant : Option Grant) (mp : Mblk) (cont : List Mblk) (len : ℤ) :
    Bool × Mem × List Mblk :=
  if mem.pulledUp mp cont len then (true, mem, mp :: cont)
  else if len ≠ -1 ∧ mem.xmsgsize mp cont < len then (false, mem, mp :: cont)
  else
    let len := if len = -1 then mem.xmsgsize mp cont else len
    let len := if len < mp.size then (mp.size : ℤ) else len
    match mem.allocb grant with
    | none => (false, mem, mp :: cont)
    | some (mem', new) =>
      let (mem, new, bps) := gather (mp :: cont) len.toNat (mem'.setType new (mem.type mp)) new
      (true, mem, { new with flag := mp.flag, band := mp.band } :: bps)

/-! ### msgpullup -/

/-- Copy whole blocks into the new block. -/
def copyBlocks : List Mblk → ℤ → Mem → Mblk → Mem × Mblk × List Mblk
  | [], _, mem, new => (mem, new, [])
  | mp :: mps, len, mem, new =>
    if 0 < len then
      copyBlocks mps (len - mp.size) (mem.bcopy mp new mp.size)
        { new with wptr := new.wptr + mp.size }
    else (mem, new, mp :: mps)

/-- Another block for the same data, with the reference counts. -/
def dupb (granted : Bool) (refs : ℕ → ℕ) (bp : Mblk) : Option (Mblk × (ℕ → ℕ)) :=
  if granted then
    if refs bp.dblk = 255 then none else some (bp, update refs bp.dblk (refs bp.dblk + 1))
  else none

/-- Duplicate a message, or nothing if a block fails. -/
def dupmsg : List Bool → (ℕ → ℕ) → List Mblk → Option (List Mblk × (ℕ → ℕ))
  | _, refs, [] => some ([], refs)
  | granted, refs, bp :: bps =>
    match dupb (granted.headD false) refs bp with
    | none => none
    | some (dup, refs) => (dupmsg granted.tail refs bps).map fun (dups, refs) => (dup :: dups, refs)

/-- Concatenate the leading blocks of one type into a new message; the rest is duplicated. -/
def msgpullup (mem : Mem) (grant : Option Grant) (granted : List Bool) (refs : ℕ → ℕ) (mp : Mblk)
    (cont : List Mblk) (len : ℤ) : Option (List Mblk) × Mem × (ℕ → ℕ) :=
  let totlen := mem.xmsgsize mp cont
  if 0 < len ∧ totlen < len then (none, mem, refs)
  else
    match mem.allocb grant with
    | none => (none, mem, refs)
    | some (mem', new) =>
      let (mem, new, mps) := copyBlocks (mp :: cont) totlen (mem'.setType new (mem.type mp))
        { new with flag := mp.flag, band := mp.band }
      match dupmsg granted refs mps with
      | none => (some [new], mem, refs)
      | some (dups, refs) => (some (new :: dups), mem, refs)

/-! ### adjmsg -/

def trimHead : List Mblk → ℤ → List Mblk
  | [], _ => []
  | bp :: bps, len =>
    if len = 0 then bp :: bps
    else
      let n := min (bp.size : ℤ) len
      { bp with rptr := (bp.rptr + n).toNat } :: trimHead bps (len - n)

/-- The last block with data in it of those of one type at the start. -/
def lastFull (mem : Mem) (type : Fin 256) : List Mblk → Option ℕ
  | [] => none
  | bp :: bps =>
    if mem.type bp = type then
      match lastFull mem type bps with
      | some i => some (i + 1)
      | none => if 0 < bp.size then some 0 else none
    else none

def trimTail (mem : Mem) (type : Fin 256) : ℕ → List Mblk → ℤ → Option (List Mblk)
  | 0, _, _ => none
  | fuel + 1, bps, len =>
    if len = 0 then some bps
    else
      match lastFull mem type bps with
      | none => some bps
      | some i =>
        let n := (bps[i]?).elim 0 fun bp => min (bp.size : ℤ) len
        trimTail mem type fuel (bps.modify i fun bp => { bp with wptr := (bp.wptr - n).toNat })
          (toInt (len - n))

/-- Trim bytes from the message: from the head if `len` is positive, from the tail if it is
negative. -/
def adjmsg (mem : Mem) (mp : Mblk) (cont : List Mblk) (len : ℤ) : Option (Bool × List Mblk) :=
  let fromhead := decide (0 ≤ len)
  let len := if len < 0 then toInt (-len) else len
  if mem.xmsgsize mp cont < len then some (false, mp :: cont)
  else if fromhead then some (true, trimHead (mp :: cont) len)
  else (mem.trimTail (mem.type mp) (cont.length + 2) (mp :: cont) len).map fun chain =>
    (true, chain)

end Mem

end Sol25.Message
