import Mathlib.Algebra.Order.Ring.Int
import Mathlib.Data.List.Basic
import Mathlib.Data.List.TakeWhile

/-!
# Resource maps

The first-fit resource maps of `uts/common/os/rmap.c`.  A map is a dense array of segments sorted
by address; the first slot of size zero delimits them.  The array is held as the list of its slots
from `mapstart` up to the terminator slot, so a pointer `bp` into it is a split of that list, and a
pointer that leaves the array on either side is a fault of its own, distinct from `panic`.
-/

namespace Sol25.Rmap

/-- Reduction to a 32-bit `ulong_t`. -/
def ulong (value : Nat) : Nat := value % 2 ^ 32

/-- The C test `(int)size <= 0`. -/
def intNonpos (size : Nat) : Bool := size == 0 || decide (2 ^ 31 ≤ size)

/-- One slot `struct map`. -/
structure Seg where
  /-- Size of the segment; zero in the slots that hold no segment. -/
  size : Nat
  /-- First address of the segment. -/
  addr : Nat
deriving DecidableEq, Repr

/-- A `struct map_head` together with its array. -/
structure Map where
  /-- `m_free`: number of unused segment slots. -/
  free : Nat
  /-- `m_want`: whether somebody sleeps in `rmalloc_wait`. -/
  want : Nat
  /-- `m_size`: number of segments the map may hold. -/
  cap : Nat
  /-- The array from `mapstart` to the terminator slot. -/
  slots : List Seg
deriving DecidableEq, Repr

/-- The ways a call can fail to return. -/
inductive Fault
  /-- The kernel panics. -/
  | panic (message : String)
  /-- An element before `mapstart` is read or written. -/
  | beforeStart
  /-- An element beyond the terminator slot is read or written. -/
  | beyondEnd
  /-- The retry loop of `rmfree` did not end. -/
  | diverges
deriving DecidableEq, Repr

/-- A pointer into the array: the slots before it, the slot it points to, the slots after it. -/
structure Cursor where
  /-- The slots from `mapstart` up to the pointer. -/
  front : List Seg
  /-- The slot pointed to. -/
  here : Seg
  /-- The slots after the pointer. -/
  back : List Seg
deriving DecidableEq, Repr

/-- `for (bp = start; !stop(bp); bp++)`. -/
def walk (stop : Seg → Bool) : List Seg → Except Fault Cursor
  | [] => .error .beyondEnd
  | slot :: rest =>
    if stop slot then
      .ok ⟨[], slot, rest⟩
    else
      (walk stop rest).map fun cursor => { cursor with front := slot :: cursor.front }

/-- Shift the slots after the first one down by one, up to and including the delimiter:
`do { bp++; (bp-1)->m_addr = bp->m_addr; } while (((bp-1)->m_size = bp->m_size) != 0)`. -/
def compress : List Seg → Except Fault (List Seg)
  | _ :: next :: rest =>
    if next.size = 0 then
      .ok (next :: next :: rest)
    else
      (compress (next :: rest)).map (next :: ·)
  | _ => .error .beyondEnd

/-- Store a segment at the head and push the segments found there up by one slot. -/
def pushUp : Seg → List Seg → Except Fault (List Seg)
  | _, [] => .error .beyondEnd
  | entry, slot :: rest =>
    if slot.size = 0 then
      .ok (entry :: rest)
    else
      (pushUp slot rest).map (entry :: ·)

/-- `MAP_OVERHEAD`: a `struct map_head` takes 36 bytes and a `struct map` 8. -/
def mapOverhead : Nat := (36 + 2 * 8 - 1) / 8

/-- `mapinit` on an array of slots. -/
def mapinit (storage : List Seg) (size addr : Nat) (mapsize : Int) : Except Fault Map :=
  if mapsize < mapOverhead + 1 then
    .error (.panic "mapinit: map too small\n")
  else
    let cap := (mapsize - mapOverhead).toNat
    match storage with
    | [] => .error .beyondEnd
    | _ :: rest =>
      .ok
        { free := if size ≠ 0 then cap - 1 else cap
          want := 0
          cap := cap
          slots := ⟨size, addr⟩ :: rest }

/-- `rmalloc_locked`: first fit, returning the address and the new map, or address zero. -/
def rmallocLocked (m : Map) (size : Nat) : Except Fault (Nat × Map) := do
  let bp ← walk (fun slot => slot.size == 0 || decide (size ≤ slot.size)) m.slots
  if bp.here.size = 0 then
    return (0, m)
  let taken : Seg := ⟨bp.here.size - size, ulong (bp.here.addr + size)⟩
  if taken.size = 0 then
    let back ← compress (taken :: bp.back)
    return (bp.here.addr, { m with slots := bp.front ++ back, free := ulong (m.free + 1) })
  return (bp.here.addr, { m with slots := bp.front ++ taken :: bp.back })

def rmalloc (m : Map) (size : Nat) : Except Fault (Nat × Map) :=
  if intNonpos size then .error (.panic "rmalloc") else rmallocLocked m size

/-- How one pass of `rmfree` over the map ends. -/
inductive Pass
  /-- The space has been returned. -/
  | done (m : Map)
  /-- A segment has been discarded and the pass starts over. -/
  | retry (m : Map)
deriving DecidableEq, Repr

/-- The segment left of the pointer, when it reaches up to `addr`. -/
def leftNeighbour (bp : Cursor) (addr : Nat) : Option Seg :=
  bp.front.getLast?.filter fun left => addr ≤ ulong (left.addr + left.size)

/-- `rmfree`, the branch that adds to the piece on the left. -/
def combineLeft (m : Map) (bp : Cursor) (left : Seg) (size addr : Nat) : Except Fault Pass := do
  if addr < ulong (left.addr + left.size) then
    throw (.panic "bad rmfree")
  let grown := ulong (left.size + size)
  if bp.here.size ≠ 0 ∧ bp.here.addr ≤ ulong (addr + size) then
    if bp.here.addr < ulong (addr + size) then
      throw (.panic "bad rmfree")
    let back ← compress (bp.here :: bp.back)
    return .done
      { m with
        slots := bp.front.dropLast ++ ⟨ulong (grown + bp.here.size), left.addr⟩ :: back
        free := ulong (m.free + 1) }
  return .done
    { m with slots := bp.front.dropLast ++ ⟨grown, left.addr⟩ :: bp.here :: bp.back }

/-- `rmfree`, the overflow branch: discard the smaller of the last two segments. -/
def discardOne (m : Map) (bp : Cursor) : Except Fault Map := do
  let final ← walk (fun slot => slot.size == 0) (bp.here :: bp.back)
  match (bp.front ++ final.front).reverse with
  | last :: previous :: others =>
    let tail :=
      if previous.size < last.size then
        last :: { last with size := 0 } :: final.here :: final.back
      else
        previous :: final.here :: { final.here with size := 0 } :: final.back
    return { m with slots := others.reverse ++ tail, free := ulong (m.free + 1) }
  | _ => throw .beforeStart

/-- One pass of `rmfree` from its label `retry`. -/
def rmfreePass (m : Map) (size addr : Nat) : Except Fault Pass := do
  let bp ← walk (fun slot => !(decide (slot.addr ≤ addr) && slot.size != 0)) m.slots
  match leftNeighbour bp addr with
  | some left => combineLeft m bp left size addr
  | none =>
    if bp.here.addr ≤ ulong (addr + size) ∧ bp.here.size ≠ 0 then
      if bp.here.addr < ulong (addr + size) then
        throw (.panic "bad rmfree")
      let grown : Seg := ⟨ulong (bp.here.size + size), ulong (bp.here.addr + 2 ^ 32 - size)⟩
      return .done { m with slots := bp.front ++ grown :: bp.back }
    if m.free = 0 then
      return .retry (← discardOne m bp)
    let back ← pushUp ⟨size, addr⟩ (bp.here :: bp.back)
    return .done { m with slots := bp.front ++ back, free := ulong (m.free + 2 ^ 32 - 1) }

/-- The passes of `rmfree`, at most `fuel` of them. -/
def rmfreeLoop (size addr : Nat) : Nat → Map → Except Fault Map
  | 0, _ => .error .diverges
  | fuel + 1, m => do
      match ← rmfreePass m size addr with
      | .done after => return { after with want := 0 }
      | .retry after => rmfreeLoop size addr fuel after

/-- `rmfree`.  A discarded segment leaves `m_free` nonzero, so two passes are enough. -/
def rmfree (m : Map) (size addr : Nat) : Except Fault Map :=
  if addr = 0 ∨ intNonpos size then .error (.panic "bad rmfree") else rmfreeLoop size addr 2 m

/-- `rmget`, the branch that takes from the middle of a segment. -/
def splitSegment (m : Map) (bp : Cursor) (size addr : Nat) : Except Fault (Nat × Map) := do
  if m.free = 0 then
    return (0, m)
  let last ← walk (fun slot => slot.size == 0) bp.back
  match last.back with
  | [] => throw .beyondEnd
  | spare :: rest =>
    let low : Seg := ⟨ulong (addr + 2 ^ 32 - bp.here.addr), bp.here.addr⟩
    let high : Seg :=
      ⟨ulong (ulong (bp.here.addr + bp.here.size) + 2 ^ 32 - ulong (addr + size)),
        ulong (addr + size)⟩
    return (addr,
      { m with
        slots := bp.front ++ low :: high :: (last.front ++ { spare with size := 0 } :: rest)
        free := ulong (m.free + 2 ^ 32 - 1) })

/-- `rmget`: allocate `size` units at `addr`. -/
def rmget (m : Map) (size addr : Nat) : Except Fault (Nat × Map) := do
  if intNonpos size then
    throw (.panic "rmget")
  let bp ← walk
    (fun slot => slot.size == 0 ||
      (decide (slot.addr ≤ addr) && decide (addr < ulong (slot.addr + slot.size)))) m.slots
  if bp.here.size = 0 then
    return (0, m)
  if ulong (bp.here.addr + bp.here.size) < ulong (addr + size) then
    return (0, m)
  if bp.here.addr = addr then
    if bp.here.size = size then
      let back ← compress (bp.here :: bp.back)
      return (addr, { m with slots := bp.front ++ back, free := ulong (m.free + 1) })
    let shrunk : Seg := ⟨ulong (bp.here.size + 2 ^ 32 - size), ulong (bp.here.addr + size)⟩
    return (addr, { m with slots := bp.front ++ shrunk :: bp.back })
  if ulong (bp.here.addr + bp.here.size) = ulong (addr + size) then
    let shrunk : Seg := ⟨ulong (bp.here.size + 2 ^ 32 - size), bp.here.addr⟩
    return (addr, { m with slots := bp.front ++ shrunk :: bp.back })
  splitSegment m bp size addr

end Sol25.Rmap
