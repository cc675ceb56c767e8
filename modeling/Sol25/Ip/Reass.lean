import Mathlib.Algebra.Order.Ring.Int
import Mathlib.Data.List.Basic

/-!
# Reassembly of datagrams

`inet/ip.c`: the part of `ip_rput_local` for fragments, and `ip_reassemble`.  A message is a list of
blocks of bytes, from the read pointer of each to its write pointer.  A read or write outside of a
block, and a read pointer that goes past the write pointer, give no result.  Byte counts and the
partial checksum are left out.
-/

namespace Sol25.Ip

/-- The value of an expression of type `u32`. -/
def u32 (x : ℤ) : ℕ := (x % 2 ^ 32).toNat

/-- `IPH_HDR_LENGTH` -/
def hdrLength (bytes : List UInt8) : Option ℕ := bytes[0]?.map fun b => (b.toNat % 16) * 4

/-- Two bytes of a block in network order. -/
def u16At (bytes : List UInt8) (i : ℕ) : Option ℕ :=
  match bytes[i]?, bytes[i + 1]? with
  | some high, some low => some (high.toNat * 256 + low.toNat)
  | _, _ => none

/-- Two bytes are stored in network order. -/
def setU16 (bytes : List UInt8) (i : ℕ) (x : ℕ) : Option (List UInt8) :=
  if i + 1 < bytes.length then
    some ((bytes.set i (x / 256).toUInt8).set (i + 1) x.toUInt8) else none

/-- `b_rptr += n` -/
def advance (n : ℕ) (bytes : List UInt8) : Option (List UInt8) :=
  if n ≤ bytes.length then some (bytes.drop n) else none

/-- `b_wptr -= n` -/
def retreat (n : ℕ) (bytes : List UInt8) : Option (List UInt8) :=
  if n ≤ bytes.length then some (bytes.take (bytes.length - n)) else none

/-- A block on the queue, with `IP_REASS_START` and `IP_REASS_END`. -/
structure Block where
  start : ℕ
  stop : ℕ
  bytes : List UInt8
  deriving DecidableEq, Repr

/-- `ipf_t`.  The end is zero in hard-case reassembly. -/
structure Ipf where
  queue : List Block
  holeCnt : ℤ
  ipfEnd : ℕ
  deriving DecidableEq, Repr

/-! ### `ip_reassemble` -/

/-- The blocks that are queued in order are marked. -/
def mark : ℕ → List Block → Option (List Block)
  | _, [] => some []
  | u1, mp1 :: rest =>
    match if u1 ≠ 0 then some 0 else hdrLength mp1.bytes with
    | none => none
    | some hdr =>
      let stop := u32 (u1 + mp1.bytes.length - hdr)
      (mark stop rest).map fun rest => ⟨u1, stop, mp1.bytes⟩ :: rest

/-- The loop that looks for an overlap of a new piece with those behind it. -/
def clip (more : Bool) (mp : Block) : ℤ → List Block → Option (Block × ℤ × List Block)
  | holeCnt, [] => some (mp, holeCnt, [])
  | holeCnt, mp1 :: rest =>
    if mp1.start < mp.stop then
      if mp.stop < mp1.stop then
        (retreat (mp.stop - mp1.start) mp.bytes).map fun bytes =>
          (⟨mp.start, mp1.start, bytes⟩, holeCnt, mp1 :: rest)
      else
        let covers := rest.head?.any fun mp2 =>
          decide (mp1.stop ≠ mp2.start ∧ mp2.start ≤ mp.stop)
        clip more mp (if covers ∨ more = false then holeCnt - 1 else holeCnt) rest
    else some (mp, holeCnt, mp1 :: rest)

/-- The loop for a new piece that starts between the start of the head and the end of the tail. -/
def fill (more : Bool) (mp : Block) (holeCnt : ℤ) : List Block → Option (List Block × ℤ)
  | [] => some ([], holeCnt)
  | mp1 :: rest =>
    if mp.start < mp1.stop ∧ mp.stop ≤ mp1.stop then some (mp1 :: rest, holeCnt)
    else
      let trimmed :=
        if mp.start < mp1.stop then
          (advance (mp1.stop - mp.start) mp.bytes).map fun bytes => ⟨mp1.stop, mp.stop, bytes⟩
        else some mp
      match trimmed, rest with
      | none, _ => none
      | some mp', [] =>
        if mp.start < mp1.stop then
          some ([mp1, mp'], if more then holeCnt else holeCnt - 1) else none
      | some mp', mp2 :: rest' =>
        if mp2.start ≤ mp'.start then (fill more mp' holeCnt (mp2 :: rest')).map fun r =>
          (mp1 :: r.1, r.2)
        else
          let holeCnt := if mp1.stop < mp'.start then holeCnt + 1 else holeCnt
          if mp2.start ≤ mp'.stop then
            (clip more mp' (holeCnt - 1) (mp2 :: rest')).map fun r => (mp1 :: r.1 :: r.2.2, r.2.1)
          else some (mp1 :: mp' :: mp2 :: rest', holeCnt)

/-- A new piece goes to its place on the queue. -/
def place (more : Bool) (mp : Block) (holeCnt : ℤ) (queue : List Block) : Option (List Block × ℤ) :=
  match queue.getLast?, queue.head? with
  | some tail, some mp1 =>
    if tail.stop ≤ mp.start then
      some (queue ++ [mp],
        if more then if mp.start ≠ tail.stop then holeCnt + 1 else holeCnt
        else if mp.start = tail.stop then holeCnt - 1 else holeCnt)
    else if mp.start < mp1.start then
      let holeCnt :=
        if mp.start = 0 then if mp1.start ≤ mp.stop then holeCnt - 1 else holeCnt
        else if mp.stop < mp1.start then holeCnt + 1 else holeCnt
      (clip more mp holeCnt queue).map fun r => (r.1 :: r.2.2, r.2.1)
    else fill more mp holeCnt queue
  | _, _ => some ([mp], if mp.start = 0 ∨ more = false then 1 else 2)

/-- The loop over the blocks of a fragment. -/
def pieces (more : Bool) : List (List UInt8) → ℕ → Ipf → Option Ipf
  | [], _, ipf => some ipf
  | mp :: rest, start, ipf =>
    match if start = 0 then hdrLength mp else some 0 with
    | none => none
    | some hdr =>
      let stop := u32 (start + mp.length - hdr)
      if start = stop then pieces more rest stop ipf
      else
        match place more ⟨start, stop, mp⟩ ipf.holeCnt ipf.queue with
        | none => none
        | some (queue, holeCnt) =>
          pieces more rest stop { ipf with queue := queue, holeCnt := holeCnt }

/-- The overloaded fields of a block are cleaned up. -/
def Block.cleared (mp1 : Block) : Block := { mp1 with start := 0, stop := 0 }

/-- `ip_reassemble`: the queue, and if there are no holes left the pieces as they were marked. -/
def ipReassemble (mp : List (List UInt8)) (ipf : Ipf) (more : Bool)
    (start : ℕ) : Option (Ipf × Option (List Block)) :=
  let marked :=
    if ipf.ipfEnd ≠ 0 then (mark 0 ipf.queue).map fun queue => ⟨queue, 1, 0⟩ else some ipf
  match marked with
  | none => none
  | some ipf => (pieces more mp start ipf).map fun ipf =>
    if ipf.holeCnt ≠ 0 then (ipf, none)
    else ({ ipf with queue := ipf.queue.map Block.cleared }, some ipf.queue)

/-! ### `ip_rput_local` -/

/-- What becomes of a fragment: it waits on a queue, or the message of its datagram is passed on. -/
inductive Outcome
  | queued (ipf : Ipf)
  | complete (queue : List Block) (mp : List (List UInt8))
  deriving DecidableEq, Repr

/-- The length in the header is restored and the fragment field cleared. -/
def restore (queue : List Block) : Option (List (List UInt8)) :=
  match queue.map Block.bytes with
  | [] => none
  | first :: rest =>
    ((setU16 first 2 (((first :: rest).map List.length).sum % 2 ^ 16)).bind fun first =>
      setU16 first 6 0).map
      fun first => first :: rest

/-- A queue without holes is passed on. -/
def complete (queue : List Block) : Option Outcome :=
  (restore queue).map fun mp => .complete queue mp

/-- A block of a fragment that is queued in order. -/
def unmarked (bytes : List UInt8) : Block := ⟨0, 0, bytes⟩

/-- The part of `ip_rput_local` for fragments, with what is queued for the same source, identifier
and protocol.  The hole count of a new queue is whatever was in its memory. -/
def ipRputLocal (junk : ℤ) (slot : Option Ipf) (mp : List (List UInt8)) : Option Outcome :=
  match mp with
  | [] => none
  | first :: rest =>
    match hdrLength first, u16At first 2, u16At first 6 with
    | some hdr, some len, some field =>
      let more := decide (field / 0x2000 % 2 = 1)
      let offset := field % 0x2000 * 8
      if more = false ∧ offset = 0 then none
      else
        let stop := u32 (len - hdr + offset)
        match if offset ≠ 0 then advance hdr first else some first with
        | none => none
        | some first =>
          match slot with
          | none =>
            if offset = 0 then some (.queued ⟨(first :: rest).map unmarked, junk, stop⟩)
            -- Whether the new queue has holes is not asked here.
            else (ipReassemble (first :: rest) ⟨[], junk, 0⟩ more offset).map fun r => .queued r.1
          | some ipf =>
            if offset ≠ 0 ∧ ipf.ipfEnd = offset then
              let queue := ipf.queue ++ (first :: rest).map unmarked
              if more then some (.queued { ipf with queue := queue, ipfEnd := stop }) else
                complete queue
            else
              match ipReassemble (first :: rest) ipf more offset with
              | none => none
              | some (ipf, none) => some (.queued ipf)
              | some (_, some queue) => complete queue
    | _, _, _ => none

end Sol25.Ip
