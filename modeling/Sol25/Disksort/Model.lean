import Mathlib.Algebra.Order.Ring.Int

/-!
# Seek sort for disks

`disksort`, `os/bdev_dsort.c`: the requests of a disk are a chain in two runs of ascending
cylinders.  A null pointer is `none`, and so is a loop that runs out of fuel.
-/

namespace Sol25.Disksort

/-- The members of `struct buf` that are used here; `cylin` is `b_cylin`, which is `b_resid`. -/
structure Buf where
  avForw : Option ℕ
  cylin : ℕ
  deriving DecidableEq, Repr

/-- `struct diskhd`, with the requests. -/
structure Diskhd where
  buf : ℕ → Buf
  /-- `b_actf`. -/
  actf : Option ℕ
  /-- `b_actl`. -/
  actl : Option ℕ

/-- Set `av_forw`. -/
def Diskhd.setForw (dp : Diskhd) (bp : ℕ) (next : Option ℕ) : Diskhd :=
  { dp with buf := Function.update dp.buf bp { dp.buf bp with avForw := next } }

/-- The search of the second request list for the first request at a larger cylinder: the request in
front of it, or the last one. -/
def secondList (buf : ℕ → Buf) (bp : ℕ) : ℕ → ℕ → Option ℕ
  | 0, _ => none
  | fuel + 1, ap => do
      let next ← (buf ap).avForw
      if (buf bp).cylin < (buf next).cylin then some ap
      else if (buf next).avForw = none then some next
      else secondList buf bp fuel next

/-- The search for the inversion that starts the second request list, and in that list. -/
def findInversion (buf : ℕ → Buf) (bp : ℕ) : ℕ → ℕ → Option ℕ
  | 0, _ => none
  | fuel + 1, ap =>
    match (buf ap).avForw with
    | none => some ap
    | some next =>
      if (buf next).cylin < (buf ap).cylin then secondList buf bp (fuel + 1) ap
      else findInversion buf bp fuel next

def firstList (buf : ℕ → Buf) (bp : ℕ) : ℕ → ℕ → Option ℕ
  | 0, _ => none
  | fuel + 1, ap =>
    match (buf ap).avForw with
    | none => some ap
    | some next =>
      if (buf next).cylin < (buf ap).cylin ∨ (buf bp).cylin < (buf next).cylin then some ap
      else firstList buf bp fuel next

/-- `disksort`, with at most `fuel` rounds of each loop. -/
def disksort (fuel : ℕ) (dp : Diskhd) (bp : ℕ) : Option Diskhd :=
  match dp.actf with
  | none => some { dp.setForw bp none with actf := some bp, actl := some bp }
  | some ap => do
      let ap ←
        if (dp.buf bp).cylin < (dp.buf ap).cylin then findInversion dp.buf bp fuel ap
        else firstList dp.buf bp fuel ap
      let linked := (dp.setForw bp (dp.buf ap).avForw).setForw ap (some bp)
      some { linked with actl := if some ap = dp.actl then some bp else dp.actl }

/-- The driver takes the first request off the queue. -/
def Diskhd.remove (dp : Diskhd) (bp : ℕ) : Diskhd := { dp with actf := (dp.buf bp).avForw }

/-- Sequences of insertions and removals from an empty queue.  The list tells the requests that are
on the queue in the order of their arrival; a request that is not there may be used otherwise. -/
inductive Run : Diskhd → List ℕ → Prop
  | start {dp : Diskhd} (empty : dp.actf = none) : Run dp []
  | insert {dp dp' : Diskhd} {arrived : List ℕ} {fuel bp : ℕ} (run : Run dp arrived)
      (fresh : bp ∉ arrived)
      (done : disksort fuel dp bp = some dp') : Run dp' (arrived ++ [bp])
  | remove {dp : Diskhd} {arrived : List ℕ} {bp : ℕ} (run : Run dp arrived)
      (first : dp.actf = some bp) :
      Run (dp.remove bp) (arrived.erase bp)
  | other {dp : Diskhd} {arrived : List ℕ} {bp : ℕ} {b : Buf} (run : Run dp arrived)
      (fresh : bp ∉ arrived) :
      Run { dp with buf := Function.update dp.buf bp b } arrived

end Sol25.Disksort
