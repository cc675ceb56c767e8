import Mathlib.Algebra.Order.Ring.Int

/-!
# Callout tables

`os/callout.c` and `sys/callo.h`: a table of callouts, the clock that moves it on, the threads that
run the handlers, and what checkpoint and resume do with the table.  A bucket is the list of the
callouts from `b_first` on.  A callout is named by the order in which it was inserted, which stands
for the address of its structure while it is in a bucket.
-/

namespace Sol25.Callout

open Function

/-- `LONG_MAX`, and `INT_MAX` as well. -/
def longMax : ℤ := 2147483647

def longMin : ℤ := -2147483648

/-- The sum of two `long`s; there is none when it overflows. -/
def addLong (x y : ℤ) : Option ℤ :=
  if longMin ≤ x + y ∧ x + y ≤ longMax then some (x + y) else none

/-! ### Callout ids -/

/-- `CALLOUT_EXECUTING` -/
def executingBit : BitVec 32 := 0x80000000

/-- `CALLOUT_UNSAFE_DRIVER` -/
def unsafeDriverBit : BitVec 32 := 0x40000000

/-- `CALLOUT_REALTIME` -/
def realtimeBit : BitVec 32 := 0x20000000

/-- `CALLOUT_NORMAL` -/
def normalBit : BitVec 32 := 0x10000000

/-- `CALLOUT_LONGTERM` -/
def longterm : BitVec 32 := 0x08000000

/-- `CALLOUT_ID_MASK` -/
def idMask : BitVec 32 := realtimeBit ||| normalBit ||| longterm ||| (longterm - 1)

/-- `CALLOUT_LONGTERM_TICKS` -/
def longtermTicks : ℤ := 0x4000

/-- The two callout tables. -/
inductive TableId
  /-- `CALLOUT_NORMAL` -/
  | normal
  /-- `CALLOUT_REALTIME` -/
  | realtime
deriving DecidableEq, Repr

/-- The bit of a table in the ids of its callouts. -/
def TableId.bit : TableId → BitVec 32
  | .normal => normalBit
  | .realtime => realtimeBit

/-- The bucket of a run time, `runtime & CALLOUT_BUCKET_MASK`. -/
def bucketOf (runtime : ℤ) : Fin 256 := Fin.ofNat 256 (runtime % 256).toNat

/-- The bucket of an id, `id & CALLOUT_BUCKET_MASK`. -/
def bucketOfId (id : BitVec 32) : Fin 256 := Fin.ofNat 256 (id &&& 255).toNat

/-- `callout_t`, as far as the table looks at it. -/
structure CalloutT where
  /-- which insertion made it -/
  serial : ℕ
  /-- `c_xid` -/
  xid : BitVec 32
  /-- `c_runtime` -/
  runtime : ℤ
  /-- `c_executor` -/
  executor : Option ℕ
deriving DecidableEq, Repr

namespace CalloutT

/-- The id that `timeout` returned. -/
def id (cp : CalloutT) : BitVec 32 := cp.xid &&& idMask

/-- The handler is running. -/
def Executing (cp : CalloutT) : Prop := cp.xid &&& executingBit ≠ 0

instance (cp : CalloutT) : Decidable cp.Executing :=
  inferInstanceAs (Decidable (cp.xid &&& executingBit ≠ 0))

/-- The callout is to be run at `runtime` and nobody runs it. -/
def Due (cp : CalloutT) (runtime : ℤ) : Prop := cp.runtime = runtime ∧ ¬ cp.Executing

instance (cp : CalloutT) (runtime : ℤ) : Decidable (cp.Due runtime) :=
  inferInstanceAs (Decidable (_ ∧ _))

/-- A thread takes the callout to run its handler. -/
def begin (cp : CalloutT) (thread : ℕ) : CalloutT :=
  { cp with
    xid := cp.xid ||| executingBit
    executor := some thread }

end CalloutT

/-- `callout_bucket_t` -/
structure Bucket where
  /-- the callouts from `b_first` on -/
  first : List CalloutT
  /-- `b_short_id` -/
  shortId : BitVec 32
  /-- `b_long_id` -/
  longId : BitVec 32
deriving DecidableEq, Repr

/-- `callout_state_t` -/
structure Table where
  /-- `cs_curtime` -/
  curtime : ℤ
  /-- `cs_runtime` -/
  runtime : ℤ
  /-- `cs_busyticks` -/
  busyticks : ℤ
  /-- `cs_bucket` -/
  bucket : Fin 256 → Bucket

namespace Table

/-- `callout_setup` -/
def setup (table : TableId) : Table where
  curtime := 0
  runtime := 0
  busyticks := 0
  bucket := fun i =>
    { first := []
      shortId := BitVec.ofNat 32 i ||| table.bit
      longId := BitVec.ofNat 32 i ||| table.bit ||| longterm }

def callouts (cs : Table) : List CalloutT :=
  (List.finRange 256).flatMap fun i => (cs.bucket i).first

/-- Replace the callouts of a bucket. -/
def setFirst (cs : Table) (i : Fin 256) (first : List CalloutT) : Table :=
  { cs with bucket := update cs.bucket i { cs.bucket i with first := first } }

/-- The run time of a callout inserted at `lbolt`. -/
def runtimeAt (cs : Table) (lbolt delta : ℤ) : Option ℤ :=
  (addLong lbolt delta).bind fun runtime =>
    if runtime ≤ cs.curtime then
      if delta ≤ 0 then addLong cs.curtime 1 else some longMax
    else some runtime

/-- The id of a callout inserted in `bucket`, and the bucket with that id as its last one. -/
def assignId (bucket : Bucket) (isLong : Bool) : BitVec 32 × Bucket :=
  if isLong then
    let id := (bucket.longId - longterm + 256) ||| longterm
    (id, { bucket with longId := id })
  else
    let id := (bucket.shortId + 256) &&& ~~~longterm
    (id, { bucket with shortId := id })

/-- `callout_insert`, with the run time computed; `driverLock` is `UNSAFE_DRIVER_LOCK_HELD()`. -/
def insert (cs : Table) (serial : ℕ) (runtime : ℤ) (driverLock : Bool) : BitVec 32 × Table :=
  let i := bucketOf runtime
  let assigned := assignId (cs.bucket i) (longtermTicks < runtime - cs.curtime)
  let cp : CalloutT :=
    { serial := serial
      xid := if driverLock then assigned.1 ||| unsafeDriverBit else assigned.1
      runtime := runtime
      executor := none }
  (assigned.1, { cs with
    bucket := update cs.bucket i { assigned.2 with first := cp :: assigned.2.first } })

/-- `callout_delete`: what it returns, and the callout it takes out.  A callout whose handler runs
is waited for, or not if the caller is that handler, and -1 is returned. -/
def delete (cs : Table) (id : BitVec 32) : ℤ × Option CalloutT × Table :=
  let i := bucketOfId id
  match (cs.bucket i).first.find? fun cp => cp.id = id with
  | none => (-1, none, cs)
  | some cp =>
    if cp.Executing then (-1, none, cs)
    else (max (cp.runtime - cs.curtime) 0, some cp, cs.setFirst i ((cs.bucket i).first.erase cp))

/-- Move `cs_runtime` on to the next tick at which a callout is due, up to `cs_curtime`.  This is
the outer loop of `callout_schedule` and of `callout_execute`, and stops with the first such
callout. -/
def seek : ℕ → Table → Option (Option CalloutT × Table)
  | 0, cs => some (none, cs)
  | fuel + 1, cs =>
    if cs.runtime ≤ cs.curtime then
      match (cs.bucket (bucketOf cs.runtime)).first.find? fun cp => cp.Due cs.runtime with
      | some cp => some (some cp, cs)
      | none => (addLong cs.runtime 1).bind fun runtime => seek fuel { cs with runtime := runtime }
    else some (none, cs)

/-- The number of rounds `seek` can need. -/
def rounds (cs : Table) : ℕ := (cs.curtime + 1 - cs.runtime).toNat

/-- `callout_schedule`; a callout that is due signals a thread. -/
def schedule (cs : Table) (lbolt : ℤ) : Option Table :=
  let cs := { cs with curtime := lbolt }
  (cs.seek (cs.rounds + 1)).map fun found =>
    if found.1.isSome then { found.2 with busyticks := found.2.busyticks + 1 } else found.2

/-- A thread marks a callout and leaves the lock to run its handler. -/
def begin (cs : Table) (thread : ℕ) (cp : CalloutT) : Table :=
  let i := bucketOf cp.runtime
  cs.setFirst i ((cs.bucket i).first.map fun other => if other = cp then cp.begin thread else other)

/-- `callout_execute` from its outer loop on, up to its end or the start of a handler. -/
def execute (cs : Table) (thread : ℕ) : Option (Option CalloutT × Table) :=
  (cs.seek (cs.rounds + 1)).map fun found =>
    (found.1, match found.1 with
      | some cp => found.2.begin thread cp
      | none => found.2)

/-- `callout_execute` after the handler of the callout `serial` has returned.  The bucket is looked
through for it; there is no result when it is not there.  The local `runtime` goes on behind it. -/
def executed (cs : Table) (thread serial : ℕ) (runtime : ℤ) :
    Option (Option CalloutT × Table) :=
  let i := bucketOf runtime
  match ((cs.bucket i).first.dropWhile fun cp => cp.serial ≠ serial) with
  | [] => none
  | cp :: rest =>
    let cs1 := cs.setFirst i ((cs.bucket i).first.erase cp)
    match rest.find? fun other => other.Due runtime with
    | some other => some (some other, cs1.begin thread other)
    | none =>
      (if cs1.runtime = runtime then
        (addLong runtime 1).map fun runtime => { cs1 with runtime := runtime }
      else some cs1).bind fun cs2 => cs2.execute thread

/-- `callout_save`: the live table once the old one has been copied. -/
def save (cs : Table) : Table :=
  { cs with
    busyticks := 0
    bucket := fun i => { cs.bucket i with first := [] } }

/-- `callout_restore`: the callouts inserted since go in front of the old ones, one by one, and the
old bucket heads replace the live ones. -/
def restore (cs old : Table) : Table :=
  { cs with
    busyticks := cs.busyticks + old.busyticks
    runtime := old.runtime
    bucket := fun i => { old.bucket i with
      first := (cs.bucket i).first.reverse ++ (old.bucket i).first } }

end Table

/-! ### The system -/

/-- A callout table, the clock, and the threads inside `callout_execute`. -/
structure State where
  lbolt : ℤ
  /-- the live table -/
  cs : Table
  /-- the callout whose handler a thread runs, with the local `runtime` of that thread -/
  running : ℕ → Option (ℕ × ℤ)
  /-- the number of insertions so far -/
  next : ℕ
  /-- `old_callout_state`, between checkpoint and resume -/
  saved : Option Table

/-- The steps of the system. -/
inductive Event
  | timeout (delta : ℤ) (driverLock : Bool)
  | untimeout (id : BitVec 32)
  /-- `lbolt` grows by one -/
  | tick
  /-- `callout_schedule` -/
  | schedule
  /-- a thread enters `callout_execute` -/
  | execute (thread : ℕ)
  /-- the handler that a thread runs returns -/
  | done (thread : ℕ)
  /-- `callout_save` -/
  | save
  /-- `callout_restore` -/
  | restore
deriving DecidableEq, Repr

/-- What can be seen of a step. -/
inductive Obs
  /-- a callout was inserted and got an id, at the given `lbolt` and `cs_curtime` -/
  | inserted (serial : ℕ) (id : BitVec 32) (lbolt delta curtime : ℤ)
  /-- its handler was started -/
  | started (serial : ℕ)
  /-- it left the table for the free list -/
  | removed (serial : ℕ)
  /-- `untimeout` returned; `present` are the callouts that had the id then -/
  | untimed (id : BitVec 32) (present : List ℕ) (left : ℤ)
  /-- the table was saved -/
  | saved
  /-- the table was restored; `since` are the callouts inserted since it was saved that were left -/
  | restored (since : List ℕ)
deriving DecidableEq, Repr

namespace State

/-- The state at boot. -/
def init (table : TableId) : State where
  lbolt := 0
  cs := Table.setup table
  running := fun _ => none
  next := 0
  saved := none

/-- A thread starts the handler of a callout, or leaves `callout_execute`. -/
def run (s : State) (thread : ℕ) (runtime : ℤ) (found : Option CalloutT × Table) :
    List Obs × State :=
  match found.1 with
  | some cp =>
    ([.started cp.serial], { s with
      cs := found.2
      running := update s.running thread (some (cp.serial, runtime)) })
  | none =>
    ([], { s with
      cs := found.2
      running := update s.running thread none })

/-- The callouts of the table that have an id. -/
def present (s : State) (id : BitVec 32) : List ℕ :=
  ((s.cs.bucket (bucketOfId id)).first.filter fun cp => cp.id = id).map CalloutT.serial

/-- One step, with what can be seen of it, latest first.  There is none when a signed sum overflows,
when the step is not possible, or when it would not end. -/
def step (s : State) : Event → Option (List Obs × State)
  | .timeout delta driverLock =>
    (s.cs.runtimeAt s.lbolt delta).map fun runtime =>
      let inserted := s.cs.insert s.next runtime driverLock
      ([.inserted s.next inserted.1 s.lbolt delta s.cs.curtime],
        { s with
          cs := inserted.2
          next := s.next + 1 })
  | .untimeout id =>
    let deleted := s.cs.delete id
    some (.untimed id (s.present id) deleted.1 ::
        deleted.2.1.toList.map fun cp => .removed cp.serial,
      { s with cs := deleted.2.2 })
  | .tick => (addLong s.lbolt 1).map fun lbolt => ([], { s with lbolt := lbolt })
  | .schedule => (s.cs.schedule s.lbolt).map fun cs => ([], { s with cs := cs })
  | .execute thread =>
    if s.running thread = none then
      (s.cs.execute thread).map fun found => s.run thread found.2.runtime found
    else none
  | .done thread =>
    (s.running thread).bind fun (serial, runtime) =>
      (s.cs.executed thread serial runtime).map fun found =>
        let after := s.run thread ((found.1.map CalloutT.runtime).getD runtime) found
        (after.1 ++ [.removed serial], after.2)
  | .save =>
    if s.saved = none then
      some ([.saved], { s with
        cs := s.cs.save
        saved := some s.cs })
    else none
  | .restore =>
    s.saved.map fun old => ([.restored (s.cs.callouts.map CalloutT.serial)], { s with
      cs := s.cs.restore old
      saved := none })

end State

/-- The states that steps lead to when each of them meets a condition, with what was seen on the
way, latest first. -/
inductive Run (table : TableId) (meets : State → Event → Prop) : List Obs → State → Prop
  /-- boot -/
  | init : Run table meets [] (State.init table)
  /-- one step more -/
  | step {history seen : List Obs} {s s' : State} (run : Run table meets history s) (event : Event)
      (meet : meets s event) (next : s.step event = some (seen, s')) :
      Run table meets (seen ++ history) s'

end Sol25.Callout
