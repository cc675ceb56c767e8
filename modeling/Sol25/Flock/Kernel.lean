import Sol25.Flock.Request

/-!
# The entry point

`reclock` up to its end or the point where the caller sleeps, with the conversion and the check of
the range it is given. It runs while the mutex of one graph is held, and is one step of the system.
-/

namespace Sol25

namespace Flock

/-- `flock_t`: a lock request as a caller writes it. Offsets are 32-bit words, signed in
`l_start` and `l_len`. -/
structure FlockT where
  /-- `l_type` -/
  type : LockType
  /-- `l_whence` -/
  whence : ℤ
  /-- `l_start` -/
  start : UOff
  /-- `l_len`, 0 for up to the end of the file -/
  len : UOff
  /-- `l_sysid` and `l_pid` -/
  owner : Owner
deriving DecidableEq, Repr

/-- The command bits of `reclock`. -/
structure Cmd where
  /-- `INOFLCK` -/
  io : Bool
  /-- `SETFLCK` -/
  set : Bool
  /-- `SLPFLCK` -/
  sleep : Bool
  /-- `RCMDLCK` -/
  remote : Bool
deriving DecidableEq, Repr

/-- The file flags `FREAD` and `FWRITE`. -/
structure Access where
  /-- `FREAD` -/
  read : Bool
  /-- `FWRITE` -/
  write : Bool
deriving DecidableEq, Repr

/-- `flk_convert_lock_data`; `size` is what `VOP_GETATTR` answers. -/
def convertLockData (flp : FlockT) (size : Except Errno UOff) (offset : UOff) :
    Except Errno (UOff × UOff) := do
  let start ←
    if flp.whence = 0 then .ok flp.start
    else if flp.whence = 1 then .ok (flp.start + offset)
    else if flp.whence = 2 then size.map (flp.start + ·)
    else .error .einval
  if flp.len = 0 then .ok (start, maxUOffT)
  else if 0 < flp.len.toInt then .ok (start, start + flp.len - 1)
  else .ok (start + flp.len + 1, start)

/-- `flk_check_lock_data` -/
def checkLockData (start stop : UOff) : Except Errno Unit :=
  if maxEnd < start ∨ maxEnd < stop ∧ stop ≠ maxUOffT then .error .einval
  else if stop < start then .error .einval
  else .ok ()

/-- The canonical range of a request in `reclock`. -/
def requestRange (flp : FlockT) (cmd : Cmd) (size : Except Errno UOff) (offset : UOff) :
    Except Errno (UOff × UOff) :=
  if cmd.remote then
    .ok (flp.start, if flp.len = 0 then maxUOffT else flp.start + flp.len - 1)
  else do
    let range ← convertLockData flp size offset
    checkLockData range.1 range.2
    return range

/-- `report_blocker`: the answer to a query that `blocker` is in the way of. -/
def reportBlocker (blocker request : Lock) : FlockT where
  whence := 0
  type := blocker.type
  owner := blocker.owner
  start := if ¬ request.lockmgr ∧ maxEnd < blocker.start then maxEnd else blocker.start
  len :=
    if request.lockmgr then
      if blocker.stop = maxUOffT then 0 else blocker.stop - blocker.start + 1
    else if maxEnd < blocker.start then 0
    else if maxEnd ≤ blocker.stop then 0
    else blocker.stop - blocker.start + 1

namespace State

/-- `flk_get_first_blocking_lock`: the lock that is mainly responsible for blocking a request. -/
def firstBlockingLock (s : State) (request : Lock) : Option LockId :=
  ((s.activeOf request.vnode).find? fun lock => Flock.Blocks (s.lock lock) request).or
    ((s.sleepingOf request.vnode).find? fun lock => Flock.Blocks (s.lock lock) request)

/-- The answer of `flk_get_first_blocking_lock` in `l_flock`. -/
def queryLock (s : State) (request : Lock) (flock : FlockT) : FlockT :=
  match s.firstBlockingLock request with
  | some blocker => reportBlocker (s.lock blocker) request
  | none => { flock with type := .unlck }

/-- `flk_canceled`: is there a sleeping lock of just this range to be cancelled? -/
def canceled (s : State) (request : LockId) : Option State :=
  ((s.sleepingOf (s.lock request).vnode).find? fun lock => s.SameOwner lock request ∧
    (s.lock lock).start = (s.lock request).start ∧ (s.lock lock).stop = (s.lock request).stop).map
      fun lock => { s with interrupted := Function.update s.interrupted lock true }

/-- What `reclock` does with an `IO_LOCK` after its request was answered. -/
def finishIo (s : State) (request : LockId) : State :=
  if (s.lock request).io then s.wakeup request true else s

/-- Create the graph of a vnode if there is none; `seen` is the lock manager's status read then. -/
def createGraph (s : State) (vp : ℕ) (seen : LockmgrStatus) : State :=
  if s.status (hashIndex vp) = none then
    { s with status := Function.update s.status (hashIndex vp) (some seen) }
  else s

/-- `reclock` up to its end or the point where the caller sleeps. `seen` is the status of the lock
manager read before the graph's mutex was taken. There is no answer when the assertion on the range
fails. -/
def reclock (s : State) (vp : ℕ) (lckdat : FlockT) (cmd : Cmd) (flag : Access)
    (size : Except Errno UOff) (offset : UOff) (seen : LockmgrStatus) :
    Option (Answer × FlockT × State) :=
  if cmd.set ∧ (lckdat.type = .rdlck ∧ ¬ flag.read ∨ lckdat.type = .wrlck ∧ ¬ flag.write) then
    some (.error .ebadf, lckdat, s)
  else
    match requestRange lckdat cmd size offset with
    | .error errno => some (.error errno, lckdat, s)
    | .ok range =>
      let desc : Lock :=
        { vnode := vp
          owner := lckdat.owner
          type := lckdat.type
          start := range.1
          stop := range.2
          io := cmd.io
          willing := cmd.sleep
          lockmgr := cmd.remote }
      if ¬ desc.Nonempty then none
      else if seen ≠ .up ∧ cmd.remote then some (.error .enolck, lckdat, s)
      else
        let s1 := s.createGraph vp seen
        let new := s1.getLock desc none
        match lckdat.type with
        | .rdlck | .wrlck =>
          if ¬ cmd.set ∧ ¬ cmd.io then some (.ok, s1.queryLock desc lckdat, s1)
          else
            let answered := new.2.processRequest new.1
            if answered.1 = .ok ∧ cmd.io then
              some (.ok, { lckdat with type := .unlck }, answered.2.finishIo new.1)
            else some (answered.1, lckdat, answered.2)
        | .unlck =>
          let s2 := if cmd.remote then (new.2.canceled new.1).getD (new.2.executeRequest new.1)
            else new.2.executeRequest new.1
          some (.ok, lckdat, s2.finishIo new.1)
        | .unlksys => some (.ok, lckdat, s1)
        | .other => some (.error .einval, lckdat, s1)

end State

end Flock

end Sol25
