import Sol25.Flock.State

/-!
# Processing lock requests

`flk_relation`, `flk_execute_request`, `flk_process_request`, `flk_wait_execute_request`,
`flk_cancel_sleeping_lock` and what `reclock` does around them, each as a function on the state.
-/

namespace Sol25

open Function

namespace Flock

/-! ### The ranges in `flk_relation` -/

inductive Effect
  | unlock
  | downgrade
  | upgrade
  | staySame
deriving DecidableEq, Repr

def lockEffect (lock request : Lock) : Effect :=
  if request.type = .unlck then .unlock
  else if request.type = .rdlck ∧ lock.type = .wrlck then .downgrade
  else if request.type = .wrlck ∧ lock.type = .rdlck then .upgrade
  else .staySame

/-- What `flk_relation` decides from the two ranges. -/
inductive Relation
  /-- nothing to do; does the search end here? -/
  | apart (done : Bool)
  /-- the request unlocks exactly this lock -/
  | release
  /-- the lock goes: the request takes the given range, the pieces stay locked as the lock was -/
  | rebuild (start stop : UOff) (pieces : List (UOff × UOff))
deriving DecidableEq, Repr

/-- The comparison of the two ranges in `flk_relation`. -/
def relation (lock request : Lock) : Relation :=
  let effect := lockEffect lock request
  if lock.stop < request.start then
    if lock.stop = request.start - 1 ∧ effect = .staySame then
      .rebuild lock.start request.stop []
    else .apart false
  else if request.stop < lock.start then
    if request.stop = lock.start - 1 ∧ effect = .staySame then
      .rebuild request.start lock.stop []
    else .apart true
  else if request.stop < lock.stop then
    if lock.start < request.start then
      if effect = .staySame then .rebuild lock.start lock.stop []
      else .rebuild request.start request.stop
        [(lock.start, request.start - 1), (request.stop + 1, lock.stop)]
    else if request.start < lock.start then
      if effect = .staySame then .rebuild request.start lock.stop []
      else .rebuild request.start request.stop [(request.stop + 1, lock.stop)]
    else
      if effect = .staySame then .rebuild lock.start lock.stop []
      else .rebuild request.start request.stop [(request.stop + 1, lock.stop)]
  else if lock.stop < request.stop then
    if lock.start < request.start then
      if effect = .staySame then .rebuild lock.start request.stop []
      else .rebuild request.start request.stop [(lock.start, request.start - 1)]
    else .rebuild request.start request.stop []
  else
    if lock.start < request.start then
      if effect = .staySame then .rebuild lock.start request.stop []
      else .rebuild request.start request.stop [(lock.start, request.start - 1)]
    else if request.start < lock.start then .rebuild request.start request.stop []
    else if effect ≠ .unlock then .rebuild request.start request.stop []
    else .release

/-- What a call answers: done, an error, or the caller is asleep. -/
inductive Answer
  /-- returned 0 -/
  | ok
  /-- returned an error -/
  | error (errno : Errno)
  /-- waits on `l_cv` -/
  | asleep
deriving DecidableEq, Repr

/-- What the first look at the active locks finds. -/
inductive ActiveScan
  /-- a lock that blocks the request -/
  | blocked
  /-- a lock of the same owner that covers a read request -/
  | covered
  /-- neither -/
  | clear
deriving DecidableEq, Repr

namespace State

/-- Set or clear `RECOMPUTE_LOCK` in the locks of a topology. -/
def setRecompute (value : Bool) : List LockId → State → State
  | [], s => s
  | lock :: rest, s => setRecompute value rest { s with recompute := update s.recompute lock value }

/-- New descriptors for the pieces of `lock`, copied from it. -/
def copyPieces (lock : LockId) : List (UOff × UOff) → State → List LockId × State
  | [], s => ([], s)
  | (start, stop) :: rest, s =>
    let new := s.getLock
      { s.lock lock with
        start := start
        stop := stop
        io := false
        willing := false
        lockmgr := false } (s.pvertex lock)
    let others := copyPieces lock rest new.2
    (new.1 :: others.1, others.2)

/-- Free the edges that lead to `lock` and are out of the adjacency lists already. -/
def freeInEdges (lock : LockId) : List LockId → State → State
  | [], s => s
  | source :: rest, s =>
    freeInEdges lock rest ((s.inListRemove source lock).dropProcEdge source lock)

/-- `flk_relation`: the relation of the request to an active lock of the same owner. -/
def flkRelation (s : State) (lock request : LockId) : Bool × State :=
  match relation (s.lock lock) (s.lock request) with
  | .apart done => (done, s)
  | .release => (true, (s.deleteActiveLock lock).wakeup lock true)
  | .rebuild start stop pieces =>
    let effect := lockEffect (s.lock lock) (s.lock request)
    let s1 := { s with
      lock := update s.lock request { s.lock request with start := start, stop := stop } }
    let copied := s1.copyPieces lock pieces
    let topology := if effect = .unlock then copied.1 else copied.1 ++ [request]
    let s2 := setRecompute true topology copied.2
    let s3 := (s2.detach lock (s2.inn lock)).deleteActiveLock lock
    let s4 := setRecompute false topology (s3.recomputeDependencies lock topology true)
    let s5 := copied.1.foldl insertActiveLock s4
    (false, if effect = .downgrade ∨ effect = .unlock then s5.wakeup lock false
      else s5.freeInEdges lock (s5.inn lock))

/-- The loop of `flk_execute_request` over the active locks of the vnode. The next lock is read off
before the current one is dealt with. -/
def executeLoop (request : LockId) : ℕ → LockId → State → State
  | 0, _, s => s
  | fuel + 1, lock, s =>
    let lock1 := s.nextActive lock
    let related := if s.SameOwner request lock then s.flkRelation lock request else (false, s)
    match lock1.filter fun l => decide ((related.2.lock l).vnode = (s.lock request).vnode) with
    | some l => if related.1 then related.2 else executeLoop request fuel l related.2
    | none => related.2

/-- `flk_execute_request` -/
def executeRequest (s : State) (request : LockId) : State :=
  if (s.lock request).io then s
  else
    match s.filocks (s.lock request).vnode with
    | none => if (s.lock request).type = .unlck then s else s.insertActiveLock request
    | some first =>
      let s1 := executeLoop request
        ((s.active (hashIndex (s.lock request).vnode)).length + 1) first s
      if (s.lock request).type = .unlck then s1 else s1.insertActiveLock request

/-! ### Cancelling a sleeping lock -/

/-- `l_index` of the locks of a topology -/
def numberTopology : List LockId → ℕ → State → State
  | [], _, s => s
  | lock :: rest, n, s => numberTopology rest (n + 1) { s with index := update s.index lock n }

/-- Free the edges that lead away from `request`. -/
def freeAdjEdges (request : LockId) : List LockId → State → State
  | [], s => s
  | target :: rest, s =>
    freeAdjEdges request rest
      (((s.inListRemove request target).adjListRemove request target).dropProcEdge request target)

/-- `flk_cancel_sleeping_lock` with `remove_from_queue` 1 -/
def cancelSleepingLock (s : State) (request : LockId) : State :=
  let vp := (s.lock request).vnode
  let reached := Graph.newly s.adj s.next request ((List.range s.next).filter s.recompute)
  let s1 := setRecompute true reached s
  let topology := (s1.sleepingOf vp).filter s1.recompute ++ (s1.activeOf vp).filter s1.recompute
  let s2 := s1.numberTopology topology 0
  let s3 := (s2.detach request (s2.inn request)).removeSleepQueue request
  let s4 := s3.recomputeDependencies request topology true
  let s5 := setRecompute false topology (s4.freeAdjEdges request (s4.adj request))
  s5.wakeup request false

/-! ### Deadlock -/

/-- Count the edges from `lock` to `targets` in the process graph. -/
def recordOut (lock : LockId) (startVertex : ℕ) : List LockId → State → State
  | [], s => s
  | target :: rest, s =>
    let adjProc := s.getProcVertex target
    recordOut lock startVertex rest
      { adjProc.2 with pgraph := adjProc.2.pgraph.addRef startVertex adjProc.1 }

/-- Count the edges from `sources` to `lock` in the process graph. -/
def recordIn (lock : LockId) (startVertex : ℕ) : List LockId → State → State
  | [], s => s
  | source :: rest, s =>
    let inProc := s.getProcVertex source
    recordIn lock startVertex rest
      { inProc.2 with pgraph := inProc.2.pgraph.addRef inProc.1 startVertex }

/-- Remove the edges from `lock` to `targets` and what they count for. -/
def retractOut (lock : LockId) (startVertex : ℕ) : List LockId → State → State
  | [], s => s
  | target :: rest, s =>
    let adjProc := s.getProcVertex target
    let s1 := (adjProc.2.inListRemove lock target).adjListRemove lock target
    retractOut lock startVertex rest
      { s1 with pgraph := s1.pgraph.dropRef startVertex adjProc.1 adjProc.1 }

/-- Remove the edges from `sources` to `lock` and what they count for. -/
def retractIn (lock : LockId) (startVertex : ℕ) : List LockId → State → State
  | [], s => s
  | source :: rest, s =>
    let inProc := s.getProcVertex source
    let s1 := (inProc.2.inListRemove source lock).adjListRemove source lock
    retractIn lock startVertex rest
      { s1 with pgraph := s1.pgraph.dropRef inProc.1 startVertex inProc.1 }

/-- `flk_check_deadlock` -/
def checkDeadlock (s : State) (lock : LockId) : Bool × State :=
  let start := s.getProcVertex lock
  let s1 := recordIn lock start.1 (start.2.inn lock)
    (recordOut lock start.1 (start.2.adj lock) start.2)
  if (s1.pgraph.vertex start.1).any (fun v => v.incount = 0) then (false, s1)
  else if s1.pgraph.findCycle start.1 then
    let s2 := retractOut lock start.1 (s1.adj lock) s1
    let s3 := retractIn lock start.1 (s2.inn lock) s2
    (true, { s3 with pgraph := s3.pgraph.procRelease start.1 })
  else (false, s1)

/-- `flk_add_edge` for a new request, with `update_graph` 0. The colours are those the caller keeps.
Returns whether a deadlock was found. -/
def addEdge (s : State) (request lock : LockId) (checkCycle : Bool) (colored : List LockId) :
    Bool × List LockId × State :=
  if lock ∈ colored then (false, colored, s)
  else
    let s1 := s.linkEdge request lock
    if checkCycle then
      let new := Graph.newly s1.adj s1.next request colored
      if new.any fun vertex => s1.SameOwner vertex request then
        (true, new ++ colored, s1.unlinkAll request (s1.adj request))
      else (false, new ++ colored, s1)
    else (false, colored, s1)

/-! ### Processing a request -/

/-- The first loop of `flk_process_request`. -/
def scanActive (s : State) (request : LockId) : List LockId → ActiveScan
  | [] => .clear
  | lock :: rest =>
    if s.Blocks lock request then .blocked
    else if s.SameOwner lock request ∧ s.Covers lock request ∧ (s.lock request).type = .rdlck then
      .covered
    else scanActive s request rest

/-- The progress of the loops that add the edges of a blocked request. -/
structure Edges where
  /-- `covered_by`: the last sleeping write lock found that covers the request;
  `found_covering_lock` is 0 as long as there is none -/
  coveredBy : Option LockId
  /-- `found_covering_lock` is 2: a covering lock of a second owner was found -/
  second : Bool
  /-- the coloured locks -/
  colored : List LockId
  /-- the state so far -/
  state : State

/-- A covering lock has been found, and `lock` has another owner. -/
def Edges.Elsewhere (e : Edges) (lock : LockId) : Prop :=
  ∃ c ∈ e.coveredBy, ¬ e.state.SameOwner lock c

instance (e : Edges) (lock : LockId) : Decidable (e.Elsewhere lock) :=
  match h : e.coveredBy with
  | none => isFalse (by rintro ⟨c, mem, -⟩; rw [h] at mem; exact absurd mem (by simp))
  | some c => decidable_of_iff (¬ e.state.SameOwner lock c) (by simp [Edges.Elsewhere, h])

/-- `flk_add_edge` on the progress so far; an error carries the state without the edges. -/
def Edges.add (e : Edges) (request lock : LockId) (checkCycle : Bool) : Except State Edges :=
  let added := e.state.addEdge request lock checkCycle e.colored
  if added.1 then .error added.2.2
  else .ok { e with
    colored := added.2.1
    state := added.2.2 }

/-- The loop over the sleeping locks of the vnode that adds the edges of a blocked request. -/
def sleepingEdges (request : LockId) : List LockId → Edges → Except State Edges
  | [], e => .ok e
  | lock :: rest, e =>
    if e.state.Blocks lock request then
      if e.state.Covers lock request ∧ (e.state.lock lock).type = .wrlck then
        if e.Elsewhere lock then .ok { e with second := true }
        else (Edges.add { e with coveredBy := some lock } request lock false).bind
          (sleepingEdges request rest)
      else if e.Elsewhere lock then sleepingEdges request rest e
      else (e.add request lock e.coveredBy.isNone).bind (sleepingEdges request rest)
    else sleepingEdges request rest e

/-- The loop over the active locks that follows it. -/
def activeEdges (request : LockId) : List LockId → Edges → Except State Edges
  | [], e => .ok e
  | lock :: rest, e =>
    if e.state.Blocks lock request ∧ ¬ e.Elsewhere lock then
      (e.add request lock true).bind (activeEdges request rest)
    else activeEdges request rest e

/-- `flk_wait_execute_request` up to the point where the caller sleeps. -/
def waitRequest (s : State) (request : LockId) : Answer × State :=
  let s1 := s.insertSleepingLock request
  if s1.status (hashIndex (s1.lock request).vnode) ≠ some .up ∧ (s1.lock request).lockmgr then
    (.error .enolck, s1.cancelSleepingLock request)
  else (.asleep, s1)

/-- The part of `flk_process_request` from the label `block` on. -/
def blockRequest (s : State) (request : LockId) (blockedByActive : Bool) : Answer × State :=
  let vp := (s.lock request).vnode
  if (s.lock request).willing then
    match (sleepingEdges request (s.sleepingOf vp) ⟨none, false, [], s⟩).bind fun e =>
        if blockedByActive ∧ ¬ e.second then activeEdges request (e.state.activeOf vp) e
        else .ok e with
    | .error s1 => (.error .edeadlk, s1)
    | .ok e =>
      if e.state.adj request = [] ∧ e.state.granted request = false then
        (.ok, e.state.executeRequest request)
      else
        let checked := e.state.checkDeadlock request
        if checked.1 then (.error .edeadlk, checked.2) else checked.2.waitRequest request
  else if (s.sleepingOf vp).any (fun lock => s.Blocks lock request) then (.error .eagain, s)
  else (.ok, s.executeRequest request)

/-- Make the dependents of the given locks depend on a request that is about to be granted. -/
def recomputeAgainst (request : LockId) : List LockId → State → State
  | [], s => s
  | lock :: rest, s => recomputeAgainst request rest (s.recomputeDependencies lock [request] false)

/-- The part of `flk_process_request` for a request that no active and no granted lock blocks. -/
def grantRequest (s : State) (request : LockId) : Answer × State :=
  let vp := (s.lock request).vnode
  let s1 := { s with recompute := update s.recompute request true }
  let s2 := recomputeAgainst request
    (s1.activeOf vp ++ (s1.sleepingOf vp).reverse.filter s1.granted) s1
  let s3 := { s2 with recompute := update s2.recompute request false }
  if s3.inn request = [] then (.ok, s3.executeRequest request)
  else
    let checked := s3.checkDeadlock request
    if checked.1 then (.error .edeadlk, checked.2) else (.ok, checked.2.executeRequest request)

/-- `flk_process_request` -/
def processRequest (s : State) (request : LockId) : Answer × State :=
  let vp := (s.lock request).vnode
  match s.scanActive request (s.activeOf vp) with
  | .blocked =>
    if (s.lock request).willing then s.blockRequest request true else (.error .eagain, s)
  | .covered => (.ok, s.executeRequest request)
  | .clear =>
    if (s.sleepingOf vp).any (fun lock => s.Blocks lock request ∧ s.granted lock) then
      s.blockRequest request false
    else s.grantRequest request

end State

end Flock

end Sol25
