import Sol25.Flock.ProcGraph

/-!
# The lock graphs

All the lock graphs as one state. A lock descriptor is named by the order in which `flk_get_lock`
hands it out. The adjacency and in lists hold the lock at the other end of each edge. Colours and
the links of the search stacks do not outlive a function, so they are its local variables here; the
flags used by `flk_recompute_dependencies` are kept, since it must find them clear.
-/

namespace Sol25

open Function

namespace Flock

/-- A lock descriptor. -/
abbrev LockId := ℕ

/-- `flk_lockmgr_status_t` -/
inductive LockmgrStatus
  /-- `FLK_LOCKMGR_UP` -/
  | up
  /-- `FLK_WAKEUP_SLEEPERS` -/
  | wakeupSleepers
  /-- `FLK_LOCKMGR_DOWN` -/
  | down
deriving DecidableEq, Repr

/-- The state of the record-lock code between two steps, or inside one. -/
structure State where
  /-- what is locked, for whom and how -/
  lock : LockId → Lock
  /-- adjacency list: the locks this one waits for -/
  adj : LockId → List LockId
  /-- in list: the locks that wait for this one -/
  inn : LockId → List LockId
  /-- `GRANTED_LOCK` -/
  granted : LockId → Bool
  /-- `CANCELLED_LOCK` -/
  cancelled : LockId → Bool
  /-- `INTERRUPTED_LOCK` -/
  interrupted : LockId → Bool
  /-- `RECOMPUTE_LOCK` -/
  recompute : LockId → Bool
  recomputeDone : LockId → Bool
  /-- `BARRIER_LOCK` -/
  barrier : LockId → Bool
  /-- `l_index`, the barrier count -/
  index : LockId → ℤ
  /-- `pvertex`, the slot of the owner's vertex when last looked up -/
  pvertex : LockId → Option ℕ
  /-- `active_locks` of each graph -/
  active : Fin 32 → List LockId
  /-- `sleeping_locks` of each graph -/
  sleeping : Fin 32 → List LockId
  /-- `v_filocks` of each vnode -/
  filocks : ℕ → Option LockId
  /-- `lockmgr_status` of each graph, `none` while `lock_graph` has no entry -/
  status : Fin 32 → Option LockmgrStatus
  pgraph : ProcGraph
  /-- the descriptors handed out so far are those below -/
  next : LockId

namespace State

/-- The state at boot: no lock graph has been made. -/
def init : State where
  lock := fun _ => ⟨0, ⟨0, 0⟩, .unlck, 0, 0, false, false, false⟩
  adj := fun _ => []
  inn := fun _ => []
  granted := fun _ => false
  cancelled := fun _ => false
  interrupted := fun _ => false
  recompute := fun _ => false
  recomputeDone := fun _ => false
  barrier := fun _ => false
  index := fun _ => 0
  pvertex := fun _ => none
  active := fun _ => []
  sleeping := fun _ => []
  filocks := fun _ => none
  status := fun _ => none
  pgraph := .empty
  next := 0

abbrev Blocks (s : State) (lock1 lock2 : LockId) : Prop :=
  Flock.Blocks (s.lock lock1) (s.lock lock2)

abbrev SameOwner (s : State) (lock1 lock2 : LockId) : Prop :=
  Flock.SameOwner (s.lock lock1) (s.lock lock2)

abbrev Covers (s : State) (lock1 lock2 : LockId) : Prop :=
  Flock.Covers (s.lock lock1) (s.lock lock2)

/-- `flk_get_lock`, with the descriptor filled in by the caller. -/
def getLock (s : State) (desc : Lock) (pvertex : Option ℕ) : LockId × State :=
  (s.next, { s with
    lock := update s.lock s.next desc
    adj := update s.adj s.next []
    inn := update s.inn s.next []
    granted := update s.granted s.next false
    cancelled := update s.cancelled s.next false
    interrupted := update s.interrupted s.next false
    recompute := update s.recompute s.next false
    recomputeDone := update s.recomputeDone s.next false
    barrier := update s.barrier s.next false
    index := update s.index s.next 0
    pvertex := update s.pvertex s.next pvertex
    next := s.next + 1 })

/-! ### The process graph -/

/-- `flk_get_proc_vertex` -/
def getProcVertex (s : State) (lock : LockId) : ℕ × State :=
  let found := s.pgraph.getProcVertex (s.pvertex lock) (s.lock lock).owner
  (found.1, { s with
    pgraph := found.2
    pvertex := update s.pvertex lock (some found.1) })

/-- `flk_update_proc_graph` with `delete` 0, for the edge from `source` to `target` -/
def addProcEdge (s : State) (source target : LockId) : State :=
  let toproc := s.getProcVertex target
  let fromproc := toproc.2.getProcVertex source
  { fromproc.2 with pgraph := fromproc.2.pgraph.addRef fromproc.1 toproc.1 }

/-- `flk_update_proc_graph` with `delete` 1 -/
def dropProcEdge (s : State) (source target : LockId) : State :=
  let toproc := s.getProcVertex target
  let fromproc := toproc.2.getProcVertex source
  { fromproc.2 with
    pgraph := (fromproc.2.pgraph.dropRef fromproc.1 toproc.1 toproc.1).procRelease fromproc.1 }

/-! ### Edges between locks -/

/-- A new edge, in front of both lists. -/
def linkEdge (s : State) (source target : LockId) : State :=
  { s with
    adj := update s.adj source (target :: s.adj source)
    inn := update s.inn target (source :: s.inn target) }

def adjListRemove (s : State) (source target : LockId) : State :=
  { s with adj := update s.adj source ((s.adj source).erase target) }

def inListRemove (s : State) (source target : LockId) : State :=
  { s with inn := update s.inn target ((s.inn target).erase source) }

/-- Take the edges from `sources` to `target` out of the adjacency lists. -/
def detach (target : LockId) : List LockId → State → State
  | [], s => s
  | source :: rest, s => detach target rest (s.adjListRemove source target)

/-- Free the edges from `source` to `targets`, without a word to the process graph. -/
def unlinkAll (source : LockId) : List LockId → State → State
  | [], s => s
  | target :: rest, s =>
    unlinkAll source rest ((s.inListRemove source target).adjListRemove source target)

def grantWakeup (s : State) (lock : LockId) : State :=
  { s with granted := update s.granted lock true }

/-- One round of `flk_wakeup` for the edge from `source`. -/
def wakeupOne (s : State) (lock : LockId) (adjRemove : Bool) (source : LockId) : State :=
  let s1 := if adjRemove then s.adjListRemove source lock else s
  let s2 := s1.dropProcEdge source lock
  let s3 := if s2.adj source = [] ∧ s2.granted source = false then s2.grantWakeup source else s2
  s3.inListRemove source lock

/-- `flk_wakeup` -/
def wakeup (s : State) (lock : LockId) (adjRemove : Bool) : State :=
  (s.inn lock).foldl (fun s source => s.wakeupOne lock adjRemove source) s

/-! ### Recomputing dependencies -/

/-- `flk_color_reachables`: the vertices coloured by it, and how many of them are to be recomputed
against. -/
def colorReachables (s : State) (vertex : LockId) (colored : List LockId) : ℕ × List LockId :=
  let new := Graph.newly s.adj s.next vertex colored
  (new.countP s.recompute, new ++ colored)

/-- What `flk_find_barriers` does at the source of each edge it follows. -/
def markBarriers : List LockId → List LockId → Bool → State → Bool × State
  | [], _, found, s => (found, s)
  | lck :: rest, colored, found, s =>
    if lck ∈ colored then
      markBarriers rest colored true { s with
        barrier := update s.barrier lck true
        index := update s.index lck (s.index lck + 1) }
    else
      markBarriers rest (lck :: colored) found { s with index := update s.index lck 0 }

/-- `flk_find_barriers` -/
def findBarriers (s : State) (lock : LockId) : Bool × State :=
  markBarriers ((Graph.visits s.inn (s.next + 1) [lock] []).flatMap s.inn) [] false s

/-- Count one path less to a barrier lock. -/
def lowerBarrier (s : State) (lck : LockId) : State :=
  { s with
    index := update s.index lck (s.index lck - 1)
    barrier := if s.index lck - 1 = 0 then update s.barrier lck false else s.barrier }

/-- `flk_update_barriers` -/
def updateBarriers (s : State) (lock : LockId) : State :=
  ((Graph.visits s.inn (s.next + 1) [lock] []).flatMap s.inn).foldl
    (fun s lck => if s.barrier lck then s.lowerBarrier lck else s) s

/-- The edge that `flk_add_edge` makes for `flk_recompute_dependencies`. -/
def addRecomputed (s : State) (vertex lock : LockId) (updateGraph : Bool) : State :=
  if updateGraph then (s.linkEdge vertex lock).addProcEdge vertex lock else s.linkEdge vertex lock

/-- The inner loop: `vertex` gets an edge to each lock of the topology that blocks it and that it
has no path to. Counts the locks of the topology it has a path to. -/
def dependOn (vertex : LockId) (updateGraph : Bool) :
    List LockId → ℕ → List LockId → State → ℕ × State
  | [], count, _, s => (count, s)
  | lock :: rest, count, colored, s =>
    if lock ∈ colored then dependOn vertex updateGraph rest count colored s
    else if s.Blocks lock vertex then
      let s1 := s.addRecomputed vertex lock updateGraph
      let reached := s1.colorReachables lock (lock :: colored)
      dependOn vertex updateGraph rest (count + 1 + reached.1) reached.2 s1
    else dependOn vertex updateGraph rest count colored s

/-- The loop of `flk_recompute_dependencies`. The stack holds each vertex with its `l_sedge`, the in
edges still to follow. -/
def recomputeLoop (topology : List LockId) (updateGraph barrierFound : Bool) :
    ℕ → List (LockId × List LockId) → State → State
  | 0, _, s => s
  | _ + 1, [], s => s
  | fuel + 1, (vertex, sedge) :: stack, s =>
    if s.recomputeDone vertex = false ∧ s.barrier vertex = true ∧ s.index vertex ≠ 0 then
      recomputeLoop topology updateGraph barrierFound fuel stack (s.lowerBarrier vertex)
    else
      let processed : ℕ × State :=
        if s.recomputeDone vertex then (0, s)
        else
          let s1 := { s with recomputeDone := update s.recomputeDone vertex true }
          let reached := s1.colorReachables vertex []
          dependOn vertex updateGraph topology reached.1 reached.2 s1
      match sedge with
      | [] =>
        recomputeLoop topology updateGraph barrierFound fuel stack { processed.2 with
          recomputeDone := update processed.2.recomputeDone vertex false }
      | source :: later =>
        if processed.1 = topology.length then
          let s2 := { processed.2 with
            recomputeDone := update processed.2.recomputeDone vertex false }
          recomputeLoop topology updateGraph barrierFound fuel stack
            (if barrierFound then s2.updateBarriers vertex else s2)
        else
          recomputeLoop topology updateGraph barrierFound fuel
            ((source, processed.2.inn source) :: (vertex, later) :: stack) processed.2

/-- `flk_recompute_dependencies` -/
def recomputeDependencies (s : State) (request : LockId) (topology : List LockId)
    (updateGraph : Bool) : State :=
  if topology = [] then s
  else
    let barriers := s.findBarriers request
    let s1 := { barriers.2 with
      recomputeDone := update barriers.2.recomputeDone request true }
    recomputeLoop topology updateGraph barriers.1
      (2 * (∑ lock ∈ Finset.range s.next, (s.inn lock).length) + 2) [(request, s1.inn request)] s1

/-! ### The active and the sleeping lists -/

/-- The locks from `SET_LOCK_TO_FIRST_ACTIVE_VP` on, while they are of the vnode. -/
def activeOf (s : State) (vp : ℕ) : List LockId :=
  match s.filocks vp with
  | none => []
  | some first =>
    ((s.active (hashIndex vp)).dropWhile (· ≠ first)).takeWhile fun lock => (s.lock lock).vnode = vp

/-- The locks from `SET_LOCK_TO_FIRST_SLEEP_VP` on, while they are of the vnode. -/
def sleepingOf (s : State) (vp : ℕ) : List LockId :=
  ((s.sleeping (hashIndex vp)).dropWhile fun lock => (s.lock lock).vnode ≠ vp).takeWhile fun lock =>
    (s.lock lock).vnode = vp

/-- `l_next` on the active list, `none` at its end. -/
def nextActive (s : State) (lock : LockId) : Option LockId :=
  ((s.active (hashIndex (s.lock lock).vnode)).dropWhile (· ≠ lock)).tail.head?

/-- `flk_insert_active_lock` -/
def insertActiveLock (s : State) (new : LockId) : State :=
  let vp := (s.lock new).vnode
  let list := s.active (hashIndex vp)
  match s.filocks vp with
  | none =>
    { s with
      active := update s.active (hashIndex vp) (list ++ [new])
      filocks := update s.filocks vp (some new) }
  | some first =>
    let behind := list.dropWhile (· ≠ first)
    let smaller := fun lock =>
      decide ((s.lock lock).vnode = vp ∧ (s.lock lock).start < (s.lock new).start)
    { s with
      active := update s.active (hashIndex vp)
        (list.takeWhile (· ≠ first) ++
          (behind.takeWhile smaller ++ new :: behind.dropWhile smaller))
      filocks :=
        if (s.lock new).start ≤ (s.lock first).start then update s.filocks vp (some new)
        else s.filocks }

/-- `flk_delete_active_lock` without freeing the lock -/
def deleteActiveLock (s : State) (lock : LockId) : State :=
  let vp := (s.lock lock).vnode
  { s with
    active := update s.active (hashIndex vp) ((s.active (hashIndex vp)).erase lock)
    filocks :=
      if s.filocks vp = some lock then
        update s.filocks vp
          ((s.nextActive lock).filter fun next => (s.lock next).vnode = vp)
      else s.filocks }

/-- `flk_insert_sleeping_lock` -/
def insertSleepingLock (s : State) (request : LockId) : State :=
  let vp := (s.lock request).vnode
  let list := s.sleeping (hashIndex vp)
  let smaller := fun lock => decide ((s.lock lock).vnode < vp)
  { s with
    sleeping := update s.sleeping (hashIndex vp)
      (list.takeWhile smaller ++ request :: list.dropWhile smaller) }

def removeSleepQueue (s : State) (request : LockId) : State :=
  let i := hashIndex (s.lock request).vnode
  { s with sleeping := update s.sleeping i ((s.sleeping i).erase request) }

end State

end Flock

end Sol25
