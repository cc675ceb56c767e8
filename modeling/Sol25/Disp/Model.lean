import Sol25.Data.Bitmap

/-!
# Dispatch queues

The dispatcher, `disp/disp.c`, on a multiprocessor: the queues of the processors and the one for
kernel preemption, and the routines that put threads on them and take threads off.  Each routine
runs under the lock of its queue.  A panic, a null pointer and an index beyond an array are `none`;
a search of a list has the count of the list for fuel.
-/

namespace Sol25.Disp

/-- A dispatch queue: `disp_kp_queue`, or the `cpu_disp` of a processor. -/
inductive QueueId
  | kp
  | cpu (c : ℕ)
  deriving DecidableEq, Repr

inductive TState
  | free
  | sleep
  | run
  | onproc
  | zomb
  | stopped
  deriving DecidableEq, Repr

/-- The lock that `t_lockp` points to. -/
inductive LockRef
  | queue (q : QueueId)
  | transition
  | swapped
  | other
  deriving DecidableEq, Repr

/-- The part of a thread that the dispatcher uses; `pri` is its `DISP_PRIO`. -/
structure Thread where
  state : TState
  lockp : LockRef
  dispQueue : QueueId
  link : Option ℕ
  boundCpu : Option ℕ
  cpu : ℕ
  pri : ℕ
  /-- `TS_LOAD`. -/
  load : Bool
  /-- `TS_ON_SWAPQ`. -/
  onSwapq : Bool
  deriving DecidableEq, Repr

/-- `dispq_t`. -/
structure Dispq where
  first : Option ℕ
  last : Option ℕ
  sruncnt : ℕ
  deriving DecidableEq, Repr

structure DispT where
  npri : ℕ
  q : List Dispq
  qactmap : List (BitVec 32)
  maxrunpri : ℤ
  maxUnboundPri : ℤ
  nrunnable : ℕ
  deriving DecidableEq, Repr

/-- All threads and queues. -/
structure State where
  thread : ℕ → Thread
  disp : QueueId → DispT

/-- What does not change. -/
structure Config where
  ncpus : ℕ
  kpreemptpri : ℕ
  qMatchPri : ℕ
  /-- `cpu_next_onln`. -/
  nextOnln : ℕ → ℕ

def Thread.loaded (th : Thread) : Bool := th.load && !th.onSwapq

def State.setThread (s : State) (t : ℕ) (th : Thread) : State :=
  { s with thread := Function.update s.thread t th }

def State.setDisp (s : State) (q : QueueId) (d : DispT) : State :=
  { s with disp := Function.update s.disp q d }

/-! ### Bitmaps -/

def highbit (i : BitVec 32) : ℕ :=
  if i = 0 then 0
  else
    let h := 1
    let (h, i) := if i &&& 0xffff0000 ≠ 0 then (h + 16, i >>> 16) else (h, i)
    let (h, i) := if i &&& 0xff00 ≠ 0 then (h + 8, i >>> 8) else (h, i)
    let (h, i) := if i &&& 0xf0 ≠ 0 then (h + 4, i >>> 4) else (h, i)
    let (h, i) := if i &&& 0xc ≠ 0 then (h + 2, i >>> 2) else (h, i)
    if i &&& 0x2 ≠ 0 then h + 1 else h

def btGethighbit (mapp : List (BitVec 32)) : ℕ → ℤ
  | 0 => if wordAt mapp 0 = 0 then -1 else (highbit (wordAt mapp 0) - 1 : ℕ)
  | wx + 1 =>
    if wordAt mapp (wx + 1) = 0 then btGethighbit mapp wx
    else ((wx + 1) <<< 5 ||| (highbit (wordAt mapp (wx + 1)) - 1) : ℕ)

def btSet (map : List (BitVec 32)) (i : ℕ) : List (BitVec 32) :=
  map.modify (i / 32) (· ||| 1#32 <<< (i % 32))

/-- The statement that turns a bit off. -/
def btOff (map : List (BitVec 32)) (i : ℕ) : List (BitVec 32) :=
  map.modify (i / 32) (· &&& ~~~ (1#32 <<< (i % 32)))

/-! ### Putting threads on queues -/

def dispSwappedSetrun (s : State) (t : ℕ) : Option State :=
  match (s.thread t).state with
  | .sleep => some (s.setThread t { s.thread t with state := .run, lockp := .swapped })
  | .run => some s
  | _ => none

/-- The thread in state `TS_RUN` on a queue. -/
def Thread.running (th : Thread) (q : QueueId) (link : Option ℕ) : Thread :=
  { th with state := .run, lockp := .queue q, dispQueue := q, link := link }

/-- The part of `setbackdq` under the lock of the queue. -/
def backdq (s : State) (t : ℕ) (q : QueueId) : Option State := do
  let dp := s.disp q
  let tpri := (s.thread t).pri
  let s := s.setThread t ((s.thread t).running q none)
  let dq ← dp.q[tpri]?
  if dq.sruncnt ≠ 0 then
    let last ← dq.last
    let s := s.setThread last { s.thread last with link := some t }
    some (s.setDisp q { dp with
      nrunnable := dp.nrunnable + 1
      q := dp.q.set tpri ⟨dq.first, some t, dq.sruncnt + 1⟩
      maxUnboundPri := if dp.maxUnboundPri < tpri then tpri else dp.maxUnboundPri })
  else
    some (s.setDisp q { dp with
      nrunnable := dp.nrunnable + 1
      q := dp.q.set tpri ⟨some t, some t, dq.sruncnt + 1⟩
      qactmap := btSet dp.qactmap tpri
      maxrunpri := if dp.maxrunpri < tpri then tpri else dp.maxrunpri
      maxUnboundPri := if dp.maxUnboundPri < tpri then tpri else dp.maxUnboundPri })

/-- The part of `setfrontdq` under the lock of the queue. -/
def frontdq (s : State) (t : ℕ) (q : QueueId) : Option State := do
  let dp := s.disp q
  let tpri := (s.thread t).pri
  let dq ← dp.q[tpri]?
  let maxUnboundPri :=
    if (s.thread t).boundCpu = none ∧ dp.maxUnboundPri < tpri then (tpri : ℤ) else dp.maxUnboundPri
  if dq.sruncnt ≠ 0 then
    let s := s.setThread t ((s.thread t).running q dq.first)
    some (s.setDisp q { dp with
      nrunnable := dp.nrunnable + 1
      q := dp.q.set tpri ⟨some t, dq.last, dq.sruncnt + 1⟩
      maxUnboundPri := maxUnboundPri })
  else
    let s := s.setThread t ((s.thread t).running q none)
    some (s.setDisp q { dp with
      nrunnable := dp.nrunnable + 1
      q := dp.q.set tpri ⟨some t, some t, dq.sruncnt + 1⟩
      qactmap := btSet dp.qactmap tpri
      maxrunpri := if dp.maxrunpri < tpri then tpri else dp.maxrunpri
      maxUnboundPri := maxUnboundPri })

/-- `setkpdq`, to the back or to the front of `disp_kp_queue`.  Into an empty level a thread is put
at the back with the link it has. -/
def setkpdq (s : State) (t : ℕ) (back : Bool) : Option State := do
  let dp := s.disp .kp
  let tpri := (s.thread t).pri
  let dq ← dp.q[tpri]?
  if dq.sruncnt ≠ 0 then
    if back then
      let s := s.setThread t ((s.thread t).running .kp none)
      let last ← dq.last
      let s := s.setThread last { s.thread last with link := some t }
      some (s.setDisp .kp { dp with
        nrunnable := dp.nrunnable + 1
        q := dp.q.set tpri ⟨dq.first, some t, dq.sruncnt + 1⟩ })
    else
      let s := s.setThread t ((s.thread t).running .kp dq.first)
      some (s.setDisp .kp { dp with
        nrunnable := dp.nrunnable + 1
        q := dp.q.set tpri ⟨some t, dq.last, dq.sruncnt + 1⟩ })
  else
    let s := s.setThread t ((s.thread t).running .kp (if back then (s.thread t).link else none))
    some (s.setDisp .kp { dp with
      nrunnable := dp.nrunnable + 1
      q := dp.q.set tpri ⟨some t, some t, dq.sruncnt + 1⟩
      qactmap := btSet dp.qactmap tpri
      maxrunpri := if dp.maxrunpri < tpri then tpri else dp.maxrunpri
      maxUnboundPri := if dp.maxUnboundPri < tpri then tpri else dp.maxUnboundPri })

/-- The processor on whose queue `setbackdq` puts an unbound thread: the choice of its class, or the
next one if that has fewer threads of the priority. -/
def backCpu (cfg : Config) (s : State) (tpri choose : ℕ) : Option ℕ := do
  let dq ← (s.disp (.cpu choose)).q[tpri]?
  let qlen : ℤ := if cfg.qMatchPri ≤ tpri then dq.sruncnt - 2 else dq.sruncnt
  if 0 < qlen then
    let np ← (s.disp (.cpu (cfg.nextOnln choose))).q[tpri]?
    if np.sruncnt < qlen then some (cfg.nextOnln choose) else some choose
  else some choose

/-- `setbackdq`; `choose` is what `CL_CPU_CHOOSE` answers. -/
def setbackdq (cfg : Config) (s : State) (t choose : ℕ) : Option State :=
  let th := s.thread t
  if !th.loaded then dispSwappedSetrun s t
  else if cfg.ncpus = 1 then backdq s t (.cpu th.cpu)
  else
    match th.boundCpu with
    | some c => backdq s t (.cpu c)
    | none =>
      if cfg.kpreemptpri ≤ th.pri then setkpdq s t true
      else do
        let c ← backCpu cfg s th.pri choose
        backdq s t (.cpu c)

def setfrontdq (cfg : Config) (s : State) (t choose : ℕ) : Option State :=
  let th := s.thread t
  if !th.loaded then dispSwappedSetrun s t
  else if cfg.ncpus = 1 then frontdq s t (.cpu th.cpu)
  else
    match th.boundCpu with
    | some c => frontdq s t (.cpu c)
    | none =>
      if cfg.kpreemptpri ≤ th.pri then setkpdq s t false
      else if th.pri < (s.disp (.cpu th.cpu)).maxrunpri then frontdq s t (.cpu choose)
      else frontdq s t (.cpu th.cpu)

/-! ### Taking threads off -/

/-- The search of `dispdeq`: the thread in front of `t`, from `rp` with `trp` in front of it. -/
def search (s : State) (t : ℕ) : ℕ → Option ℕ → Option ℕ → Option (Option ℕ)
  | 0, _, _ => none
  | _ + 1, _, none => none
  | fuel + 1, trp, some rp => if rp = t then some trp else
      search s t fuel (some rp) (s.thread rp).link

/-- The thread in front, if there is one, is linked to the next one. -/
def relink (s : State) (trp link : Option ℕ) : State :=
  match trp with
  | none => s
  | some r => s.setThread r { s.thread r with link := link }

/-- The summary of a queue after `dispdeq` has emptied a level. -/
def emptied (dp : DispT) (tpri : ℕ) : DispT :=
  let qactmap := btOff dp.qactmap tpri
  if dp.nrunnable = 0 then { dp with qactmap := qactmap, maxUnboundPri := -1, maxrunpri := -1 }
  else if (tpri : ℤ) = dp.maxrunpri then
    let ipri := btGethighbit qactmap (tpri / 32)
    { dp with
      qactmap := qactmap
      maxUnboundPri := if ipri < dp.maxUnboundPri then ipri else dp.maxUnboundPri
      maxrunpri := ipri }
  else { dp with qactmap := qactmap }

def dispdeq (s : State) (t : ℕ) : Option (Bool × State) :=
  let th := s.thread t
  if th.state ≠ .run then some (false, s)
  else if !th.loaded then some (true, s)
  else do
    let dp := s.disp th.dispQueue
    let dq ← dp.q[th.pri]?
    let trp ← search s t (dq.sruncnt + 1) none dq.first
    let first := if trp = none then th.link else dq.first
    let last := if th.link = none then trp else dq.last
    let s := relink s trp th.link
    let dp := { dp with
      nrunnable := dp.nrunnable - 1
      q := dp.q.set th.pri ⟨first, last, dq.sruncnt - 1⟩ }
    let dp := if dq.sruncnt - 1 = 0 then emptied dp th.pri else dp
    let s := s.setDisp th.dispQueue dp
    some (true, s.setThread t { th with link := none, lockp := .transition })

/-- The part of `disp` that takes a thread off the queue of its processor. -/
def disp (s : State) (c : ℕ) : Option (Option ℕ × State) := do
  let dp := s.disp (.cpu c)
  if dp.maxrunpri = -1 then some (none, s)
  else
    let pri := dp.maxrunpri.toNat
    let dq ← dp.q[pri]?
    let t ← dq.first
    let th := s.thread t
    let running := { th with link := none, state := .onproc, lockp := .other }
    let nrunnable := dp.nrunnable - 1
    if th.link = none then
      let qactmap := btOff dp.qactmap pri
      let ipri := if nrunnable = 0 then -1 else btGethighbit qactmap (pri / 32)
      let dp : DispT := { dp with
        nrunnable := nrunnable
        q := dp.q.set pri ⟨none, none, dq.sruncnt - 1⟩
        qactmap := qactmap
        maxrunpri := ipri
        maxUnboundPri :=
          if nrunnable = 0 then -1 else if ipri < dp.maxUnboundPri then ipri else dp.maxUnboundPri }
      some (some t, (s.setDisp (.cpu c) dp).setThread t running)
    else
      let dp : DispT := { dp with
        nrunnable := nrunnable
        q := dp.q.set pri ⟨th.link, dq.last, dq.sruncnt - 1⟩ }
      some (some t, (s.setDisp (.cpu c) dp).setThread t running)

def firstUnbound (s : State) : ℕ → Option ℕ → Option (Option ℕ)
  | _, none => some none
  | 0, some _ => none
  | fuel + 1, some t => if (s.thread t).boundCpu = none then some (some t) else
      firstUnbound s fuel (s.thread t).link

/-- The first unbound thread of a level. -/
def unboundAt (s : State) (dp : DispT) (pri : ℕ) : Option (Option ℕ) := do
  let dq ← dp.q[pri]?
  firstUnbound s dq.sruncnt dq.first

/-- The next lower active priority, as `disp_fix_unbound_pri` finds it. -/
def nextLower (dqactmap : List (BitVec 32)) (pri : ℕ) : ℤ :=
  let wx := pri / 32
  let mapword := wordAt dqactmap wx &&& (1#32 <<< (pri % 32) - 1#32)
  if mapword ≠ 0 then (wx <<< 5 + highbit mapword - 1 : ℕ)
  else if 0 < wx then btGethighbit dqactmap (wx - 1)
  else -1

/-- The loop of `disp_fix_unbound_pri`.  The priority falls, so it has at most as many rounds as
that. -/
def fixLoop (s : State) (dp : DispT) : ℕ → ℕ → Option ℤ
  | 0, _ => none
  | fuel + 1, pri => do
      let lower := nextLower dp.qactmap pri
      if lower < 0 then some (-1)
      else
        match ← unboundAt s dp lower.toNat with
        | some _ => some lower
        | none => fixLoop s dp fuel lower.toNat

def dispFixUnboundPri (s : State) (q : QueueId) (pri : ℕ) : Option State := do
  let dp := s.disp q
  let lower ← fixLoop s dp (pri + 1) pri
  some (s.setDisp q { dp with maxUnboundPri := lower })

/-- What `disp_getbest` and `disp_cpu_inactive` do to a queue: the first unbound thread at the level
of `disp_max_unbound_pri` is taken off, and without one the level is corrected. -/
def takeUnbound (s : State) (q : QueueId) : Option (Option ℕ × State) := do
  let dp := s.disp q
  if dp.maxUnboundPri = -1 then some (none, s)
  else
    let pri := dp.maxUnboundPri.toNat
    match ← unboundAt s dp pri with
    | none =>
      let s ← dispFixUnboundPri s q pri
      some (none, s)
    | some t =>
      let (_, s) ← dispdeq s t
      some (some t, s)

/-- `disp_getbest` for the processor `c`. -/
def dispGetbest (s : State) (q : QueueId) (c : ℕ) : Option (Option ℕ × State) := do
  match ← takeUnbound s q with
  | (none, s) => some (none, s)
  | (some t, s) =>
    some (some t, s.setThread t { s.thread t with
      state := .onproc, lockp := .other, dispQueue := .cpu c })

/-- `disp_cpu_inactive`, with at most `fuel` rounds.  `choose` is what the class of each thread
chooses. -/
def dispCpuInactive (cfg : Config) (choose : ℕ → ℕ) (c : ℕ) : ℕ → State → Option State
  | 0, _ => none
  | fuel + 1, s => do
      if (s.disp (.cpu c)).maxUnboundPri = -1 then some s
      else
        match ← takeUnbound s (.cpu c) with
        | (none, s) => dispCpuInactive cfg choose c fuel s
        | (some t, s) =>
          let s ← setbackdq cfg s t (choose t)
          dispCpuInactive cfg choose c fuel s

/-- `disp_dq_assign`: the arrays of a queue are copied into larger ones that are zero behind. -/
def dispDqAssign (s : State) (q : QueueId) (numpris : ℕ) : Option State :=
  let dp := s.disp q
  if dp.npri < numpris then
    some (s.setDisp q { dp with
      npri := numpris
      q := dp.q.take dp.npri ++ List.replicate (numpris - dp.npri) ⟨none, none, 0⟩
      qactmap := dp.qactmap.take (dp.npri / 32 + 1) ++
        List.replicate (numpris / 32 + 1 - (dp.npri / 32 + 1)) 0 })
  else none

/-! ### Operations -/

/-- A thread is on no dispatch queue.  Its link is `NULL`: whoever else links threads clears it. -/
def Thread.Off (th : Thread) : Prop := (∀ q, th.lockp ≠ .queue q) ∧ th.link = none

/-- The operations on the queues, each under the lock of its queue. -/
inductive Op
  | setbackdq (t choose : ℕ)
  | setfrontdq (t choose : ℕ)
  | dispdeq (t : ℕ)
  | disp (c : ℕ)
  | dispGetbest (q : QueueId) (c : ℕ)
  /-- A round of `disp_cpu_inactive`, up to the `setbackdq` of the thread. -/
  | takeUnbound (c : ℕ)
  | dispDqAssign (q : QueueId) (numpris : ℕ)
  /-- The rest of the kernel changes a thread that is on no queue. -/
  | change (t : ℕ) (th : Thread)

instance (th : Thread) : Decidable (∀ q, th.lockp ≠ .queue q) :=
  match th.lockp with
  | .queue q => .isFalse fun off => off q rfl
  | .transition => .isTrue fun _ => nofun
  | .swapped => .isTrue fun _ => nofun
  | .other => .isTrue fun _ => nofun

instance (th : Thread) : Decidable th.Off := inferInstanceAs (Decidable (_ ∧ _))

/-- A runnable thread is swapped, or in transition while it is moved. -/
def Thread.Plausible (th : Thread) : Prop :=
  th.state = .run → th.lockp = .transition ∨ th.lockp = .swapped ∧ th.loaded = false

instance (th : Thread) : Decidable th.Plausible := inferInstanceAs (Decidable (_ → _))

/-- One operation: the thread it takes, and the state after it. -/
def exec (cfg : Config) (s : State) : Op → Option (Option ℕ × State)
  | .setbackdq t choose =>
    if (s.thread t).Off then (setbackdq cfg s t choose).map (none, ·) else none
  | .setfrontdq t choose =>
    if (s.thread t).Off then (setfrontdq cfg s t choose).map (none, ·) else none
  | .dispdeq t => (dispdeq s t).map fun r => (none, r.2)
  | .disp c => disp s c
  | .dispGetbest q c => dispGetbest s q c
  | .takeUnbound c => takeUnbound s (.cpu c)
  | .dispDqAssign q numpris => (dispDqAssign s q numpris).map (none, ·)
  | .change t th =>
    if (s.thread t).Off ∧ th.Off ∧ th.Plausible then some (none, s.setThread t th) else none

end Sol25.Disp
