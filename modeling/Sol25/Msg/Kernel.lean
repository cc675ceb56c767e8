import Sol25.Ipc.Perm
import Sol25.Rmap.Model

/-!
# Message queues

`uts/common/os/msg.c`: message headers are linked on the free list or on a queue, the text of a
message lies in segments of a pool that a resource map gives out.  A call that has to wait gives up
its locks and makes another pass when it wakes up; each pass is one step.
-/

namespace Sol25.Msg

open Ipc Function

/-- `struct msginfo` -/
structure Msginfo where
  /-- Number of entries in the map. -/
  msgmap : BitVec 32
  /-- Maximum size of a message. -/
  msgmax : BitVec 32
  /-- Maximum number of bytes on a queue. -/
  msgmnb : BitVec 32
  /-- Number of queue identifiers. -/
  msgmni : BitVec 32
  /-- Size of a segment. -/
  msgssz : BitVec 32
  /-- Number of message headers. -/
  msgtql : BitVec 32
  /-- Number of segments. -/
  msgseg : BitVec 16
deriving Repr, DecidableEq

/-- The ways a call can fail to return. -/
inductive Fault
  /-- A division by zero. -/
  | divide
  /-- A fault of a resource map. -/
  | map (fault : Rmap.Fault)
  /-- A walk along a queue did not end. -/
  | diverges
deriving DecidableEq, Repr

/-- `struct msg` -/
structure Header where
  /-- `msg_next` -/
  next : Option ℕ
  /-- `msg_type` -/
  type : BitVec 32
  /-- `msg_ts` -/
  ts : BitVec 16
  /-- `msg_spot` -/
  spot : BitVec 16
deriving Repr, DecidableEq

/-- `struct msqid_ds` -/
structure MsqidDs where
  /-- `msg_perm` -/
  perm : IpcPerm
  /-- `msg_first` -/
  first : Option ℕ
  /-- `msg_last` -/
  last : Option ℕ
  /-- `msg_cbytes` -/
  cbytes : ℕ
  /-- `msg_qnum` -/
  qnum : ℕ
  /-- `msg_qbytes` -/
  qbytes : ℕ
  /-- `msg_lspid` -/
  lspid : ℕ
  /-- `msg_lrpid` -/
  lrpid : ℕ
  /-- `msg_stime` -/
  stime : ℕ
  /-- `msg_rtime` -/
  rtime : ℕ
  /-- `msg_ctime` -/
  ctime : ℕ
deriving Repr, DecidableEq

/-- The state of the facility. -/
structure Kernel where
  /-- `msgh[]` -/
  hdr : ℕ → Header
  msgfp : Option ℕ
  /-- `msgque[]` -/
  que : ℕ → MsqidDs
  /-- `msgmap` -/
  map : Rmap.Map

/-- The caller of a system call, and the time of the call. -/
structure Caller where
  cr : Cred
  pid : ℕ
  now : ℕ
deriving Repr

def msgR : BitVec 32 := 0o400

def msgW : BitVec 32 := 0o200

def msgRwait : BitVec 32 := 0o1000

def msgWwait : BitVec 32 := 0o2000

def msgNoerror : BitVec 32 := 0o10000

def ipcNowait : BitVec 32 := 0o4000

def maxuid : ℤ := 60002

/-! ### Loading -/

def intrnd (x : BitVec 64) : BitVec 64 := (x + 3) / 4 * 4

/-- The memory that the tables ask for, in `u_longlong_t`: a `struct map` has 8 bytes, a
`struct msqid_ds` 112, a `struct msglock` 4 and a `struct msg` 12. -/
def Msginfo.memory (t : Msginfo) : BitVec 64 :=
  intrnd (t.msgseg.setWidth 64 * t.msgssz.signExtend 64) + t.msgmap.signExtend 64 * 8 +
    t.msgmni.signExtend 64 * 112 + intrnd (t.msgmni.signExtend 64 * 4) + t.msgtql.signExtend 64 * 12

/-- The headers as `_init` links them. -/
def freeHeaders (msgtql : ℕ) (i : ℕ) : Header :=
  ⟨if i + 1 < msgtql then some (i + 1) else none, 0, 0, 0⟩

/-- A queue that was never used. -/
def MsqidDs.unused : MsqidDs := ⟨⟨0, 0, 0, 0, 0, 0, 0⟩, none, none, 0, 0, 0, 0, 0, 0, 0, 0⟩

/-- `_init`; nothing is loaded when more than a quarter of the available kernel memory is asked for,
which is less than the 2^32 bytes of an address space. -/
def init (t : Msginfo) (maxavail : BitVec 32) : Except Fault (Option Kernel) :=
  if maxavail.toNat / 4 < t.memory.toNat then .ok none
  else
    let slots := List.replicate (t.msgmap.toNat - Rmap.mapOverhead + 1) ⟨0, 0⟩
    match Rmap.mapinit slots t.msgseg.toNat 1 t.msgmap.toInt with
    | .error fault => .error (.map fault)
    | .ok map => .ok (some
        { hdr := freeHeaders t.msgtql.toInt.toNat
          msgfp := if t.msgtql = 0 then none else some 0
          que := fun _ => MsqidDs.unused
          map := map })

section Calls

variable (t : Msginfo)

/-- `btoq`, where `msgssz` is not zero. -/
def segs (x : BitVec 32) : ℕ := ((x + t.msgssz - 1).sdiv t.msgssz).toNat

def btoq (x : BitVec 32) : Except Fault ℕ := if t.msgssz = 0 then .error .divide else .ok (segs t x)

/-- `rmfree` on the map. -/
def rmfree (map : Rmap.Map) (size addr : ℕ) : Except Fault Rmap.Map :=
  match Rmap.rmfree map size addr with
  | .error fault => .error (.map fault)
  | .ok map => .ok map

/-- `rmalloc_locked` on the map. -/
def rmallocLocked (map : Rmap.Map) (size : ℕ) : Except Fault (ℕ × Rmap.Map) :=
  match Rmap.rmallocLocked map size with
  | .error fault => .error (.map fault)
  | .ok result => .ok result

/-- Subtraction of `ulong`s. -/
def minus (x y : ℕ) : ℕ := Rmap.ulong (x + 2 ^ 32 - y)

/-- Set `msg_next`. -/
def setNext (hdr : ℕ → Header) (i : ℕ) (next : Option ℕ) : ℕ → Header :=
  update hdr i { hdr i with next := next }

/-- Change a queue. -/
def Kernel.put (k : Kernel) (qp : ℕ) (q : MsqidDs) : Kernel := { k with que := update k.que qp q }

/-- Change the mode of a queue. -/
def MsqidDs.setMode (q : MsqidDs) (mode : BitVec 32) : MsqidDs :=
  { q with perm := { q.perm with mode := mode } }

/-- Put a header on the free list. -/
def Kernel.pushHeader (k : Kernel) (mp : ℕ) : Kernel :=
  { k with hdr := setNext k.hdr mp k.msgfp, msgfp := some mp }

/-- `MSG_WWAIT` is taken back and the writers are woken up. -/
def MsqidDs.wakeWriters (q : MsqidDs) : MsqidDs := q.setMode (q.perm.mode &&& ~~~msgWwait)

/-- Take a message off a queue. -/
def Kernel.unlink (k : Kernel) (qp : ℕ) (pmp : Option ℕ) (mp : ℕ) : Kernel :=
  let q := k.que qp
  let next := (k.hdr mp).next
  let q :=
    { q with
      first := if pmp = none then next else q.first
      last := if next = none then pmp else q.last
      qnum := minus q.qnum 1 }
  match pmp with
  | none => k.put qp q.wakeWriters
  | some p => { k.put qp q.wakeWriters with hdr := setNext k.hdr p next }

def msgfree (k : Kernel) (qp : ℕ) (pmp : Option ℕ) (mp : ℕ) : Except Fault Kernel := do
  let k := k.unlink qp pmp mp
  let m := k.hdr mp
  let map ←
    if m.ts ≠ 0 then
      rmfree k.map (← btoq t (m.ts.setWidth 32)) (m.spot.signExtend 32 + 1).toNat
    else pure k.map
  return { k with map := map }.pushHeader mp

/-- `msgconv`: the queue that belongs to a user supplied identifier. -/
def msgconv (k : Kernel) (id : BitVec 32) : Except Fault (Option ℕ) :=
  if id.toInt < 0 then .ok none
  else if t.msgmni = 0 then .error .divide
  else
    let qp := (id.srem t.msgmni).toNat
    let q := k.que qp
    if q.perm.allocated && (id.sdiv t.msgmni).toNat == q.perm.seq then .ok (some qp) else .ok none

/-- `while (qp->msg_first) msgfree(qp, NULL, qp->msg_first)` -/
def freeAll : ℕ → Kernel → ℕ → Except Fault Kernel
  | 0, _, _ => .error .diverges
  | fuel + 1, k, qp =>
    match (k.que qp).first with
    | none => .ok k
    | some mp => do freeAll fuel (← msgfree t k qp none mp) qp

def owns (q : MsqidDs) (cr : Cred) : Bool :=
  cr.uid == q.perm.uid || cr.uid == q.perm.cuid || cr.uid == 0

/-- A queue after `IPC_RMID`. -/
def MsqidDs.remove (q : MsqidDs) (id : BitVec 32) : MsqidDs :=
  { q with
    cbytes := 0
    perm := { q.perm with
      seq := if (id + t.msgmni).toInt < 0 then 0 else Rmap.ulong (q.perm.seq + 1)
      mode := 0 } }

/-- `IPC_RMID` -/
def rmid (k : Kernel) (cr : Cred) (id : BitVec 32) : Except Fault (Option Errno × Kernel) := do
  match ← msgconv t k id with
  | none => return (some .einval, k)
  | some qp =>
    if !owns (k.que qp) cr then return (some .eperm, k)
    let k ← freeAll t (t.msgtql.toInt.toNat + 1) k qp
    return (none, k.put qp ((k.que qp).remove t id))

/-- What `IPC_SET` copies in. -/
structure SetArgs where
  uid : ℤ
  gid : ℤ
  mode : BitVec 32
  qbytes : BitVec 32
deriving Repr

/-- `IPC_SET`, and `IPC_O_SET`, which copies in narrower members; there are no arguments when they
cannot be copied in. -/
def ipcSet (k : Kernel) (caller : Caller) (id : BitVec 32) (args : Option SetArgs) :
    Except Fault (Option Errno × Kernel) := do
  match ← msgconv t k id with
  | none => return (some .einval, k)
  | some qp =>
    let q := k.que qp
    if !owns q caller.cr then return (some .eperm, k)
    match args with
    | none => return (some .efault, k)
    | some ds =>
      if q.qbytes < ds.qbytes.toNat ∧ caller.cr.uid ≠ 0 then return (some .eperm, k)
      if ds.uid < 0 ∨ maxuid < ds.uid ∨ ds.gid < 0 ∨ maxuid < ds.gid then
        return (some .einval, k)
      return (none, k.put qp
        { q with
          perm := { q.perm with
            uid := ds.uid.toNat
            gid := ds.gid.toNat
            mode := q.perm.mode &&& ~~~0o777 ||| ds.mode &&& 0o777 }
          qbytes := ds.qbytes.toNat
          ctime := caller.now })

def msgget (k : Kernel) (caller : Caller) (key : ℤ) (msgflg : BitVec 32) :
    Except Errno (BitVec 32) × Kernel :=
  let id (seq qp : ℕ) : BitVec 32 := BitVec.ofNat 32 seq * t.msgmni + BitVec.ofNat 32 qp
  match ipcget (fun qp => (k.que qp).perm) t.msgmni.toInt.toNat key msgflg caller.cr with
  | .error errno => (.error errno, k)
  | .ok (qp, none) => (.ok (id (k.que qp).perm.seq qp), k)
  | .ok (qp, some perm) =>
    (.ok (id perm.seq qp), k.put qp
      { k.que qp with
        perm := perm
        first := none
        last := none
        qnum := 0
        qbytes := t.msgmnb.toNat
        lspid := 0
        lrpid := 0
        stime := 0
        rtime := 0
        ctime := caller.now })

/-! ### Receiving -/

/-- The loop of `msgrcv` over the queue: the message chosen and its predecessor. -/
def search (hdr : ℕ → Header) (msgtyp : BitVec 32) :
    ℕ → Option ℕ → Option ℕ → Option ℕ × Option ℕ → Except Fault (Option ℕ × Option ℕ)
  | 0, _, _, _ => .error .diverges
  | _ + 1, none, _, best => .ok best
  | fuel + 1, some mp, pmp, best =>
    let m := hdr mp
    if 0 < msgtyp.toInt then
      if msgtyp ≠ m.type then search hdr msgtyp fuel m.next (some mp) best
      else .ok (some mp, pmp)
    else if m.type.sle (-msgtyp) ∧ ¬ best.1.any fun smp => (hdr smp).type.sle m.type then
      search hdr msgtyp fuel m.next (some mp) (some mp, pmp)
    else search hdr msgtyp fuel m.next (some mp) best

/-- The message of a queue that `msgrcv` chooses, and its predecessor. -/
def findmsg (k : Kernel) (qp : ℕ) (msgtyp : BitVec 32) : Except Fault (Option ℕ × Option ℕ) :=
  if msgtyp = 0 then .ok ((k.que qp).first, none)
  else search k.hdr msgtyp (t.msgtql.toInt.toNat + 1) (k.que qp).first none (none, none)

inductive End
  | done (value : ℕ)
  | fails (errno : Errno)
  /-- The call waits for space on the queue or for a message, for a header, or for segments. -/
  | waits
deriving DecidableEq, Repr

/-- The message is taken off its queue and its text copied out. -/
def receive (k : Kernel) (caller : Caller) (qp : ℕ) (spmp : Option ℕ) (smp : ℕ)
    (msgsz msgflg : BitVec 32) (typeOut textOut : Bool) : Except Fault (End × Kernel) :=
  do
  let ts := (k.hdr smp).ts.toNat
  if msgsz.toNat < ts ∧ msgflg &&& msgNoerror = 0 then return (.fails .e2big, k)
  let sz := if msgsz.toNat < ts then msgsz.toNat else ts
  if !typeOut then return (.fails .efault, k)
  if sz ≠ 0 ∧ !textOut then return (.fails .efault, k)
  let q := k.que qp
  let q := { q with cbytes := minus q.cbytes ts, lrpid := caller.pid, rtime := caller.now }
  return (.done sz, ← msgfree t (k.put qp q) qp spmp smp)

/-- A pass of `msgrcv`; `again` tells a pass after a wait from the first one.  Whether the type and
the text can be copied out is told by the last two arguments. -/
def msgrcv (k : Kernel) (caller : Caller) (again : Bool) (id msgsz msgtyp msgflg : BitVec 32)
    (typeOut textOut : Bool) : Except Fault (End × Kernel) := do
  match ← msgconv t k id with
  | none => return (.fails (if again then .eidrm else .einval), k)
  | some qp =>
    match if again then none else ipcaccess (k.que qp).perm msgR caller.cr with
    | some errno => return (.fails errno, k)
    | none =>
      if msgsz.toInt < 0 then return (.fails .einval, k)
      match ← findmsg t k qp msgtyp with
      | (some smp, spmp) => receive t k caller qp spmp smp msgsz msgflg typeOut textOut
      | (none, _) =>
        if msgflg &&& ipcNowait ≠ 0 then return (.fails .enomsg, k)
        return (.waits, k.put qp ((k.que qp).setMode ((k.que qp).perm.mode ||| msgRwait)))

/-! ### Sending -/

/-- The message that `msgsnd` has a header and segments for is put on the queue. -/
def enqueue (k : Kernel) (caller : Caller) (qp mp : ℕ) (cnt type : BitVec 32) (spot : ℕ) : Kernel :=
  let q := k.que qp
  let m : Header :=
    ⟨none, type, cnt.setWidth 16, if cnt ≠ 0 then BitVec.ofNat 16 (spot - 1) else -1⟩
  let hdr := update k.hdr mp m
  let q :=
    { q with
      qnum := Rmap.ulong (q.qnum + 1)
      cbytes := Rmap.ulong (q.cbytes + cnt.toNat)
      lspid := caller.pid
      stime := caller.now
      first := if q.last = none then some mp else q.first
      last := some mp }
  let q := q.setMode (q.perm.mode &&& ~~~msgRwait)
  match (k.que qp).last with
  | none => { k.put qp q with hdr := hdr }
  | some last => { k.put qp q with hdr := setNext hdr last (some mp) }

/-- `msgsnd` from the label `getres` on, with the lock of the queue. -/
def getres (k : Kernel) (caller : Caller) (qp : ℕ) (cnt type msgflg : BitVec 32) (textIn : Bool) :
    Except Fault (End × Kernel) := do
  let q := k.que qp
  if q.qbytes < Rmap.ulong (cnt.toNat + q.cbytes) then
    if msgflg &&& ipcNowait ≠ 0 then return (.fails .eagain, k)
    return (.waits, k.put qp (q.setMode (q.perm.mode ||| msgWwait)))
  match k.msgfp with
  | none => return (if msgflg &&& ipcNowait ≠ 0 then .fails .eagain else .waits, k)
  | some mp =>
    let k := { k with msgfp := (k.hdr mp).next }
    if cnt = 0 then return (.done 0, enqueue k caller qp mp cnt type 0)
    let size ← btoq t cnt
    let (spot, map) ← rmallocLocked k.map size
    if spot = 0 then
      if msgflg &&& ipcNowait ≠ 0 then return (.fails .eagain, k.pushHeader mp)
      return (.waits, { k with map := { k.map with want := k.map.want + 1 } }.pushHeader mp)
    if !textIn then
      let map ← rmfree map size spot
      return (.fails .efault, { k with map := map }.pushHeader mp)
    return (.done 0, enqueue { k with map := map } caller qp mp cnt type spot)

/-- A pass of `msgsnd`; there is no type when it cannot be copied in, and `textIn` tells whether the
text can be.  The tests of the first pass that do not depend on the queue hold for every later
one. -/
def msgsnd (k : Kernel) (caller : Caller) (again : Bool) (id msgsz msgflg : BitVec 32)
    (type : Option (BitVec 32)) (textIn : Bool) : Except Fault (End × Kernel) := do
  match ← msgconv t k id with
  | none => return (.fails (if again then .eidrm else .einval), k)
  | some qp =>
    match if again then none else ipcaccess (k.que qp).perm msgW caller.cr with
    | some errno => return (.fails errno, k)
    | none =>
      if msgsz.toInt < 0 ∨ t.msgmax.toInt < msgsz.toInt then return (.fails .einval, k)
      match type with
      | none => return (.fails .efault, k)
      | some type =>
        if type.toInt < 1 then return (.fails .einval, k)
        getres t k caller qp msgsz type msgflg textIn

/-- A signal ends the wait of a sender for space on the queue. -/
def interrupted (k : Kernel) (id : BitVec 32) : Except Fault (Option Errno × Kernel) := do
  match ← msgconv t k id with
  | none => return (some .einval, k)
  | some qp => return (some .eintr, k.put qp (k.que qp).wakeWriters)

/-- A step of the facility.  A signal that ends any other wait changes nothing. -/
inductive Event
  | msgget (caller : Caller) (key : ℤ) (msgflg : BitVec 32)
  | msgsnd (caller : Caller) (again : Bool) (id msgsz msgflg : BitVec 32)
      (type : Option (BitVec 32)) (textIn : Bool)
  | msgrcv (caller : Caller) (again : Bool) (id msgsz msgtyp msgflg : BitVec 32)
      (typeOut textOut : Bool)
  | ipcSet (caller : Caller) (id : BitVec 32) (args : Option SetArgs)
  | rmid (cr : Cred) (id : BitVec 32)
  | interrupted (id : BitVec 32)

/-- The state after an event. -/
def Kernel.step (k : Kernel) : Event → Except Fault Kernel
  | .msgget caller key msgflg => .ok (Msg.msgget t k caller key msgflg).2
  | .msgsnd caller again id msgsz msgflg type textIn =>
    (Msg.msgsnd t k caller again id msgsz msgflg type textIn).map Prod.snd
  | .msgrcv caller again id msgsz msgtyp msgflg typeOut textOut =>
    (Msg.msgrcv t k caller again id msgsz msgtyp msgflg typeOut textOut).map Prod.snd
  | .ipcSet caller id args => (Msg.ipcSet t k caller id args).map Prod.snd
  | .rmid cr id => (Msg.rmid t k cr id).map Prod.snd
  | .interrupted id => (Msg.interrupted t k id).map Prod.snd

/-- The states that are reached from `_init` by events that satisfy `allowed`. -/
inductive Reached (allowed : Event → Prop) : Kernel → Prop
  | init (maxavail : BitVec 32) {k : Kernel} : Msg.init t maxavail = .ok (some k) →
      Reached allowed k
  | step (event : Event) {k after : Kernel} :
      Reached allowed k → allowed event → k.step t event = .ok after → Reached allowed after

end Calls

end Sol25.Msg
