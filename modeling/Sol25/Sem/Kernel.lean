import Sol25.Sem.Semop

/-!
# The semaphore calls

The system calls of `uts/common/syscall/sem.c` on the table of identifiers.  A call that has to
wait gives up the lock of its set and makes another pass when it wakes up; each pass is one event
of the history.
-/

namespace Sol25.Sem

open Ipc Function

/-- One `struct semid_ds`. -/
structure SemidDs where
  /-- `sem_perm`. -/
  perm : IpcPerm
  /-- The semaphores. -/
  set : SemSet

/-- The state of the facility. -/
structure Kernel where
  /-- `sema[]`: the identifiers. -/
  sema : Nat → SemidDs
  /-- The undo structures. -/
  pool : Pool

def semA : BitVec 32 := 0o200

def semR : BitVec 32 := 0o400

/-- `s & SEMA_INDEX_MASK`. -/
def semaIndex (s : Int) : Nat := (s % 0x10000).toNat

/-- `(s >> SEMA_SEQ_SHIFT) & SEMA_SEQ_MASK`. -/
def semaSeq (s : Int) : Nat := (s / 0x10000 % 0x8000).toNat

/-- The identifier that `semget` returns for an entry. -/
def semidOf (seq index : Nat) : Int := seq * 0x10000 + index

/-- `semconv` and `semconv_lock`: the entry that belongs to a user supplied identifier. -/
def semconv (tuning : Tuning) (sema : Nat → SemidDs) (s : Int) : Option Nat :=
  let index := semaIndex s
  if index < tuning.semmni ∧ (sema index).perm.allocated ∧ semaSeq s = (sema index).perm.seq then
    some index
  else
    none

/-- Replace the semaphores of an entry. -/
def Kernel.putSet (kernel : Kernel) (index : Nat) (set : SemSet) (pool : Pool) : Kernel :=
  ⟨update kernel.sema index { kernel.sema index with set := set }, pool⟩

/-- The result of a pass of `semop`. -/
inductive SemopEnd
  | done
  | sleeps (queue : Queue) (num : Nat)
  | fails (errno : Errno)
deriving DecidableEq, Repr

/-- Verify that semaphore numbers are in range and, before the first pass, that permissions are
granted. -/
def verify (sp : SemidDs) (cr : Cred) (again : Bool) : List Sembuf → Option Errno
  | [] => none
  | op :: rest =>
    match if again then none else ipcaccess sp.perm (if op.op ≠ 0 then semA else semR) cr with
    | some errno => some errno
    | none => if sp.set.nsems ≤ op.num then some .efbig else verify sp cr again rest

/-- A pass of `semop`; `again` tells a pass after a sleep from the first one. -/
def semop (tuning : Tuning) (kernel : Kernel) (p : Nat) (cr : Cred) (again : Bool) (semid : Int)
    (ops : List Sembuf) : SemopEnd × Kernel :=
  if tuning.semopm < ops.length then
    (.fails .e2big, kernel)
  else if ops = [] then
    (.done, kernel)
  else
    match semconv tuning kernel.sema semid with
    | none => (.fails (if again then .eidrm else .einval), kernel)
    | some index =>
      let sp := kernel.sema index
      match verify sp cr again ops with
      | some errno => (.fails errno, kernel)
      | none =>
        match semopLoop tuning p semid sp.set.binaryType [] ops sp.set kernel.pool [] with
        | .completed set pool _ => (.done, kernel.putSet index set pool)
        | .stopped (.error errno) _ set pool _ => (.fails errno, kernel.putSet index set pool)
        | .stopped (.sleep queue) op set pool _ =>
          (.sleeps queue op.num, kernel.putSet index (set.sleep op queue) pool)

/-- The commands of `semctl` that change something. -/
inductive SemctlCmd
  /-- `IPC_RMID`. -/
  | rmid
  /-- `IPC_SET`, with the new owner and mode. -/
  | set (uid gid : Nat) (mode : BitVec 32)
  | setval (semnum : Nat) (arg : BitVec 32)
  /-- `SETALL`; there are no values if they cannot be copied in. -/
  | setall (vals : Option (Nat → BitVec 16))

def owns (sp : SemidDs) (cr : Cred) : Bool :=
  cr.uid == sp.perm.uid || cr.uid == sp.perm.cuid || cr.uid == 0

/-- An entry whose semaphores have been removed. -/
def SemidDs.remove (sp : SemidDs) (semid : Int) : SemidDs :=
  { perm :=
      { sp.perm with
        seq := if semaSeq semid = 0x7fff then 0 else sp.perm.seq + 1
        mode := 0 }
    set := { sp.set with
      sem := fun num => if num < sp.set.nsems then ⟨0, 0, 0⟩ else sp.set.sem num } }

/-- An entry with a new owner and mode. -/
def SemidDs.chown (sp : SemidDs) (uid gid : Nat) (mode : BitVec 32) : SemidDs :=
  { sp with
    perm := { sp.perm with uid := uid, gid := gid, mode := mode &&& 0o777 ||| ipcAlloc } }

/-- `SETVAL` on the semaphores of a set. -/
def SemSet.setval (set : SemSet) (num : Nat) (value : BitVec 16) : SemSet :=
  set.put num ((set.sem num).assign value num).1

/-- `SETALL` on the semaphores of a set. -/
def SemSet.setall (set : SemSet) (vals : Nat → BitVec 16) : SemSet :=
  { set with
    sem := fun num =>
      if num < set.nsems then ((set.sem num).assign (vals num) num).1 else set.sem num }

/-- The largest user or group number. -/
def maxuid : Nat := 60002

def semctl (tuning : Tuning) (kernel : Kernel) (cr : Cred) (semid : Int) (cmd : SemctlCmd) :
    Option Errno × Kernel :=
  match semconv tuning kernel.sema semid with
  | none => (some .einval, kernel)
  | some index =>
    let sp := kernel.sema index
    match cmd with
    | .rmid =>
      if !owns sp cr then
        (some .eperm, kernel)
      else
        (none, ⟨update kernel.sema index (sp.remove semid),
          semunrm kernel.pool semid 0 sp.set.nsems⟩)
    | .set uid gid mode =>
      if !owns sp cr then
        (some .eperm, kernel)
      else if maxuid < uid ∨ maxuid < gid then
        (some .einval, kernel)
      else
        (none, ⟨update kernel.sema index (sp.chown uid gid mode), kernel.pool⟩)
    | .setval semnum arg =>
      match ipcaccess sp.perm semA cr with
      | some errno => (some errno, kernel)
      | none =>
        if sp.set.nsems ≤ semnum then
          (some .einval, kernel)
        else if tuning.semvmx < arg.toNat then
          (some .erange, kernel)
        else
          (none, kernel.putSet index (sp.set.setval semnum (arg.setWidth 16))
            (semunrm kernel.pool semid semnum semnum))
    | .setall vals =>
      match ipcaccess sp.perm semA cr, vals with
      | some errno, _ => (some errno, kernel)
      | none, none => (some .efault, kernel)
      | none, some vals =>
        if ∃ num < sp.set.nsems, tuning.semvmx < (vals num).toNat then
          (some .erange, kernel)
        else
          (none, kernel.putSet index (sp.set.setall vals)
            (semunrm kernel.pool semid 0 sp.set.nsems))

/-- `semget`; `granted` tells whether `rmalloc` finds room for the semaphores. -/
def semget (tuning : Tuning) (kernel : Kernel) (cr : Cred) (key : Int) (nsems : Int)
    (semflg : BitVec 32) (granted : Bool) : Except Errno Int × Kernel :=
  match ipcget (fun index => (kernel.sema index).perm) tuning.semmni key semflg cr with
  | .error errno => (.error errno, kernel)
  | .ok (index, none) =>
    let sp := kernel.sema index
    if nsems ≠ 0 ∧ (sp.set.nsems : Int) < nsems % 2 ^ 32 then
      (.error .einval, kernel)
    else
      (.ok (semidOf sp.perm.seq index), kernel)
  | .ok (index, some perm) =>
    let free : SemidDs := ⟨{ perm with mode := 0 }, (kernel.sema index).set⟩
    if nsems ≤ 0 ∨ (tuning.semmsl : Int) < nsems then
      (.error .einval, { kernel with sema := update kernel.sema index free })
    else if !granted then
      (.error .enospc, { kernel with sema := update kernel.sema index free })
    else
      let set : SemSet := ⟨(nsems % 2 ^ 16).toNat, true, fun _ => ⟨0, 0, 0⟩⟩
      (.ok (semidOf perm.seq index), { kernel with sema := update kernel.sema index ⟨perm, set⟩ })

/-- One iteration of the loop of `semexit`. -/
def exitOne (tuning : Tuning) (sema : Nat → SemidDs) (entry : Undo) : Nat → SemidDs :=
  match semconv tuning sema entry.id with
  | none => sema
  | some index =>
    let set := (sema index).set
    let adjusted := ((set.sem entry.num).adjust tuning entry.aoe entry.num).1
    update sema index ⟨(sema index).perm, set.put entry.num adjusted⟩

/-- The loop of `semexit` over the entries of the process, from the last to the first. -/
def exitLoop (tuning : Tuning) (entries : List Undo) (sema : Nat → SemidDs) : Nat → SemidDs :=
  entries.foldl (exitOne tuning) sema

def semexit (tuning : Tuning) (kernel : Kernel) (p : Nat) : Kernel :=
  match kernel.pool.slot p with
  | none => kernel
  | some up => ⟨exitLoop tuning (kernel.pool.ents up).reverse kernel.sema, kernel.pool.release p⟩

/-- A step of the history of the facility. -/
inductive Event
  | semget (cr : Cred) (key nsems : Int) (semflg : BitVec 32) (granted : Bool)
  | semop (p : Nat) (cr : Cred) (again : Bool) (semid : BitVec 32) (ops : List Sembuf)
  | interrupt (index : Nat) (queue : Queue) (num : Nat)
  | semctl (cr : Cred) (semid : BitVec 32) (cmd : SemctlCmd)
  | semexit (p : Nat)

/-- The state after an event. -/
def Kernel.step (tuning : Tuning) (kernel : Kernel) : Event → Kernel
  | .semget cr key nsems semflg granted => (Sem.semget tuning kernel cr key nsems semflg granted).2
  | .semop p cr again semid ops => (Sem.semop tuning kernel p cr again semid.toInt ops).2
  | .interrupt index queue num =>
    let set := (kernel.sema index).set
    kernel.putSet index (set.put num ((set.sem num).interrupt queue num).1) kernel.pool
  | .semctl cr semid cmd => (Sem.semctl tuning kernel cr semid.toInt cmd).2
  | .semexit p => Sem.semexit tuning kernel p

/-- The state after `_init`. -/
def Kernel.initial (tuning : Tuning) : Kernel :=
  ⟨fun _ => ⟨⟨0, 0, 0, 0, 0, 0, 0⟩, ⟨0, false, fun _ => ⟨0, 0, 0⟩⟩⟩, Pool.initial tuning⟩

end Sol25.Sem
