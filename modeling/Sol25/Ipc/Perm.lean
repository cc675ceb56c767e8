import Mathlib.Algebra.Order.Ring.Int
import Mathlib.Data.List.Basic

/-!
# Common code of the System V facilities

Permissions and key lookup of `uts/common/os/ipc.c`.  The entries of a facility are a function from
the index; only the first `cnt` of them exist.
-/

namespace Sol25

open List

/-- The error numbers that the modelled calls return. -/
inductive Errno
  | eperm | enoent | eintr | e2big | eagain | eacces | efault | eexist | einval | efbig | enospc
  | erange | enomsg | eidrm | edeadlk | enolck | eoverflow | ebadf
deriving DecidableEq, Repr

namespace Ipc

/-- The members of `struct cred` that are consulted. -/
structure Cred where
  /-- `cr_uid`: the effective user. -/
  uid : Nat
  /-- `cr_gid`: the effective group. -/
  gid : Nat
  /-- `cr_groups`: the supplementary groups. -/
  groups : List Nat
deriving DecidableEq, Repr

def groupmember (gid : Nat) (cr : Cred) : Bool := gid == cr.gid || gid ∈ cr.groups

/-- One `struct ipc_perm`. -/
structure IpcPerm where
  uid : Nat
  gid : Nat
  cuid : Nat
  cgid : Nat
  /-- Access modes, with `IPC_ALLOC`. -/
  mode : BitVec 32
  /-- Slot usage sequence number. -/
  seq : Nat
  key : Int
deriving DecidableEq, Repr

def ipcAlloc : BitVec 32 := 0o100000

def ipcCreat : BitVec 32 := 0o1000

def ipcExcl : BitVec 32 := 0o2000

def IpcPerm.allocated (perm : IpcPerm) : Bool := perm.mode &&& ipcAlloc != 0

/-- `ipcaccess`: verify the requested access. -/
def ipcaccess (perm : IpcPerm) (mode : BitVec 32) (cr : Cred) : Option Errno :=
  let mode :=
    if cr.uid ≠ perm.uid ∧ cr.uid ≠ perm.cuid then
      if groupmember perm.gid cr || groupmember perm.cgid cr then mode >>> 3 else mode >>> 6
    else mode
  if cr.uid = 0 then none
  else if mode &&& perm.mode ≠ 0 then none
  else some .eacces

/-- The first entry below `cnt` with a property. -/
def firstEntry (perms : Nat → IpcPerm) (cnt : Nat) (test : IpcPerm → Bool) : Option Nat :=
  (List.range cnt).find? fun i => test (perms i)

/-- The entry that `ipcget` makes at `init`; the sequence number stays. -/
def IpcPerm.init (perm : IpcPerm) (key : Int) (flag : BitVec 32) (cr : Cred) : IpcPerm :=
  { perm with
    mode := ipcAlloc ||| flag &&& 0o777
    key := key
    cuid := cr.uid
    uid := cr.uid
    cgid := cr.gid
    gid := cr.gid }

/-- `ipcget`: the index found, with its new contents if the entry was created. -/
def ipcget (perms : Nat → IpcPerm) (cnt : Nat) (key : Int) (flag : BitVec 32) (cr : Cred) :
    Except Errno (Nat × Option IpcPerm) :=
  let create :=
    match firstEntry perms cnt (! ·.allocated) with
    | none => .error .enospc
    | some i => .ok (i, some ((perms i).init key flag cr))
  if key = 0 then
    create
  else
    match firstEntry perms cnt fun perm => perm.allocated && perm.key == key with
    | some i =>
      if flag &&& (ipcCreat ||| ipcExcl) = ipcCreat ||| ipcExcl then .error .eexist
      else if flag &&& 0o777 &&& ~~~ (perms i).mode ≠ 0 then .error .eacces
      else .ok (i, none)
    | none => if flag &&& ipcCreat = 0 then .error .enoent else create

variable {flag : BitVec 32} {cr : Cred} {key : Int} {cnt i : Nat} {perms : Nat → IpcPerm}

theorem firstEntry_eq_some {test : IpcPerm → Bool} (found : firstEntry perms cnt test = some i) :
    i < cnt ∧ test (perms i) = true := by
  have member := mem_of_find?_eq_some found
  have holds := find?_some found
  exact ⟨mem_range.mp member, holds⟩

/-- An entry that `ipcget` creates was free, and keeps its sequence number. -/
theorem ipcget_created {perm : IpcPerm}
    (result : ipcget perms cnt key flag cr = .ok (i, some perm)) :
    i < cnt ∧ (perms i).allocated = false ∧ perm = (perms i).init key flag cr := by
  have created : (match firstEntry perms cnt (! ·.allocated) with
      | none => .error .enospc
      | some i => .ok (i, some ((perms i).init key flag cr)) :
        Except Errno (Nat × Option IpcPerm)) = .ok (i, some perm) →
      i < cnt ∧ (perms i).allocated = false ∧ perm = (perms i).init key flag cr := by
    intro result
    cases free : firstEntry perms cnt (! ·.allocated) with
    | none => simp [free] at result
    | some j =>
      simp only [free, Except.ok.injEq, Prod.mk.injEq, Option.some.injEq] at result
      obtain ⟨rfl, rfl⟩ := result
      obtain ⟨small, unused⟩ := firstEntry_eq_some free
      exact ⟨small, by simpa using unused, rfl⟩
  simp only [ipcget] at result
  split at result
  · exact created result
  split at result
  · split at result
    · cases result
    split at result
    · cases result
    · simp at result
  · split at result
    · cases result
    · exact created result

theorem IpcPerm.init_allocated (perm : IpcPerm) (key : Int) (flag : BitVec 32) (cr : Cred) :
    (perm.init key flag cr).allocated = true := by
  have bit : ((ipcAlloc ||| flag &&& 0o777) &&& ipcAlloc).getLsbD 15 = true := by
    simp [ipcAlloc]
  simp only [IpcPerm.allocated, IpcPerm.init, bne_iff_ne, ne_eq]
  intro zero
  rw [zero] at bit
  simp at bit

/-- The entry that `ipcget` finds is in use, with the key. -/
theorem ipcget_found (result : ipcget perms cnt key flag cr = .ok (i, none)) :
    i < cnt ∧ (perms i).allocated = true ∧ (perms i).key = key := by
  simp only [ipcget] at result
  split at result
  · split at result <;> simp at result
  split at result
  next j found =>
    obtain ⟨small, test⟩ := firstEntry_eq_some found
    split at result
    · cases result
    split at result
    · cases result
    cases result
    rw [Bool.and_eq_true, beq_iff_eq] at test
    exact ⟨small, test⟩
  · split at result
    · cases result
    split at result <;> simp at result

theorem ipcget_fresh {perm : IpcPerm} (result : ipcget perms cnt key flag cr = .ok (i, some perm))
    (shared : key ≠ 0) {j : Nat} (small : j < cnt) (used : (perms j).allocated = true) :
    (perms j).key ≠ key := by
  intro same
  simp only [ipcget, if_neg shared] at result
  split at result
  · split_ifs at result
    simp at result
  next absent =>
    have unused := find?_eq_none.1 absent j (mem_range.2 small)
    simp [used, same] at unused

end Ipc
end Sol25
