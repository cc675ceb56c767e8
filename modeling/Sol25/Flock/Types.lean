import Mathlib.Data.Fin.Basic
import Sol25.Ipc.Perm

/-!
# Record locks: descriptors

The data of `sys/flock.h` and `sys/flock_impl.h` that the locking code looks at, and the macros
`SAME_OWNER`, `OVERLAP`, `BLOCKS` and `COVERS` that compare two lock descriptors.
-/

namespace Sol25

namespace Flock

/-- `u_off_t`: offsets are unsigned 32-bit numbers, and so are the sums made of them. -/
abbrev UOff := BitVec 32

/-- `MAX_U_OFF_T`, the end of a lock that reaches to the end of the file. -/
def maxUOffT : UOff := BitVec.allOnes 32

/-- `MAXEND`, the largest offset a local request may name. -/
def maxEnd : UOff := 0x7fffffff

/-- An owner of locks: `l_flock.l_pid` and `l_flock.l_sysid`. -/
structure Owner where
  /-- `l_pid` -/
  pid : ℤ
  /-- `l_sysid`, 0 for this host -/
  sysid : ℤ
deriving DecidableEq, Repr

/-- `l_type` of a request; `other` is any value that `reclock` does not know. -/
inductive LockType
  /-- `F_RDLCK` -/
  | rdlck
  /-- `F_WRLCK` -/
  | wrlck
  /-- `F_UNLCK` -/
  | unlck
  /-- `F_UNLKSYS` -/
  | unlksys
  /-- anything else -/
  | other
deriving DecidableEq, Repr

/-- The part of a `lock_descriptor` that says what is locked, for whom and how. -/
structure Lock where
  /-- `l_vnode` -/
  vnode : ℕ
  /-- owner in `l_flock` -/
  owner : Owner
  /-- `l_type` -/
  type : LockType
  /-- `l_start`, the first byte -/
  start : UOff
  /-- `l_end`, the last byte -/
  stop : UOff
  /-- `IO_LOCK`: only asks whether an access is possible -/
  io : Bool
  /-- `WILLING_TO_SLEEP_LOCK` -/
  willing : Bool
  /-- `LOCKMGR_LOCK` -/
  lockmgr : Bool
deriving DecidableEq, Repr

/-- `HASH_INDEX`: the graph that holds the locks of a vnode. -/
def hashIndex (vp : ℕ) : Fin 32 := ⟨(vp >>> 7) % 32, Nat.mod_lt _ (by omega)⟩

def SameOwner (lock1 lock2 : Lock) : Prop := lock1.owner = lock2.owner

instance (lock1 lock2 : Lock) : Decidable (SameOwner lock1 lock2) :=
  inferInstanceAs (Decidable (lock1.owner = lock2.owner))

def Overlap (lock1 lock2 : Lock) : Prop :=
  lock1.start ≤ lock2.start ∧ lock2.start ≤ lock1.stop ∨
    lock2.start ≤ lock1.start ∧ lock1.start ≤ lock2.stop

instance (lock1 lock2 : Lock) : Decidable (Overlap lock1 lock2) :=
  inferInstanceAs (Decidable (_ ∨ _))

def Blocks (lock1 lock2 : Lock) : Prop :=
  ¬ SameOwner lock1 lock2 ∧ (lock1.type = .wrlck ∨ lock2.type = .wrlck) ∧ Overlap lock1 lock2

instance (lock1 lock2 : Lock) : Decidable (Blocks lock1 lock2) :=
  inferInstanceAs (Decidable (_ ∧ _))

def Covers (lock1 lock2 : Lock) : Prop := lock1.start ≤ lock2.start ∧ lock2.stop ≤ lock1.stop

instance (lock1 lock2 : Lock) : Decidable (Covers lock1 lock2) :=
  inferInstanceAs (Decidable (_ ∧ _))

/-- The range of a lock is not empty. -/
def Lock.Nonempty (lock : Lock) : Prop := lock.start ≤ lock.stop

instance (lock : Lock) : Decidable lock.Nonempty :=
  inferInstanceAs (Decidable (lock.start ≤ lock.stop))

/-- A byte offset lies in the range of a lock. -/
def Lock.Has (lock : Lock) (byte : UOff) : Prop := lock.start ≤ byte ∧ byte ≤ lock.stop

instance (lock : Lock) (byte : UOff) : Decidable (lock.Has byte) :=
  inferInstanceAs (Decidable (_ ∧ _))

end Flock

end Sol25
