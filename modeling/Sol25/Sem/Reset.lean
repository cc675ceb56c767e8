import Sol25.Sem.Accounting

/-!
# Resetting semaphores

`SETVAL`, `SETALL` and `IPC_RMID` clear the undo entries that are kept under the identifier the
caller passed.  `semconv` does not look at bit 31, so that every set has two identifiers, and the
entries kept under the other one stay.
-/

namespace Sol25.Sem

open Ipc BitVec

variable {tuning : Tuning} {pool pool' : Pool} {p : Nat} {id : Int}

/-- The state after a history from `_init` on. -/
def Kernel.run (tuning : Tuning) (events : List Event) : Kernel :=
  events.foldl (Kernel.step tuning) (Kernel.initial tuning)

/-! ## What a call does to the tables -/

/-- Only the records of one identifier may differ. -/
structure Keeps (tuning : Tuning) (id : Int) (pool pool' : Pool) : Prop where
  inv : PoolInv tuning pool'
  others : ∀ q id' num, id' ≠ id → record pool' q id' num = record pool q id' num

theorem Keeps.refl (inv : PoolInv tuning pool) : Keeps tuning id pool pool :=
  ⟨inv, fun _ _ _ _ => rfl⟩

theorem Keeps.trans {middle : Pool} (first : Keeps tuning id pool middle)
    (second : Keeps tuning id middle pool') : Keeps tuning id pool pool' :=
  ⟨second.inv, fun q id' num other => (second.others q id' num other).trans
    (first.others q id' num other)⟩

theorem semaoe_keeps (inv : PoolInv tuning pool) (val : BitVec 16) (num : Nat) :
    Keeps tuning id pool (semaoe tuning pool p val.toInt id num).2 := by
  obtain ⟨inv', -, records⟩ := @semaoe_spec tuning pool p val.toInt id num inv (short_toInt val)
  exact ⟨inv', fun q id' num' other => by rw [records, if_neg fun here => other here.2.2.1]⟩

theorem Sembuf.semaoe_keeps (inv : PoolInv tuning pool) (op : Sembuf) :
    Keeps tuning id pool (op.semaoe tuning pool p id).2 := by
  rw [Sembuf.semaoe]
  split
  · exact Sem.semaoe_keeps inv op.op op.num
  · exact .refl inv

theorem semundo_keeps (inv : PoolInv tuning pool) (done : List Sembuf) (set : SemSet) :
    Keeps tuning id pool (semundo tuning p id done set pool).2 := by
  induction done generalizing set pool with
  | nil => exact .refl inv
  | cons op earlier ih =>
    have one : Keeps tuning id pool (semundoOne tuning p id set pool op).2 := by
      rw [semundoOne]
      split
      · exact .refl inv
      · dsimp only
        split
        · exact Sem.semaoe_keeps inv (-op.op) op.num
        · exact .refl inv
    exact one.trans (ih one.inv _)

/-- The pool at the end of the loop of `semop`. -/
def LoopEnd.after : LoopEnd → Pool
  | .completed _ pool _ => pool
  | .stopped _ _ _ pool _ => pool

theorem semopLoop_keeps (inv : PoolInv tuning pool) (binaryType : Bool) (done todo : List Sembuf)
    (set : SemSet) (wakes : List Wake) :
    Keeps tuning id pool (semopLoop tuning p id binaryType done todo set pool wakes).after := by
  induction todo generalizing done set pool wakes with
  | nil => exact .refl inv
  | cons op todo ih =>
    have one : Keeps tuning id pool (op.semaoe tuning pool p id).2 := op.semaoe_keeps inv
    rw [semopLoop]
    rcases semopOne_cases tuning p id binaryType set pool op with
      ⟨after, -, call, outcome⟩ | ⟨errno, after, call, outcome⟩ | ⟨-, outcome⟩
    · rw [call] at one
      rw [outcome]
      exact one.trans (ih one.inv _ _ _)
    · rw [call] at one
      rw [outcome]
      exact one.trans (semundo_keeps one.inv done set)
    · rw [outcome]
      exact semundo_keeps inv done set

theorem semop_keeps {kernel : Kernel} (inv : PoolInv tuning kernel.pool) (cr : Cred) (again : Bool)
    (ops : List Sembuf) :
    Keeps tuning id kernel.pool (semop tuning kernel p cr again id ops).2.pool := by
  rw [semop]
  split
  · exact .refl inv
  split
  · exact .refl inv
  cases semconv tuning kernel.sema id with
  | none => exact .refl inv
  | some index =>
    dsimp only
    cases verify (kernel.sema index) cr again ops with
    | some errno => exact .refl inv
    | none =>
      have loop := @semopLoop_keeps tuning kernel.pool p id inv
        (kernel.sema index).set.binaryType [] ops
        (kernel.sema index).set []
      dsimp only
      cases result : semopLoop tuning p id (kernel.sema index).set.binaryType [] ops
          (kernel.sema index).set kernel.pool [] with
      | completed set pool wakes =>
        rw [result] at loop
        exact loop
      | stopped reason op set pool wakes =>
        rw [result] at loop
        cases reason <;> exact loop

/-! ## Identifiers in the tables -/

/-- The call passes an identifier with some property to `semop`. -/
def Event.Passes (P : Int → Prop) : Event → Prop
  | .semop _ _ _ semid _ => P semid.toInt
  | _ => True

/-- Entries are kept only under identifiers with some property. -/
structure Under (tuning : Tuning) (P : Int → Prop) (pool : Pool) : Prop where
  inv : PoolInv tuning pool
  ids : ∀ q id num, record pool q id num ≠ 0 → P id

variable {P : Int → Prop}

theorem Under.semunrm (under : Under tuning P pool) (id : Int) (low high : Nat) :
    Under tuning P (semunrm pool id low high) := by
  refine ⟨under.inv.semunrm id low high, fun q id' num recorded => ?_⟩
  rw [record_semunrm under.inv] at recorded
  split at recorded
  · exact absurd rfl recorded
  · exact under.ids q id' num recorded

theorem Under.release (under : Under tuning P pool) (q : Nat) :
    Under tuning P (pool.release q) := by
  refine ⟨under.inv.release q, fun q' id num recorded => ?_⟩
  rw [record_release under.inv] at recorded
  split at recorded
  · exact absurd rfl recorded
  · exact under.ids q' id num recorded

theorem Under.keeps (under : Under tuning P pool) (keeps : Keeps tuning id pool pool')
    (holds : P id) :
    Under tuning P pool' := by
  refine ⟨keeps.inv, fun q id' num recorded => ?_⟩
  by_cases same : id' = id
  · rwa [same]
  · rw [keeps.others q id' num same] at recorded
    exact under.ids q id' num recorded

variable {kernel : Kernel}

theorem semget_pool (cr : Cred) (key nsems : Int) (semflg : BitVec 32) (granted : Bool) :
    (semget tuning kernel cr key nsems semflg granted).2.pool = kernel.pool := by
  rw [semget]
  split
  · rfl
  · dsimp only
    split <;> rfl
  · dsimp only
    split
    · rfl
    · split <;> rfl

/-- A successful command clears entries that are kept under the identifier it was passed, or
none. -/
theorem semctl_pool (cr : Cred) (s : Int) (cmd : SemctlCmd) :
    (semctl tuning kernel cr s cmd).2.pool = kernel.pool ∨
      ∃ low high, (semctl tuning kernel cr s cmd).2.pool = semunrm kernel.pool s low high := by
  rw [semctl]
  cases semconv tuning kernel.sema s with
  | none => exact .inl rfl
  | some index =>
    dsimp only
    cases cmd with
    | rmid =>
      dsimp only
      split
      · exact .inl rfl
      · exact .inr ⟨_, _, rfl⟩
    | set uid gid mode =>
      dsimp only
      split
      · exact .inl rfl
      · split <;> exact .inl rfl
    | setval semnum arg =>
      dsimp only
      split
      · exact .inl rfl
      split
      · exact .inl rfl
      split
      · exact .inl rfl
      · exact .inr ⟨_, _, rfl⟩
    | setall vals =>
      dsimp only
      split
      · exact .inl rfl
      · exact .inl rfl
      split
      · exact .inl rfl
      · exact .inr ⟨_, _, rfl⟩

theorem Under.step (under : Under tuning P kernel.pool) {event : Event} (passes : event.Passes P) :
    Under tuning P (kernel.step tuning event).pool := by
  cases event with
  | semget cr key nsems semflg granted =>
    rw [Kernel.step, semget_pool]
    exact under
  | semop p cr again semid ops => exact under.keeps (semop_keeps under.inv cr again ops) passes
  | interrupt index queue num => exact under
  | semctl cr semid cmd =>
    rw [Kernel.step]
    rcases @semctl_pool tuning kernel cr semid.toInt cmd with same | ⟨low, high, cleared⟩
    · rw [same]
      exact under
    · rw [cleared]
      exact under.semunrm semid.toInt low high
  | semexit p =>
    rw [Kernel.step, Sem.semexit]
    split
    · exact under
    · exact under.release p

/-- One process raises the semaphore of a new set with `SEM_UNDO`, under some identifier. -/
def Event.raised (semid : BitVec 32) : List Event :=
  [.semget ⟨0, 0, []⟩ 0 1 0o600 true, .semop 0 ⟨0, 0, []⟩ false semid [⟨0, 1, false, true⟩]]

end Sol25.Sem
