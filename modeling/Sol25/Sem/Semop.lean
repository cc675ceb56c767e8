import Mathlib.Data.BitVec
import Sol25.Sem.Pool

/-!
# Operations of `semop`

One operation of a `semop` pass, its inverse in `semundo`, and their effect on the values and on
the recorded adjustments.  `semval` and `sem_op` are sixteen-bit quantities, so an operation and
its inverse cancel exactly.
-/

namespace Sol25.Sem

open Function BitVec

/-- One `struct sembuf`. -/
structure Sembuf where
  /-- `sem_num`: the semaphore number. -/
  num : Nat
  /-- `sem_op`: the operation, read as a signed value. -/
  op : BitVec 16
  /-- `IPC_NOWAIT` in `sem_flg`. -/
  nowait : Bool
  /-- `SEM_UNDO` in `sem_flg`. -/
  undo : Bool
deriving DecidableEq, Repr

/-- The condition variable a process sleeps on. -/
inductive Queue
  /-- `semncnt_cv`: waiting for a greater value. -/
  | semncnt
  /-- `semzcnt_cv`: waiting for zero. -/
  | semzcnt
deriving DecidableEq, Repr

/-- A wake-up sent to the sleepers of a semaphore. -/
inductive Wake
  | signal (queue : Queue) (num : Nat)
  | broadcast (queue : Queue) (num : Nat)
deriving DecidableEq, Repr

/-- One `struct sem`. -/
structure Sema where
  /-- `semval`: the value. -/
  semval : BitVec 16
  /-- `semncnt`: the number of sleepers waiting for a greater value. -/
  semncnt : Nat
  /-- `semzcnt`: the number of sleepers waiting for zero. -/
  semzcnt : Nat
deriving DecidableEq, Repr

def Sema.count (sema : Sema) : Queue → Nat
  | .semncnt => sema.semncnt
  | .semzcnt => sema.semzcnt

/-- Replace the counter that goes with a queue. -/
def Sema.setCount (sema : Sema) (queue : Queue) (count : Nat) : Sema :=
  match queue with
  | .semncnt => { sema with semncnt := count }
  | .semzcnt => { sema with semzcnt := count }

/-- Wake one sleeper of a queue, or all of them; the counter follows. -/
def Sema.wake (sema : Sema) (queue : Queue) (num : Nat) (signal : Bool) : Sema × List Wake :=
  if sema.count queue = 0 then
    (sema, [])
  else if signal then
    (sema.setCount queue (sema.count queue - 1), [.signal queue num])
  else
    (sema.setCount queue 0, [.broadcast queue num])

structure SemSet where
  /-- `sem_nsems`: the number of semaphores. -/
  nsems : Nat
  /-- `sem_binary`: no operation below `-1` has waited. -/
  binary : Bool
  /-- The semaphores from `sem_base` on. -/
  sem : Nat → Sema

/-- `binary_type`: a single semaphore on which nobody waited for more than one. -/
def SemSet.binaryType (set : SemSet) : Bool := set.binary && set.nsems == 1

/-- Replace one semaphore. -/
def SemSet.put (set : SemSet) (num : Nat) (sema : Sema) : SemSet :=
  { set with sem := update set.sem num sema }

/-- Why a pass stops before the end of the array. -/
inductive Stop
  /-- The call fails. -/
  | error (errno : Errno)
  /-- The call must wait on a queue of the semaphore of its operation. -/
  | sleep (queue : Queue)
deriving DecidableEq, Repr

/-- The result of one operation. -/
inductive Outcome
  | next (set : SemSet) (pool : Pool) (wakes : List Wake)
  | stop (reason : Stop) (pool : Pool)

/-- The call of `semaoe` that an operation makes if it has `SEM_UNDO`. -/
def Sembuf.semaoe (op : Sembuf) (tuning : Tuning) (pool : Pool) (p : Nat) (id : Int) :
    Option Errno × Pool :=
  if op.undo then Sem.semaoe tuning pool p op.op.toInt id op.num else (none, pool)

/-- An increment of a value, with the wake-ups that follow it. -/
def Sema.raise (sema : Sema) (op : Sembuf) (binaryType : Bool) : Sema × List Wake :=
  let signal := op.op == 1 && binaryType
  let raised := { sema with semval := sema.semval + op.op }
  let (greater, wakes) := raised.wake .semncnt op.num signal
  if greater.semval = 0 then
    let (zero, more) := greater.wake .semzcnt op.num signal
    (zero, wakes ++ more)
  else
    (greater, wakes)

/-- A decrement of a value, with the wake-ups that follow it. -/
def Sema.lower (sema : Sema) (op : Sembuf) : Sema × List Wake :=
  let lowered := { sema with semval := sema.semval + op.op }
  if lowered.semval = 0 then lowered.wake .semzcnt op.num false else (lowered, [])

/-- One iteration of the loop of `semop`. -/
def semopOne (tuning : Tuning) (p : Nat) (id : Int) (binaryType : Bool) (set : SemSet)
    (pool : Pool) (op : Sembuf) : Outcome :=
  let sema := set.sem op.num
  let wait := fun queue => if op.nowait then Stop.error .eagain else Stop.sleep queue
  if 0 < op.op.toInt then
    if (tuning.semvmx : Int) < op.op.toInt + sema.semval.toNat then
      .stop (.error .erange) pool
    else
      match op.semaoe tuning pool p id with
      | (some errno, after) => .stop (.error errno) after
      | (none, after) =>
        let (raised, wakes) := sema.raise op binaryType
        .next (set.put op.num raised) after wakes
  else if op.op.toInt < 0 then
    if -op.op.toInt ≤ sema.semval.toNat then
      match op.semaoe tuning pool p id with
      | (some errno, after) => .stop (.error errno) after
      | (none, after) =>
        let (lowered, wakes) := sema.lower op
        .next (set.put op.num lowered) after wakes
    else
      .stop (wait .semncnt) pool
  else if sema.semval ≠ 0 then
    .stop (wait .semzcnt) pool
  else
    .next set pool []

/-- One iteration of the loop of `semundo`; what `semaoe` returns is ignored. -/
def semundoOne (tuning : Tuning) (p : Nat) (id : Int) (set : SemSet) (pool : Pool) (op : Sembuf) :
    SemSet × Pool :=
  if op.op = 0 then
    (set, pool)
  else
    let sema := set.sem op.num
    (set.put op.num { sema with semval := sema.semval - op.op },
      if op.undo then (semaoe tuning pool p (-op.op).toInt id op.num).2 else pool)

/-- `semundo`: the operations that were done are undone, the last one first. -/
def semundo (tuning : Tuning) (p : Nat) (id : Int) : List Sembuf → SemSet → Pool → SemSet × Pool
  | [], set, pool => (set, pool)
  | op :: earlier, set, pool =>
    let (set', pool') := semundoOne tuning p id set pool op
    semundo tuning p id earlier set' pool'

/-- How the loop of `semop` ends. -/
inductive LoopEnd
  /-- All operations are done. -/
  | completed (set : SemSet) (pool : Pool) (wakes : List Wake)
  /-- An operation stopped the pass, and those before it have been undone. -/
  | stopped (reason : Stop) (op : Sembuf) (set : SemSet) (pool : Pool) (wakes : List Wake)

/-- The loop of `semop`, run without interruption: `done` are the operations done, the last one
first. -/
def semopLoop (tuning : Tuning) (p : Nat) (id : Int) (binaryType : Bool) :
    List Sembuf → List Sembuf → SemSet → Pool → List Wake → LoopEnd
  | _, [], set, pool, wakes => .completed set pool wakes
  | done, op :: todo, set, pool, wakes =>
    match semopOne tuning p id binaryType set pool op with
    | .next set' pool' more =>
      semopLoop tuning p id binaryType (op :: done) todo set' pool' (wakes ++ more)
    | .stop reason pool' =>
      let (set'', pool'') := semundo tuning p id done set pool'
      .stopped reason op set'' pool'' wakes

/-- Go to sleep on a queue: the counter is a `ushort`, and waiting for more than one marks the set
as not binary. -/
def SemSet.sleep (set : SemSet) (op : Sembuf) (queue : Queue) : SemSet :=
  let sema := set.sem op.num
  { set.put op.num (sema.setCount queue ((sema.count queue + 1) % 2 ^ 16)) with
    binary := set.binary && !(queue == .semncnt && op.op.toInt < -1) }

/-- What a sleeper does to the counter of its queue when a signal interrupts it. -/
def Sema.interrupt (sema : Sema) (queue : Queue) (num : Nat) : Sema × List Wake :=
  if sema.count queue ≤ 1 then
    (sema.setCount queue 0, [.broadcast queue num])
  else
    (sema.setCount queue (sema.count queue - 1), [])

/-- Set a value, as `SETVAL` and `SETALL` do. -/
def Sema.assign (sema : Sema) (value : BitVec 16) (num : Nat) : Sema × List Wake :=
  let assigned := { sema with semval := value }
  if value ≠ 0 then assigned.wake .semncnt num false else assigned.wake .semzcnt num false

/-- Add an adjust-on-exit value, as `semexit` does, unless the result is out of range. -/
def Sema.adjust (tuning : Tuning) (sema : Sema) (aoe : Int) (num : Nat) : Sema × List Wake :=
  let v := sema.semval.toNat + aoe
  if v < 0 ∨ (tuning.semvmx : Int) < v then
    (sema, [])
  else
    let adjusted := { sema with semval := BitVec.ofInt 16 v }
    let (zero, wakes) := if v = 0 then adjusted.wake .semzcnt num false else (adjusted, [])
    let (greater, more) := if 0 < aoe then zero.wake .semncnt num false else (zero, [])
    (greater, wakes ++ more)

/-! ## Signed and unsigned values -/

theorem short_sub_short (left right : Int) : short (left - short right) = short (left - right) := by
  simp [short]

theorem short_short_sub (left right : Int) : short (short left - right) = short (left - right) := by
  simp [short]

theorem toInt_neg_eq (value : BitVec 16) : (-value).toInt = short (-value.toInt) := by
  rw [toInt_neg, short]

/-! ## What one operation does -/

section Effect

variable {tuning : Tuning} {p : Nat} {id : Int} {set set' : SemSet} {pool pool' : Pool}
  {op : Sembuf} {binaryType : Bool} {wakes : List Wake} {reason : Stop}

@[simp]
theorem Sema.setCount_semval (sema : Sema) (queue : Queue) (count : Nat) :
    (sema.setCount queue count).semval = sema.semval := by
  cases queue <;> rfl

@[simp]
theorem Sema.wake_semval (sema : Sema) (queue : Queue) (num : Nat) (signal : Bool) :
    (sema.wake queue num signal).1.semval = sema.semval := by
  unfold Sema.wake
  split
  · rfl
  · split <;> simp

@[simp]
theorem Sema.raise_semval (sema : Sema) (op : Sembuf) (binaryType : Bool) :
    (sema.raise op binaryType).1.semval = sema.semval + op.op := by
  unfold Sema.raise
  simp only
  split <;> simp

@[simp]
theorem Sema.lower_semval (sema : Sema) (op : Sembuf) :
    (sema.lower op).1.semval = sema.semval + op.op := by
  unfold Sema.lower
  simp only
  split <;> simp

theorem SemSet.put_nsems (set : SemSet) (num : Nat) (sema : Sema) :
    (set.put num sema).nsems = set.nsems := rfl

theorem SemSet.put_sem (set : SemSet) (num : Nat) (sema : Sema) (n : Nat) :
    (set.put num sema).sem n = if n = num then sema else set.sem n := by
  simp [SemSet.put, update_apply]

/-- What an operation needs of the value of its semaphore in order to be done. -/
def Sembuf.Fits (tuning : Tuning) (value : BitVec 16) (op : Sembuf) : Prop :=
  if 0 < op.op.toInt then op.op.toInt + value.toNat ≤ tuning.semvmx
  else -op.op.toInt ≤ value.toNat ∧ (op.op = 0 → value = 0)

instance (tuning : Tuning) (value : BitVec 16) (op : Sembuf) : Decidable (op.Fits tuning value) :=
  if positive : 0 < op.op.toInt then
    decidable_of_iff (op.op.toInt + value.toNat ≤ tuning.semvmx) (by
      rw [Sembuf.Fits, if_pos positive])
  else
    decidable_of_iff (-op.op.toInt ≤ value.toNat ∧ (op.op = 0 → value = 0)) (by
      rw [Sembuf.Fits, if_neg positive])

/-- What an operation needs in order to be done. -/
def Ready (tuning : Tuning) (set : SemSet) (op : Sembuf) : Prop :=
  op.Fits tuning (set.sem op.num).semval

/-- The semaphore an operation leaves behind, with the wake-ups. -/
def Sembuf.apply (op : Sembuf) (binaryType : Bool) (sema : Sema) : Sema × List Wake :=
  if 0 < op.op.toInt then sema.raise op binaryType
  else if op.op.toInt < 0 then sema.lower op
  else (sema, [])

/-- Why an operation that is not ready stops the pass. -/
def Sembuf.refusal (op : Sembuf) : Stop :=
  if 0 < op.op.toInt then .error .erange
  else if op.nowait then .error .eagain
  else if op.op = 0 then .sleep .semzcnt
  else .sleep .semncnt

theorem toInt_eq_zero {value : BitVec 16} (upper : ¬ 0 < value.toInt) (lower : ¬ value.toInt < 0) :
    value = 0 := by
  apply eq_of_toInt_eq
  simp
  omega

/-- The two ways an operation ends: it is done, or it stops the pass and changes no value. -/
theorem semopOne_cases (tuning : Tuning) (p : Nat) (id : Int) (binaryType : Bool) (set : SemSet)
    (pool : Pool) (op : Sembuf) :
    (∃ after, Ready tuning set op ∧ op.semaoe tuning pool p id = (none, after) ∧
      semopOne tuning p id binaryType set pool op =
        .next (set.put op.num (op.apply binaryType (set.sem op.num)).1) after
          (op.apply binaryType (set.sem op.num)).2) ∨
    (∃ errno after, op.semaoe tuning pool p id = (some errno, after) ∧
      semopOne tuning p id binaryType set pool op = .stop (.error errno) after) ∨
    (¬ Ready tuning set op ∧
      semopOne tuning p id binaryType set pool op = .stop op.refusal pool) := by
  simp only [semopOne, Ready, Sembuf.Fits, Sembuf.apply, Sembuf.refusal]
  by_cases positive : 0 < op.op.toInt
  · simp only [if_pos positive]
    by_cases overflow : (tuning.semvmx : Int) < op.op.toInt + (set.sem op.num).semval.toNat
    · exact .inr (.inr ⟨by omega, by rw [if_pos overflow]⟩)
    · rw [if_neg overflow]
      rcases call : op.semaoe tuning pool p id with ⟨_ | errno, after⟩
      · exact .inl ⟨after, by omega, rfl, rfl⟩
      · exact .inr (.inl ⟨errno, after, rfl, rfl⟩)
  by_cases negative : op.op.toInt < 0
  · simp only [if_neg positive, if_pos negative]
    have nonzero : op.op ≠ 0 := by
      intro zero
      simp [zero] at negative
    by_cases enough : -op.op.toInt ≤ (set.sem op.num).semval.toNat
    · rw [if_pos enough]
      rcases call : op.semaoe tuning pool p id with ⟨_ | errno, after⟩
      · exact .inl ⟨after, ⟨enough, fun zero => absurd zero nonzero⟩, rfl, rfl⟩
      · exact .inr (.inl ⟨errno, after, rfl, rfl⟩)
    · rw [if_neg enough]
      exact .inr (.inr ⟨fun ready => enough ready.1, by rw [if_neg nonzero]⟩)
  · have zero := toInt_eq_zero positive negative
    simp only [if_neg positive, if_neg negative]
    by_cases value : (set.sem op.num).semval = 0
    · refine .inl ⟨pool, ⟨by omega, fun _ => value⟩, ?_, ?_⟩
      · cases undo : op.undo <;> simp [Sembuf.semaoe, undo, zero, Sem.semaoe]
      · simp [value, SemSet.put]
    · refine .inr (.inr ⟨fun ready => value (ready.2 zero), ?_⟩)
      rw [if_pos value, if_pos zero]

/-- The effect of an operation's call of `semaoe` on the pool. -/
theorem Sembuf.semaoe_spec (inv : PoolInv tuning pool) {errno : Option Errno}
    (result : op.semaoe tuning pool p id = (errno, pool')) :
    PoolInv tuning pool' ∧ (∀ q, pool.slot q ≠ none → pool'.slot q = pool.slot q) ∧
      ∀ q id' num', record pool' q id' num' =
        if errno = none ∧ op.undo ∧ q = p ∧ id' = id ∧ num' = op.num then
          short (record pool p id op.num - op.op.toInt)
        else record pool q id' num' := by
  cases undo : op.undo with
  | false =>
    simp only [Sembuf.semaoe, undo, Bool.false_eq_true, if_false, Prod.mk.injEq] at result
    obtain ⟨-, rfl⟩ := result
    exact ⟨inv, fun _ _ => rfl, by simp⟩
  | true =>
    simp only [Sembuf.semaoe, undo, if_true] at result
    have spec := @Sem.semaoe_spec tuning pool p op.op.toInt id op.num inv (short_toInt op.op)
    rw [result] at spec
    simpa using spec

theorem Sembuf.semaoe_failed_tables (inv : PoolInv tuning pool) {errno : Errno}
    (result : op.semaoe tuning pool p id = (some errno, pool')) (q : Nat) :
    pool'.table q = pool.table q := by
  cases undo : op.undo with
  | false => simp [Sembuf.semaoe, undo] at result
  | true =>
    simp only [Sembuf.semaoe, undo, if_true] at result
    have spec := @semaoe_tables tuning pool p op.op.toInt id op.num inv (short_toInt op.op)
    rw [result] at spec
    rcases spec.2.2 with ⟨-, tables⟩ | ⟨done, -⟩
    · exact tables q
    · cases done

theorem Sembuf.apply_semval (op : Sembuf) (binaryType : Bool) (sema : Sema) :
    (op.apply binaryType sema).1.semval = sema.semval + op.op := by
  unfold Sembuf.apply
  split
  · simp
  split
  · simp
  · rename_i upper lower
    simp [toInt_eq_zero upper lower]

theorem toNat_add_toInt {value op : BitVec 16} (low : 0 ≤ value.toNat + op.toInt)
    (high : value.toNat + op.toInt < 2 ^ 16) :
    ((value + op).toNat : Int) = value.toNat + op.toInt := by
  rw [toNat_add]
  rw [toInt_eq_toNat_cond] at *
  have := value.isLt
  have := op.isLt
  split at low <;> omega

theorem Sembuf.Fits.toNat {value : BitVec 16} (fits : op.Fits tuning value)
    (small : tuning.semvmx ≤ 0xffff) :
    ((value + op.op).toNat : Int) = value.toNat + op.op.toInt := by
  have := value.isLt
  apply toNat_add_toInt
  · unfold Sembuf.Fits at fits
    split at fits <;> omega
  · unfold Sembuf.Fits at fits
    split at fits <;> omega

theorem Sembuf.Fits.toNat_le {value : BitVec 16} (fits : op.Fits tuning value)
    (small : tuning.semvmx ≤ 0xffff) (bounded : value.toNat ≤ tuning.semvmx) :
    (value + op.op).toNat ≤ tuning.semvmx := by
  have exact := fits.toNat small
  unfold Sembuf.Fits at fits
  split at fits <;> omega

end Effect

/-- Every value is within the tunable maximum. -/
def SemSet.Bounded (tuning : Tuning) (set : SemSet) : Prop :=
  ∀ num, (set.sem num).semval.toNat ≤ tuning.semvmx

/-- Two sets have the same values. -/
def SemSet.SameVals (set set' : SemSet) : Prop :=
  ∀ num, (set.sem num).semval = (set'.sem num).semval

theorem SemSet.SameVals.bounded {tuning : Tuning} {set set' : SemSet} (same : set.SameVals set')
    (bounded : set'.Bounded tuning) : set.Bounded tuning := by
  intro num
  rw [same num]
  exact bounded num

theorem SemSet.sleep_sameVals (set : SemSet) (op : Sembuf) (queue : Queue) :
    (set.sleep op queue).SameVals set := by
  intro num
  simp only [SemSet.sleep, SemSet.put, update_apply]
  split
  · rename_i here
    rw [here, Sema.setCount_semval]
  · rfl

theorem Sema.assign_semval (sema : Sema) (value : BitVec 16) (num : Nat) :
    (sema.assign value num).1.semval = value := by
  unfold Sema.assign
  simp only
  split <;> simp

/-! ## Sums over the operations done -/

/-- What a list of operations adds to the value of a semaphore. -/
def netVal : List Sembuf → Nat → BitVec 16
  | [], _ => 0
  | op :: rest, num => netVal rest num + if op.num = num then op.op else 0

/-- The sum of the operations of a list on a semaphore that have `SEM_UNDO`. -/
def netUndo : List Sembuf → Nat → Int
  | [], _ => 0
  | op :: rest, num => netUndo rest num + if op.undo ∧ op.num = num then op.op.toInt else 0

end Sol25.Sem
