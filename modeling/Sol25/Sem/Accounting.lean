import Sol25.Sem.Kernel

/-!
# Undo accounting

Over whole histories of the facility, what a process has recorded for a semaphore is minus the sum
of the operations with `SEM_UNDO` it completed there since the semaphore was created or set.
`un_aoe` is a `short` that is changed before its range is tested, so this needs tunables under
which the change cannot wrap round into the accepted range.
-/

namespace Sol25.Sem

open Ipc Function List Option

/-- `un_aoe -= val` cannot wrap round into the accepted range. -/
def Tuning.NoWrap (tuning : Tuning) : Prop :=
  2 * tuning.semaem + min tuning.semaem tuning.semvmx < 2 ^ 16

instance (tuning : Tuning) : Decidable tuning.NoWrap :=
  inferInstanceAs (Decidable (_ < _))

/-! ## The loop of `semop` -/

section Loop

variable {tuning : Tuning} {p : Nat} {id : Int} {binaryType : Bool} {set set' : SemSet}
  {pool pool' : Pool} {op : Sembuf}

theorem Ready.abs_le (ready : Ready tuning set op) (bounded : set.Bounded tuning) :
    -(tuning.semvmx : Int) ≤ op.op.toInt ∧ op.op.toInt ≤ tuning.semvmx := by
  have before := bounded op.num
  unfold Ready Sembuf.Fits at ready
  split at ready <;> omega

variable {cr : Cred} {s : Int} {done ops : List Sembuf} {entries : List Undo} {wakes : List Wake}
  {i : Nat} {tuning : Tuning} {entry : Undo}

/-- Doing one operation subtracts exactly its value from the record of the process. -/
theorem semopOne_exact (noWrap : tuning.NoWrap) (small : tuning.semvmx ≤ 0x7fff)
    (inv : PoolInv tuning pool) (bounded : set.Bounded tuning)
    (result : semopOne tuning p id binaryType set pool op = .next set' pool' wakes) :
    PoolInv tuning pool' ∧ set'.Bounded tuning ∧ set'.nsems = set.nsems ∧
      ∀ q id' num, record pool' q id' num = record pool q id' num -
        if q = p ∧ id' = id ∧ op.undo ∧ op.num = num then op.op.toInt else 0 := by
  rcases semopOne_cases tuning p id binaryType set pool op with
    ⟨after, ready, call, outcome⟩ | ⟨errno, after, call, outcome⟩ | ⟨-, outcome⟩
  · rw [outcome] at result
    injection result with set_eq pool_eq wakes_eq
    subst set_eq pool_eq
    obtain ⟨inv', -, records⟩ := Sembuf.semaoe_spec inv call
    refine ⟨inv', fun num => ?_, rfl, fun q id' num => ?_⟩
    · rw [SemSet.put_sem]
      split
      · rw [Sembuf.apply_semval]
        exact Sembuf.Fits.toNat_le ready (by omega) (bounded op.num)
      · exact bounded num
    · have exact := records q id' num
      rw [exact]
      by_cases here : q = p ∧ id' = id ∧ op.undo ∧ op.num = num
      · obtain ⟨rfl, rfl, undo, rfl⟩ := here
        simp only [undo, and_self, if_true]
        -- The reduced result is in range, so the reduction did nothing.
        have old := inv.record_bounds q id' op.num
        have new := inv'.record_bounds q id' op.num
        have size := ready.abs_le bounded
        simp only [Sembuf.semaoe, undo, if_true] at call
        rw [exact] at new
        simp only [undo, and_self, if_true] at new
        by_cases zero : op.op.toInt = 0
        · rw [zero, Int.sub_zero, inv.short_record]
        · have range := (semaoe_success inv (short_toInt op.op) (congrArg Prod.fst call) zero).2
          unfold Tuning.NoWrap at noWrap
          unfold short at new ⊢
          rw [Int.bmod_def] at new ⊢
          omega
      · rw [if_neg here, if_neg, Int.sub_zero]
        rintro ⟨-, undo, rfl, rfl, rfl⟩
        exact here ⟨rfl, rfl, undo, rfl⟩
  · simp [outcome] at result
  · simp [outcome] at result

/-- A completed loop has recorded exactly the sums of its operations. -/
theorem semopLoop_completed (noWrap : tuning.NoWrap) (small : tuning.semvmx ≤ 0x7fff)
    {todo : List Sembuf} {wakes' : List Wake} (inv : PoolInv tuning pool)
    (bounded : set.Bounded tuning)
    (result : semopLoop tuning p id binaryType done todo set pool wakes =
      .completed set' pool' wakes') :
    PoolInv tuning pool' ∧ set'.Bounded tuning ∧ set'.nsems = set.nsems ∧
      ∀ q id' num, record pool' q id' num = record pool q id' num -
        if q = p ∧ id' = id then netUndo todo num else 0 := by
  induction todo generalizing done set pool wakes with
  | nil =>
    injection result with set_eq pool_eq
    subst set_eq pool_eq
    exact ⟨inv, bounded, rfl, by simp [netUndo]⟩
  | cons op todo ih =>
    rw [semopLoop] at result
    cases outcome : semopOne tuning p id binaryType set pool op with
    | stop reason pool'' => simp [outcome] at result
    | next set'' pool'' more =>
      rw [outcome] at result
      obtain ⟨inv'', bounded'', nsems'', records''⟩ :=
        semopOne_exact noWrap small inv bounded outcome
      obtain ⟨inv', bounded', nsems', records'⟩ := ih inv'' bounded'' result
      refine ⟨inv', bounded', nsems'.trans nsems'', fun q id' num => ?_⟩
      rw [records', records'', netUndo]
      by_cases here : q = p ∧ id' = id
      · obtain ⟨rfl, rfl⟩ := here
        simp only [and_self, true_and, if_true]
        omega
      · rw [if_neg here, if_neg here, if_neg fun same => here ⟨same.1, same.2.1⟩]
        omega

/-- Undoing the operations `done` from a state with given values and tables leads back to the
values of `start` and the tables of `origin`. -/
def Undoes (tuning : Tuning) (p : Nat) (id : Int) (done : List Sembuf) (set : SemSet) (pool : Pool)
    (start : SemSet) (origin : Pool) : Prop :=
  ∀ set' pool', PoolInv tuning pool' → (∀ q, pool'.table q = pool.table q) →
    (pool.slot p ≠ none → pool'.slot p ≠ none) → set'.SameVals set →
    PoolInv tuning (semundo tuning p id done set' pool').2 ∧
      (∀ q, (semundo tuning p id done set' pool').2.table q = origin.table q) ∧
      (semundo tuning p id done set' pool').1.SameVals start ∧
      (semundo tuning p id done set' pool').1.nsems = set'.nsems

theorem Undoes.nil : Undoes tuning p id [] set pool set pool :=
  fun _ _ inv tables _ vals => ⟨inv, tables, vals, rfl⟩

/-- One more operation done is one more operation that can be undone. -/
theorem Undoes.cons {start : SemSet} {origin after : Pool}
    (undoes : Undoes tuning p id done set pool start origin) (inv : PoolInv tuning pool)
    (call : op.semaoe tuning pool p id = (none, after)) :
    Undoes tuning p id (op :: done) (set.put op.num (op.apply binaryType (set.sem op.num)).1) after
      start origin := by
  intro set' pool' inv' tables slot vals
  obtain ⟨-, slots, -⟩ := Sembuf.semaoe_spec inv call
  have vals_before : (semundoOne tuning p id set' pool' op).1.SameVals set := by
    intro num
    have value := vals num
    rw [SemSet.put_sem] at value
    unfold semundoOne
    by_cases zero : op.op = 0
    · rw [if_pos zero, value]
      split
      · rename_i here
        rw [Sembuf.apply_semval, zero, here]
        exact add_zero _
      · rfl
    · rw [if_neg zero]
      simp only [SemSet.put_sem]
      by_cases here : num = op.num
      · subst here
        rw [if_pos rfl, Sembuf.apply_semval] at value
        simp [value]
      · rw [if_neg here] at value
        rw [if_neg here, value]
  have pool_before : PoolInv tuning (semundoOne tuning p id set' pool' op).2 ∧
      (∀ q, (semundoOne tuning p id set' pool' op).2.table q = pool.table q) ∧
      (pool.slot p ≠ none → (semundoOne tuning p id set' pool' op).2.slot p ≠ none) := by
    unfold semundoOne
    by_cases zero : op.op = 0
    · rw [if_pos zero]
      have unchanged : after = pool := by
        cases undo : op.undo <;> simp [Sembuf.semaoe, undo, zero, semaoe] at call <;>
          exact call.symm
      rw [unchanged] at tables slot
      exact ⟨inv', tables, slot⟩
    rw [if_neg zero]
    have nonzero : op.op.toInt ≠ 0 := fun same => zero (BitVec.eq_of_toInt_eq (by simpa using same))
    cases undo : op.undo with
    | false =>
      have unchanged : after = pool := by
        simp only [Sembuf.semaoe, undo, Bool.false_eq_true, if_false, Prod.mk.injEq] at call
        exact call.2.symm
      rw [unchanged] at tables slot
      exact ⟨inv', tables, slot⟩
    | true =>
      simp only [Sembuf.semaoe, undo, if_true] at call
      have held := (semaoe_success inv (short_toInt op.op) (congrArg Prod.fst call) nonzero).1
      rw [call] at held
      obtain ⟨inv'', slots'', -⟩ := @semaoe_tables tuning pool' p (-op.op).toInt id op.num inv'
        (short_toInt _)
      simp only [if_true]
      refine ⟨inv'', fun q => ?_, fun _ => slots'' p (slot held) ▸ slot held⟩
      rw [toInt_neg_eq]
      refine semaoe_undo inv (short_toInt op.op) (congrArg Prod.fst call) inv'
        (fun _ => slot held) (fun q => ?_) q
      rw [call]
      exact tables q
  have nsems : (semundoOne tuning p id set' pool' op).1.nsems = set'.nsems := by
    unfold semundoOne
    split
    · rfl
    · rfl
  obtain ⟨result_inv, result_tables, result_vals, result_nsems⟩ :=
    undoes _ _ pool_before.1 pool_before.2.1 pool_before.2.2 vals_before
  exact ⟨result_inv, result_tables, result_vals, result_nsems.trans nsems⟩

/-- A loop that stops has restored all values and all tables. -/
theorem semopLoop_stopped {todo : List Sembuf} {wakes' : List Wake} {start : SemSet} {origin : Pool}
    {reason : Stop} (inv : PoolInv tuning pool)
    (undoes : Undoes tuning p id done set pool start origin)
    (result : semopLoop tuning p id binaryType done todo set pool wakes =
      .stopped reason op set' pool' wakes') :
    PoolInv tuning pool' ∧ (∀ q, pool'.table q = origin.table q) ∧ set'.SameVals start ∧
      set'.nsems = set.nsems := by
  induction todo generalizing done set pool wakes with
  | nil => simp [semopLoop] at result
  | cons first todo ih =>
    rw [semopLoop] at result
    rcases semopOne_cases tuning p id binaryType set pool first with
      ⟨after, -, call, outcome⟩ | ⟨errno, after, call, outcome⟩ | ⟨-, outcome⟩
    · rw [outcome] at result
      obtain ⟨inv'', -, -⟩ := Sembuf.semaoe_spec inv call
      have undoes' : Undoes tuning p id (first :: done)
          (set.put first.num (first.apply binaryType (set.sem first.num)).1) after start
          origin := undoes.cons inv call
      have rest := ih inv'' undoes' result
      exact rest
    · rw [outcome] at result
      injection result with _ _ set_eq pool_eq _
      subst set_eq pool_eq
      obtain ⟨inv'', slots, records⟩ := Sembuf.semaoe_spec inv call
      refine undoes set after inv'' (fun q => ?_) (fun held => slots p held ▸ held) fun _ => rfl
      exact Sembuf.semaoe_failed_tables inv call q
    · rw [outcome] at result
      injection result with _ _ set_eq pool_eq _
      subst set_eq pool_eq
      exact undoes set pool inv (fun _ => rfl) (fun held => held) fun _ => rfl

end Loop

/-! ## Identifiers -/

theorem semconv_eq_some {sema : Nat → SemidDs} {index : Nat}
    (found : semconv tuning sema s = some index) :
    index = semaIndex s ∧ index < tuning.semmni ∧ (sema index).perm.allocated = true ∧
      semaSeq s = (sema index).perm.seq := by
  simp only [semconv] at found
  split at found
  · rename_i holds
    injection found with index_eq
    subst index_eq
    exact ⟨rfl, holds⟩
  · cases found

theorem semidOf_of_semconv {sema : Nat → SemidDs} {s : BitVec 32} {index : Nat}
    (found : semconv tuning sema s.toInt = some index) (canonical : 0 ≤ s.toInt) :
    s.toInt = semidOf (sema index).perm.seq index := by
  obtain ⟨index_eq, -, -, seq_eq⟩ := semconv_eq_some found
  have bound := BitVec.toInt_lt (x := s)
  unfold semaIndex at index_eq
  unfold semaSeq at seq_eq
  unfold semidOf
  omega

theorem semconv_semidOf {sema : Nat → SemidDs} {index : Nat} (small : index < tuning.semmni)
    (allocated : (sema index).perm.allocated = true) (seq : (sema index).perm.seq ≤ 0x7fff) :
    semconv tuning sema (semidOf (sema index).perm.seq index) = some index := by
  have bound := tuning.semmni_le
  have index_eq : semaIndex (semidOf (sema index).perm.seq index) = index := by
    unfold semaIndex semidOf
    omega
  have seq_eq : semaSeq (semidOf (sema index).perm.seq index) = (sema index).perm.seq := by
    unfold semaSeq semidOf
    omega
  simp only [semconv, index_eq, seq_eq]
  rw [if_pos ⟨small, allocated, trivial⟩]

theorem semidOf_inj {seq seq' index index' : Nat} (small : index ≤ 0xffff)
    (small' : index' ≤ 0xffff) (same : semidOf seq index = semidOf seq' index') :
    index = index' := by
  unfold semidOf at same
  omega

/-! ## Sums over histories -/

/-- The facility together with, for each process and each semaphore of an entry, the sum of the
operations with `SEM_UNDO` that the process completed since the semaphore was created or set. -/
structure Ledger where
  kernel : Kernel
  owed : Nat → Nat → Nat → Int

/-- The sum for semaphore `num` of an entry and process `p` after an event that does not create the
entry. -/
def Ledger.settled (tuning : Tuning) (ledger : Ledger) (event : Event) (p index num : Nat) : Int :=
  match event with
  | .semop q cr again semid ops =>
    if p = q ∧ semconv tuning ledger.kernel.sema semid.toInt = some index ∧
        (semop tuning ledger.kernel q cr again semid.toInt ops).1 = .done then
      ledger.owed p index num + netUndo ops num
    else
      ledger.owed p index num
  | .semctl cr semid cmd =>
    if semconv tuning ledger.kernel.sema semid.toInt = some index ∧
        (semctl tuning ledger.kernel cr semid.toInt cmd).1 = none then
      match cmd with
      | .setval semnum _ => if num = semnum then 0 else ledger.owed p index num
      | .setall _ => 0
      | _ => ledger.owed p index num
    else
      ledger.owed p index num
  | .semexit q => if p = q then 0 else ledger.owed p index num
  | _ => ledger.owed p index num

/-- The sum after an event; creation starts it anew. -/
def Ledger.owedAfter (tuning : Tuning) (ledger : Ledger) (event : Event) (p index num : Nat) :
    Int :=
  if !(ledger.kernel.sema index).perm.allocated &&
      ((ledger.kernel.step tuning event).sema index).perm.allocated then
    0
  else
    ledger.settled tuning event p index num

/-- One event of the history. -/
def Ledger.step (tuning : Tuning) (ledger : Ledger) (event : Event) : Ledger :=
  ⟨ledger.kernel.step tuning event, ledger.owedAfter tuning event⟩

/-- The state after a history from `_init` on. -/
def Ledger.run (tuning : Tuning) (events : List Event) : Ledger :=
  events.foldl (Ledger.step tuning) ⟨Kernel.initial tuning, fun _ _ _ => 0⟩

/-- The identifier that a call passes is not negative. -/
def Event.Canonical : Event → Prop
  | .semop _ _ _ semid _ => 0 ≤ semid.toInt
  | .semctl _ semid _ => 0 ≤ semid.toInt
  | _ => True

/-- What holds of the facility and the sums after every event. -/
structure LedgerInv (tuning : Tuning) (ledger : Ledger) : Prop where
  pool : PoolInv tuning ledger.kernel.pool
  bounded : ∀ index, (ledger.kernel.sema index).set.Bounded tuning
  seq : ∀ index, (ledger.kernel.sema index).perm.seq ≤ 0x7fff
  /-- Everything recorded belongs to a semaphore that exists. -/
  live : ∀ p id num, record ledger.kernel.pool p id num ≠ 0 → ∃ index < tuning.semmni,
    (ledger.kernel.sema index).perm.allocated = true ∧
      id = semidOf (ledger.kernel.sema index).perm.seq index ∧
      num < (ledger.kernel.sema index).set.nsems
  /-- What is recorded is minus what was done. -/
  sum : ∀ p index num, index < tuning.semmni →
    (ledger.kernel.sema index).perm.allocated = true →
    record ledger.kernel.pool p (semidOf (ledger.kernel.sema index).perm.seq index) num =
      -ledger.owed p index num

theorem LedgerInv.initial (tuning : Tuning) :
    LedgerInv tuning ⟨Kernel.initial tuning, fun _ _ _ => 0⟩ where
  pool := Pool.initial_inv tuning
  bounded index num := by simp [Kernel.initial]
  seq index := by simp [Kernel.initial]
  live p id num recorded := by
    simp [Kernel.initial, Pool.initial, record, Pool.table, aoeOf] at recorded
  sum p index num _ allocated := by simp [Kernel.initial, IpcPerm.allocated] at allocated

section Steps

variable {tuning : Tuning} {ledger after : Ledger}

theorem semidOf_ne {sema : Nat → SemidDs} {j : Nat} (i_small : i < tuning.semmni)
    (j_small : j < tuning.semmni) (differs : i ≠ j) :
    semidOf (sema i).perm.seq i ≠ semidOf (sema j).perm.seq j := by
  have bound := tuning.semmni_le
  intro same
  exact differs (semidOf_inj (by omega) (by omega) same)

theorem LedgerInv.record_beyond (inv : LedgerInv tuning ledger) {p index num : Nat}
    (small : index < tuning.semmni) (beyond : (ledger.kernel.sema index).set.nsems ≤ num) :
    record ledger.kernel.pool p (semidOf (ledger.kernel.sema index).perm.seq index) num = 0 := by
  by_contra recorded
  obtain ⟨j, j_small, -, id_eq, num_lt⟩ := inv.live p _ num recorded
  by_cases same : index = j
  · subst same
    omega
  · exact semidOf_ne small j_small same id_eq

theorem LedgerInv.record_free (inv : LedgerInv tuning ledger) {p index num : Nat}
    (small : index < tuning.semmni) (free : (ledger.kernel.sema index).perm.allocated = false) :
    record ledger.kernel.pool p (semidOf (ledger.kernel.sema index).perm.seq index) num = 0 := by
  by_contra recorded
  obtain ⟨j, j_small, allocated, id_eq, -⟩ := inv.live p _ num recorded
  by_cases same : index = j
  · subst same
    rw [free] at allocated
    cases allocated
  · exact semidOf_ne small j_small same id_eq

/-- A change of values and counters that keeps what is recorded keeps the invariant. -/
theorem LedgerInv.of_same (inv : LedgerInv tuning ledger)
    (pool_inv : PoolInv tuning after.kernel.pool)
    (allocated_eq : ∀ index, (after.kernel.sema index).perm.allocated =
      (ledger.kernel.sema index).perm.allocated)
    (seq_eq : ∀ index, (after.kernel.sema index).perm.seq = (ledger.kernel.sema index).perm.seq)
    (nsems : ∀ index, (after.kernel.sema index).set.nsems = (ledger.kernel.sema index).set.nsems)
    (bounded : ∀ index, (after.kernel.sema index).set.Bounded tuning)
    (live : ∀ p id num, record after.kernel.pool p id num ≠ 0 → ∃ index < tuning.semmni,
      (ledger.kernel.sema index).perm.allocated = true ∧
        id = semidOf (ledger.kernel.sema index).perm.seq index ∧
        num < (ledger.kernel.sema index).set.nsems)
    (sum : ∀ p index num, index < tuning.semmni → (ledger.kernel.sema index).perm.allocated = true →
      record after.kernel.pool p (semidOf (ledger.kernel.sema index).perm.seq index) num =
        -after.owed p index num) :
    LedgerInv tuning after where
  pool := pool_inv
  bounded := bounded
  seq index := by
    rw [seq_eq index]
    exact inv.seq index
  live p id num recorded := by
    obtain ⟨index, small, allocated, id_eq, num_lt⟩ := live p id num recorded
    refine ⟨index, small, ?_⟩
    rw [allocated_eq index, seq_eq index, nsems index]
    exact ⟨allocated, id_eq, num_lt⟩
  sum p index num small allocated := by
    rw [allocated_eq index] at allocated
    rw [seq_eq index]
    exact sum p index num small allocated

theorem Ledger.owed_step {event : Event} {p index num : Nat}
    (allocated_eq : ((ledger.kernel.step tuning event).sema index).perm.allocated =
      (ledger.kernel.sema index).perm.allocated) :
    (ledger.step tuning event).owed p index num = ledger.settled tuning event p index num := by
  simp only [Ledger.step, Ledger.owedAfter, allocated_eq]
  cases (ledger.kernel.sema index).perm.allocated <;> simp

theorem Kernel.putSet_perm (kernel : Kernel) (index : Nat) (set : SemSet) (pool : Pool) (i : Nat) :
    ((kernel.putSet index set pool).sema i).perm = (kernel.sema i).perm := by
  simp only [Kernel.putSet, update_apply]
  split
  · rename_i same
    rw [same]
  · rfl

theorem Kernel.putSet_set (kernel : Kernel) (index : Nat) (set : SemSet) (pool : Pool) (i : Nat) :
    ((kernel.putSet index set pool).sema i).set = if i = index then set else
      (kernel.sema i).set := by
  simp only [Kernel.putSet, update_apply]
  split
  · rfl
  · rfl

/-- A change of one set, with what is recorded for others kept, keeps the invariant. -/
theorem LedgerInv.putSet (inv : LedgerInv tuning ledger) {index : Nat} {set : SemSet} {pool : Pool}
    (kernel_eq : after.kernel = ledger.kernel.putSet index set pool)
    (pool_inv : PoolInv tuning pool) (nsems : set.nsems = (ledger.kernel.sema index).set.nsems)
    (bounded : set.Bounded tuning)
    (live : ∀ p id num, record pool p id num ≠ 0 → ∃ index < tuning.semmni,
      (ledger.kernel.sema index).perm.allocated = true ∧
        id = semidOf (ledger.kernel.sema index).perm.seq index ∧
        num < (ledger.kernel.sema index).set.nsems)
    (sum : ∀ p index num, index < tuning.semmni → (ledger.kernel.sema index).perm.allocated = true →
      record pool p (semidOf (ledger.kernel.sema index).perm.seq index) num =
        -after.owed p index num) :
    LedgerInv tuning after := by
  have pool_eq : after.kernel.pool = pool := by rw [kernel_eq, Kernel.putSet]
  refine inv.of_same (by rwa [pool_eq]) (fun i => ?_) (fun i => ?_) (fun i => ?_) (fun i => ?_)
    (by rwa [pool_eq]) (by rwa [pool_eq])
  · rw [kernel_eq, Kernel.putSet_perm]
  · rw [kernel_eq, Kernel.putSet_perm]
  · rw [kernel_eq, Kernel.putSet_set]
    split
    · rename_i same
      rw [same, nsems]
    · rfl
  · rw [kernel_eq, Kernel.putSet_set]
    split
    · exact bounded
    · exact inv.bounded i

/-- An event that changes neither the facility nor a sum keeps the invariant. -/
theorem LedgerInv.unchanged (inv : LedgerInv tuning ledger)
    (kernel_eq : after.kernel = ledger.kernel)
    (owed : ∀ p index num, index < tuning.semmni →
      (ledger.kernel.sema index).perm.allocated = true →
        after.owed p index num = ledger.owed p index num) :
    LedgerInv tuning after := by
  refine inv.of_same ?_ (fun i => ?_) (fun i => ?_) (fun i => ?_) (fun i => ?_) ?_ ?_
  · rw [kernel_eq]
    exact inv.pool
  · rw [kernel_eq]
  · rw [kernel_eq]
  · rw [kernel_eq]
  · rw [kernel_eq]
    exact inv.bounded i
  · rw [kernel_eq]
    exact inv.live
  · intro p index num small allocated
    rw [kernel_eq, owed p index num small allocated]
    exact inv.sum p index num small allocated

theorem verify_eq_none {sp : SemidDs} {again : Bool} (verified : verify sp cr again ops = none) :
    ∀ op ∈ ops, op.num < sp.set.nsems := by
  induction ops with
  | nil => simp
  | cons first rest ih =>
    rw [verify] at verified
    split at verified
    · cases verified
    split at verified
    · cases verified
    · rename_i in_range
      intro op member
      rcases mem_cons.mp member with rfl | member
      · omega
      · exact ih verified op member

theorem netUndo_ne_zero {num : Nat} (nonzero : netUndo ops num ≠ 0) : ∃ op ∈ ops, op.num = num := by
  induction ops with
  | nil => simp [netUndo] at nonzero
  | cons first rest ih =>
    by_cases here : first.num = num
    · exact ⟨first, by simp, here⟩
    · have rest_nonzero : netUndo rest num ≠ 0 := by simpa [netUndo, here] using nonzero
      obtain ⟨op, member, found⟩ := ih rest_nonzero
      exact ⟨op, by simp [member], found⟩

section

variable (inv : LedgerInv tuning ledger)

include inv

/-- A pass of `semop` keeps the invariant. -/
theorem LedgerInv.semop (noWrap : tuning.NoWrap) (small : tuning.semvmx ≤ 0x7fff) {p : Nat}
    {again : Bool} {semid : BitVec 32} (canonical : 0 ≤ semid.toInt) :
    LedgerInv tuning (ledger.step tuning (.semop p cr again semid ops)) := by
  have kernel_eq : (ledger.step tuning (.semop p cr again semid ops)).kernel =
      (Sem.semop tuning ledger.kernel p cr again semid.toInt ops).2 := rfl
  -- A pass that does not get as far as the loop changes nothing.
  have refused : ∀ ending, Sem.semop tuning ledger.kernel p cr again semid.toInt ops =
      (ending, ledger.kernel) → (ending = .done → ops = []) →
      LedgerInv tuning (ledger.step tuning (.semop p cr again semid ops)) := by
    intro ending result empty
    refine inv.unchanged (by rw [kernel_eq, result]) fun q i n _ _ => ?_
    rw [Ledger.owed_step (by rw [Kernel.step, result])]
    simp only [Ledger.settled, result]
    split
    · rename_i here
      rw [empty here.2.2, netUndo, Int.add_zero]
    · rfl
  by_cases large : tuning.semopm < ops.length
  · exact refused (.fails .e2big) (by rw [Sem.semop, if_pos large]) (by simp)
  by_cases empty : ops = []
  · exact refused .done (by rw [Sem.semop, if_neg large, if_pos empty]) fun _ => empty
  cases found : semconv tuning ledger.kernel.sema semid.toInt with
  | none =>
    refine refused (.fails (if again then .eidrm else .einval)) ?_ (by simp)
    rw [Sem.semop, if_neg large, if_neg empty, found]
  | some index =>
    cases verified : verify (ledger.kernel.sema index) cr again ops with
    | some errno =>
      refine refused (.fails errno) ?_ (by simp)
      rw [Sem.semop, if_neg large, if_neg empty, found]
      simp only [verified]
    | none =>
      have id_eq := semidOf_of_semconv found canonical
      obtain ⟨-, index_small, allocated, -⟩ := semconv_eq_some found
      cases loop : semopLoop tuning p semid.toInt (ledger.kernel.sema index).set.binaryType []
          ops (ledger.kernel.sema index).set ledger.kernel.pool [] with
      | completed set pool wakes =>
        have result : Sem.semop tuning ledger.kernel p cr again semid.toInt ops =
            (.done, ledger.kernel.putSet index set pool) := by
          rw [Sem.semop, if_neg large, if_neg empty, found]
          simp only [verified, loop]
        obtain ⟨pool_inv, bounded, nsems, records⟩ :=
          semopLoop_completed noWrap small inv.pool (inv.bounded index) loop
        refine inv.putSet (by rw [kernel_eq, result]) pool_inv nsems bounded
          (fun q id n recorded => ?_) (fun q i n i_small i_allocated => ?_)
        · rw [records] at recorded
          split at recorded
          · rename_i here
            by_cases old : record ledger.kernel.pool q id n = 0
            · have net : netUndo ops n ≠ 0 := by
                rw [old] at recorded
                omega
              obtain ⟨op, member, rfl⟩ := netUndo_ne_zero net
              exact ⟨index, index_small, allocated, here.2.trans id_eq,
                verify_eq_none verified op member⟩
            · exact inv.live q id n old
          · rw [Int.sub_zero] at recorded
            exact inv.live q id n recorded
        · rw [records, inv.sum q i n i_small i_allocated,
            Ledger.owed_step (by rw [Kernel.step, result, Kernel.putSet_perm])]
          simp only [Ledger.settled, result, found, some.injEq, and_true]
          by_cases here : index = i
          · subst here
            simp only [id_eq, and_true]
            split <;> omega
          · have other : semidOf (ledger.kernel.sema i).perm.seq i ≠
                semidOf (ledger.kernel.sema index).perm.seq index :=
              semidOf_ne i_small index_small fun same => here same.symm
            simp [id_eq, here, other]
      | stopped reason op set pool wakes =>
        obtain ⟨pool_inv, tables, vals, nsems⟩ := semopLoop_stopped inv.pool Undoes.nil loop
        have records : ∀ q id n, record pool q id n = record ledger.kernel.pool q id n :=
          fun q id n => by rw [record, tables, record]
        have bounded := vals.bounded (inv.bounded index)
        have restored : ∀ ending set', Sem.semop tuning ledger.kernel p cr again semid.toInt ops =
              (ending, ledger.kernel.putSet index set' pool) → ending ≠ .done →
            set'.nsems = (ledger.kernel.sema index).set.nsems → set'.Bounded tuning →
            LedgerInv tuning (ledger.step tuning (.semop p cr again semid ops)) := by
          intro ending set' result stopped nsems' bounded'
          refine inv.putSet (by rw [kernel_eq, result]) pool_inv nsems' bounded'
            (fun q id n => ?_) (fun q i n i_small i_allocated => ?_)
          · rw [records]
            exact inv.live q id n
          · rw [records, inv.sum q i n i_small i_allocated,
              Ledger.owed_step (by rw [Kernel.step, result, Kernel.putSet_perm])]
            simp [Ledger.settled, result, stopped]
        cases reason with
        | error errno =>
          refine restored (.fails errno) set ?_ (by simp) nsems bounded
          rw [Sem.semop, if_neg large, if_neg empty, found]
          simp only [verified, loop]
        | sleep queue =>
          refine restored (.sleeps queue op.num) (set.sleep op queue) ?_ (by simp) nsems
            ((set.sleep_sameVals op queue).bounded bounded)
          rw [Sem.semop, if_neg large, if_neg empty, found]
          simp only [verified, loop]

/-- A change of a free entry keeps the invariant. -/
theorem LedgerInv.reuse {index : Nat} {sp : SemidDs} (small : index < tuning.semmni)
    (free : (ledger.kernel.sema index).perm.allocated = false)
    (kernel_eq : after.kernel = { ledger.kernel with sema := update ledger.kernel.sema index sp })
    (seq_eq : sp.perm.seq = (ledger.kernel.sema index).perm.seq) (bounded : sp.set.Bounded tuning)
    (owed_here : sp.perm.allocated = true → ∀ p num, after.owed p index num = 0)
    (owed_other : ∀ p i num, i ≠ index → after.owed p i num = ledger.owed p i num) :
    LedgerInv tuning after := by
  have here : after.kernel.sema index = sp := by simp [kernel_eq]
  have other : ∀ i, i ≠ index → after.kernel.sema i = ledger.kernel.sema i := by
    intro i differs
    simp [kernel_eq, update_of_ne differs]
  have pool_eq : after.kernel.pool = ledger.kernel.pool := by rw [kernel_eq]
  refine ⟨by rw [pool_eq]; exact inv.pool, fun i => ?_, fun i => ?_, fun p id num recorded => ?_,
    fun p i num i_small allocated => ?_⟩
  · by_cases same : i = index
    · rw [same, here]
      exact bounded
    · rw [other i same]
      exact inv.bounded i
  · by_cases same : i = index
    · rw [same, here, seq_eq]
      exact inv.seq index
    · rw [other i same]
      exact inv.seq i
  · rw [pool_eq] at recorded
    obtain ⟨i, i_small, allocated, id_eq, num_lt⟩ := inv.live p id num recorded
    have differs : i ≠ index := by
      rintro rfl
      rw [free] at allocated
      cases allocated
    refine ⟨i, i_small, ?_⟩
    rw [other i differs]
    exact ⟨allocated, id_eq, num_lt⟩
  · rw [pool_eq]
    by_cases same : i = index
    · subst same
      rw [here] at allocated ⊢
      rw [seq_eq, inv.record_free small free, owed_here allocated, Int.neg_zero]
    · rw [other i same] at allocated ⊢
      rw [owed_other p i num same]
      exact inv.sum p i num i_small allocated

/-- `semget` keeps the invariant. -/
theorem LedgerInv.semget {key nsems : Int} {semflg : BitVec 32} {granted : Bool} :
    LedgerInv tuning (ledger.step tuning (.semget cr key nsems semflg granted)) := by
  have kernel_eq : (ledger.step tuning (.semget cr key nsems semflg granted)).kernel =
      (Sem.semget tuning ledger.kernel cr key nsems semflg granted).2 := rfl
  have unchanged : (Sem.semget tuning ledger.kernel cr key nsems semflg granted).2 = ledger.kernel →
      LedgerInv tuning (ledger.step tuning (.semget cr key nsems semflg granted)) := by
    intro same
    refine inv.unchanged (kernel_eq.trans same) fun p i num _ _ => ?_
    rw [Ledger.owed_step (by rw [Kernel.step, same])]
    rfl
  cases found : ipcget (fun index => (ledger.kernel.sema index).perm) tuning.semmni key semflg
      cr with
  | error errno => exact unchanged (by simp only [Sem.semget, found])
  | ok pair =>
    obtain ⟨index, created⟩ := pair
    cases created with
    | none =>
      apply unchanged
      simp only [Sem.semget, found]
      split
      · rfl
      · rfl
    | some perm =>
      obtain ⟨small, free, perm_eq⟩ := ipcget_created found
      have seq_eq : perm.seq = (ledger.kernel.sema index).perm.seq := by rw [perm_eq]; rfl
      -- Whatever becomes of the entry, only its own sum can start anew.
      have reuse : ∀ sp : SemidDs, (Sem.semget tuning ledger.kernel cr key nsems semflg granted).2 =
            { ledger.kernel with sema := update ledger.kernel.sema index sp } →
          sp.perm.seq = perm.seq → sp.set.Bounded tuning →
          LedgerInv tuning (ledger.step tuning (.semget cr key nsems semflg granted)) := by
        intro sp result seq bounded
        refine inv.reuse small free (kernel_eq.trans result) (seq.trans seq_eq) bounded
          (fun allocated p num => ?_) (fun p i num differs => ?_)
        · simp only [Ledger.step, Ledger.owedAfter, Kernel.step, result, update_self]
          rw [free, allocated]
          rfl
        · rw [Ledger.owed_step (by
            simp only [Kernel.step, result, update_of_ne differs])]
          rfl
      by_cases invalid : nsems ≤ 0 ∨ (tuning.semmsl : Int) < nsems
      · refine reuse ⟨{ perm with mode := 0 }, (ledger.kernel.sema index).set⟩ ?_ rfl
          (inv.bounded index)
        simp only [Sem.semget, found, if_pos invalid]
      · cases granted with
        | false =>
          refine reuse ⟨{ perm with mode := 0 }, (ledger.kernel.sema index).set⟩ ?_ rfl
            (inv.bounded index)
          simp only [Sem.semget, found, if_neg invalid]
          rfl
        | true =>
          refine reuse ⟨perm, ⟨(nsems % 2 ^ 16).toNat, true, fun _ => ⟨0, 0, 0⟩⟩⟩ ?_ rfl
            fun num => by simp
          simp only [Sem.semget, found, if_neg invalid]
          rfl

/-- An interrupted sleeper changes a counter only. -/
theorem LedgerInv.interrupt {index num : Nat} {queue : Queue} :
    LedgerInv tuning (ledger.step tuning (.interrupt index queue num)) := by
  have same : ((ledger.kernel.sema index).set.put num
      (((ledger.kernel.sema index).set.sem num).interrupt queue num).1).SameVals
        (ledger.kernel.sema index).set := by
    intro n
    rw [SemSet.put_sem]
    split
    · rename_i here
      rw [here]
      unfold Sema.interrupt
      split <;> simp
    · rfl
  refine inv.putSet rfl inv.pool rfl (same.bounded (inv.bounded index)) inv.live
    fun p i n small allocated => ?_
  rw [inv.sum p i n small allocated, Ledger.owed_step (by rw [Kernel.step, Kernel.putSet_perm])]
  rfl

/-- `IPC_RMID` keeps the invariant: whatever was recorded for the set is cleared. -/
theorem LedgerInv.remove {semid : BitVec 32} {index : Nat}
    (found : semconv tuning ledger.kernel.sema semid.toInt = some index)
    (canonical : 0 ≤ semid.toInt)
    (kernel_eq : after.kernel =
      ⟨update ledger.kernel.sema index ((ledger.kernel.sema index).remove semid.toInt),
        semunrm ledger.kernel.pool semid.toInt 0 (ledger.kernel.sema index).set.nsems⟩)
    (owed_eq : ∀ p i num, i ≠ index → after.owed p i num = ledger.owed p i num) :
    LedgerInv tuning after := by
  have id_eq := semidOf_of_semconv found canonical
  obtain ⟨-, small, -, seq_eq⟩ := semconv_eq_some found
  have here : after.kernel.sema index = (ledger.kernel.sema index).remove semid.toInt := by
    simp [kernel_eq]
  have free : (after.kernel.sema index).perm.allocated = false := by
    rw [here]
    simp [SemidDs.remove, IpcPerm.allocated]
  have other : ∀ i, i ≠ index → after.kernel.sema i = ledger.kernel.sema i := by
    intro i differs
    simp [kernel_eq, update_of_ne differs]
  have records : ∀ p id num, record after.kernel.pool p id num =
      if id = semid.toInt ∧ 0 ≤ num ∧ num ≤ (ledger.kernel.sema index).set.nsems then 0
      else record ledger.kernel.pool p id num := by
    intro p id num
    rw [kernel_eq, record_semunrm inv.pool]
  refine ⟨by rw [kernel_eq]; exact inv.pool.semunrm _ _ _, fun i => ?_, fun i => ?_,
    fun p id num recorded => ?_, fun p i num i_small allocated => ?_⟩
  · by_cases same : i = index
    · rw [same, here]
      intro num
      simp only [SemidDs.remove]
      split
      · simp
      · exact inv.bounded index num
    · rw [other i same]
      exact inv.bounded i
  · by_cases same : i = index
    · rw [same, here]
      have bound := inv.seq index
      simp only [SemidDs.remove]
      split
      · simp
      · rename_i not_last
        omega
    · rw [other i same]
      exact inv.seq i
  · rw [records] at recorded
    split at recorded
    · exact absurd rfl recorded
    · rename_i kept
      obtain ⟨i, i_small, allocated, i_id, num_lt⟩ := inv.live p id num recorded
      have differs : i ≠ index := by
        rintro rfl
        exact kept ⟨i_id.trans id_eq.symm, Nat.zero_le num, Nat.le_of_lt num_lt⟩
      refine ⟨i, i_small, ?_⟩
      rw [other i differs]
      exact ⟨allocated, i_id, num_lt⟩
  · have differs : i ≠ index := by
      rintro rfl
      rw [free] at allocated
      cases allocated
    rw [other i differs] at allocated ⊢
    rw [records, if_neg, owed_eq p i num differs]
    · exact inv.sum p i num i_small allocated
    · rintro ⟨same, -⟩
      exact semidOf_ne i_small small differs (same.trans id_eq)

end

theorem SemidDs.chown_allocated (sp : SemidDs) (uid gid : Nat) (mode : BitVec 32) :
    (sp.chown uid gid mode).perm.allocated = true := by
  have bit : ((mode &&& 0o777 ||| ipcAlloc) &&& ipcAlloc).getLsbD 15 = true := by
    simp [ipcAlloc]
  simp only [SemidDs.chown, IpcPerm.allocated, bne_iff_ne, ne_eq]
  intro zero
  rw [zero] at bit
  simp at bit

theorem SemidDs.update_chown_allocated {sema : Nat → SemidDs} {index : Nat}
    (found : semconv tuning sema s = some index) (uid gid : Nat) (mode : BitVec 32) (i : Nat) :
    (update sema index ((sema index).chown uid gid mode) i).perm.allocated =
      (sema i).perm.allocated := by
  obtain ⟨-, -, allocated, -⟩ := semconv_eq_some found
  by_cases same : i = index
  · rw [same, update_self, allocated, SemidDs.chown_allocated]
  · rw [update_of_ne same]

/-- `IPC_SET` keeps the invariant. -/
theorem LedgerInv.chown (inv : LedgerInv tuning ledger) {index uid gid : Nat} {mode : BitVec 32}
    (found : semconv tuning ledger.kernel.sema s = some index)
    (kernel_eq : after.kernel = ⟨update ledger.kernel.sema index ((ledger.kernel.sema index).chown
      uid gid mode), ledger.kernel.pool⟩)
    (owed_eq : ∀ p i num, after.owed p i num = ledger.owed p i num) :
    LedgerInv tuning after := by
  have kept : ∀ i, (after.kernel.sema i).perm.seq = (ledger.kernel.sema i).perm.seq ∧
      (after.kernel.sema i).set = (ledger.kernel.sema i).set := by
    intro i
    simp only [kernel_eq, update_apply]
    split
    · rename_i same
      rw [same]
      exact ⟨rfl, rfl⟩
    · exact ⟨rfl, rfl⟩
  refine inv.of_same ?_ (fun i => ?_) (fun i => (kept i).1) (fun i => by rw [(kept i).2])
    (fun i => ?_) ?_ ?_
  · rw [kernel_eq]
    exact inv.pool
  · rw [kernel_eq]
    exact SemidDs.update_chown_allocated found uid gid mode i
  · rw [(kept i).2]
    exact inv.bounded i
  · rw [kernel_eq]
    exact inv.live
  · intro p i num small allocated
    rw [kernel_eq, owed_eq]
    exact inv.sum p i num small allocated

/-- Setting values and clearing what was recorded for them keeps the invariant. -/
theorem LedgerInv.reset (inv : LedgerInv tuning ledger) {semid : BitVec 32} {index low high : Nat}
    {set : SemSet} (found : semconv tuning ledger.kernel.sema semid.toInt = some index)
    (canonical : 0 ≤ semid.toInt)
    (kernel_eq : after.kernel = ledger.kernel.putSet index set
      (semunrm ledger.kernel.pool semid.toInt low high))
    (nsems : set.nsems = (ledger.kernel.sema index).set.nsems) (bounded : set.Bounded tuning)
    (owed_here : ∀ p num, num < (ledger.kernel.sema index).set.nsems →
      after.owed p index num = if low ≤ num ∧ num ≤ high then 0 else ledger.owed p index num)
    (owed_beyond : ∀ p num, (ledger.kernel.sema index).set.nsems ≤ num →
      after.owed p index num = 0 ∨ after.owed p index num = ledger.owed p index num)
    (owed_other : ∀ p i num, i ≠ index → after.owed p i num = ledger.owed p i num) :
    LedgerInv tuning after := by
  have id_eq := semidOf_of_semconv found canonical
  obtain ⟨-, small, index_allocated, -⟩ := semconv_eq_some found
  refine inv.putSet kernel_eq (inv.pool.semunrm _ _ _) nsems bounded (fun p id num recorded => ?_)
    (fun p i num i_small allocated => ?_)
  · rw [record_semunrm inv.pool] at recorded
    split at recorded
    · exact absurd rfl recorded
    · exact inv.live p id num recorded
  · rw [record_semunrm inv.pool]
    by_cases same : i = index
    · subst same
      rw [id_eq]
      rcases Nat.lt_or_ge num (ledger.kernel.sema i).set.nsems with inside | beyond
      · rw [owed_here p num inside]
        simp only [true_and]
        split
        · rfl
        · exact inv.sum p i num i_small allocated
      · have none := @LedgerInv.record_beyond _ _ inv p _ _ i_small beyond
        have old := inv.sum p i num i_small allocated
        rw [none, ite_self]
        rcases owed_beyond p num beyond with zero | kept
        · rw [zero, Int.neg_zero]
        · rw [kept, ← old, none]
    · rw [if_neg, owed_other p i num same]
      · exact inv.sum p i num i_small allocated
      · rintro ⟨bad, -⟩
        exact semidOf_ne i_small small same (bad.trans id_eq)

/-- `SETVAL` keeps the invariant. -/
theorem LedgerInv.setval (inv : LedgerInv tuning ledger) (small : tuning.semvmx ≤ 0x7fff)
    {semid arg : BitVec 32} {index semnum : Nat} (canonical : 0 ≤ semid.toInt)
    (found : semconv tuning ledger.kernel.sema semid.toInt = some index)
    (access : ipcaccess (ledger.kernel.sema index).perm semA cr = none)
    (inside : ¬ (ledger.kernel.sema index).set.nsems ≤ semnum)
    (in_range : ¬ tuning.semvmx < arg.toNat) :
    LedgerInv tuning (ledger.step tuning (.semctl cr semid (.setval semnum arg))) := by
  have result : Sem.semctl tuning ledger.kernel cr semid.toInt (.setval semnum arg) =
      (none, ledger.kernel.putSet index
        ((ledger.kernel.sema index).set.setval semnum (arg.setWidth 16))
        (semunrm ledger.kernel.pool semid.toInt semnum semnum)) := by
    simp [Sem.semctl, found, access, inside, in_range]
  have owed : ∀ p i num,
      (ledger.step tuning (.semctl cr semid (.setval semnum arg))).owed p i num =
        if index = i ∧ num = semnum then 0 else ledger.owed p i num := by
    intro p i num
    rw [Ledger.owed_step (by rw [Kernel.step, result, Kernel.putSet_perm])]
    simp only [Ledger.settled, found, result, some.injEq, and_true]
    by_cases here : index = i <;> simp [here]
  refine inv.reset found canonical (congrArg Prod.snd result) rfl
    (fun num => ?_) (fun p num _ => ?_) (fun p num _ => ?_) (fun p i num differs => ?_)
  · simp only [SemSet.setval, SemSet.put_sem]
    split
    · rw [Sema.assign_semval, BitVec.toNat_setWidth]
      omega
    · exact inv.bounded index num
  · rw [owed]
    congr 1
    simp only [true_and, eq_iff_iff]
    omega
  · rw [owed]
    split
    · exact .inl rfl
    · exact .inr rfl
  · rw [owed, if_neg fun here => differs here.1.symm]

/-- `SETALL` keeps the invariant. -/
theorem LedgerInv.setall (inv : LedgerInv tuning ledger) {semid : BitVec 32} {index : Nat}
    {vals : Nat → BitVec 16} (canonical : 0 ≤ semid.toInt)
    (found : semconv tuning ledger.kernel.sema semid.toInt = some index)
    (access : ipcaccess (ledger.kernel.sema index).perm semA cr = none)
    (in_range : ¬ ∃ num < (ledger.kernel.sema index).set.nsems, tuning.semvmx < (vals num).toNat) :
    LedgerInv tuning (ledger.step tuning (.semctl cr semid (.setall (some vals)))) := by
  have result : Sem.semctl tuning ledger.kernel cr semid.toInt (.setall (some vals)) =
      (none, ledger.kernel.putSet index ((ledger.kernel.sema index).set.setall vals)
        (semunrm ledger.kernel.pool semid.toInt 0 (ledger.kernel.sema index).set.nsems)) := by
    simp only [Sem.semctl, found, access, if_neg in_range]
  have owed : ∀ p i num,
      (ledger.step tuning (.semctl cr semid (.setall (some vals)))).owed p i num =
        if index = i then 0 else ledger.owed p i num := by
    intro p i num
    rw [Ledger.owed_step (by rw [Kernel.step, result, Kernel.putSet_perm])]
    simp only [Ledger.settled, found, result, some.injEq, and_true]
  refine inv.reset found canonical (congrArg Prod.snd result) rfl
    (fun num => ?_) (fun p num inside => ?_) (fun p num _ => ?_) (fun p i num differs => ?_)
  · simp only [SemSet.setall]
    split
    · rename_i inside
      rw [Sema.assign_semval]
      exact Nat.le_of_not_lt fun bad => in_range ⟨num, inside, bad⟩
    · exact inv.bounded index num
  · rw [owed, if_pos rfl, if_pos ⟨Nat.zero_le num, Nat.le_of_lt inside⟩]
  · exact .inl (by rw [owed, if_pos rfl])
  · rw [owed, if_neg fun here => differs here.symm]

/-- `semctl` keeps the invariant. -/
theorem LedgerInv.semctl (inv : LedgerInv tuning ledger) (small : tuning.semvmx ≤ 0x7fff)
    {semid : BitVec 32} {cmd : SemctlCmd} (canonical : 0 ≤ semid.toInt) :
    LedgerInv tuning (ledger.step tuning (.semctl cr semid cmd)) := by
  have kernel_eq : (ledger.step tuning (.semctl cr semid cmd)).kernel =
      (Sem.semctl tuning ledger.kernel cr semid.toInt cmd).2 := rfl
  have refused : ∀ errno, Sem.semctl tuning ledger.kernel cr semid.toInt cmd =
      (some errno, ledger.kernel) →
      LedgerInv tuning (ledger.step tuning (.semctl cr semid cmd)) := by
    intro errno result
    refine inv.unchanged (by rw [kernel_eq, result]) fun p i num _ _ => ?_
    rw [Ledger.owed_step (by rw [Kernel.step, result])]
    simp [Ledger.settled, result]
  cases found : semconv tuning ledger.kernel.sema semid.toInt with
  | none => exact refused .einval (by simp only [Sem.semctl, found])
  | some index =>
    cases cmd with
    | rmid =>
      by_cases owner : owns (ledger.kernel.sema index) cr = true
      · have result : Sem.semctl tuning ledger.kernel cr semid.toInt .rmid =
            (none, ⟨update ledger.kernel.sema index ((ledger.kernel.sema index).remove semid.toInt),
              semunrm ledger.kernel.pool semid.toInt 0 (ledger.kernel.sema index).set.nsems⟩) := by
          simp [Sem.semctl, found, owner]
        refine inv.remove found canonical (by rw [kernel_eq, result]) fun p i num differs => ?_
        rw [Ledger.owed_step (by
          simp only [Kernel.step, result, update_of_ne differs])]
        simp only [Ledger.settled, ite_self]
      · exact refused .eperm (by simp [Sem.semctl, found, owner])
    | set uid gid mode =>
      by_cases owner : owns (ledger.kernel.sema index) cr = true
      · by_cases large : maxuid < uid ∨ maxuid < gid
        · exact refused .einval (by simp [Sem.semctl, found, owner, large])
        · have result : Sem.semctl tuning ledger.kernel cr semid.toInt (.set uid gid mode) =
              (none, ⟨update ledger.kernel.sema index
                ((ledger.kernel.sema index).chown uid gid mode), ledger.kernel.pool⟩) := by
            simp [Sem.semctl, found, owner, large]
          have kernel_eq' := kernel_eq.trans (congrArg Prod.snd result)
          refine inv.chown found kernel_eq' fun p i num => ?_
          have kept := SemidDs.update_chown_allocated found uid gid mode i
          rw [Ledger.owed_step (by rw [Kernel.step, result]; exact kept)]
          simp only [Ledger.settled, ite_self]
      · exact refused .eperm (by simp [Sem.semctl, found, owner])
    | setval semnum arg =>
      cases access : ipcaccess (ledger.kernel.sema index).perm semA cr with
      | some errno => exact refused errno (by simp only [Sem.semctl, found, access])
      | none =>
        by_cases beyond : (ledger.kernel.sema index).set.nsems ≤ semnum
        · exact refused .einval (by simp [Sem.semctl, found, access, beyond])
        by_cases large : tuning.semvmx < arg.toNat
        · exact refused .erange (by simp [Sem.semctl, found, access, beyond, large])
        exact inv.setval small canonical found access beyond large
    | setall vals =>
      cases access : ipcaccess (ledger.kernel.sema index).perm semA cr with
      | some errno => exact refused errno (by simp only [Sem.semctl, found, access])
      | none =>
        cases vals with
        | none => exact refused .efault (by simp only [Sem.semctl, found, access])
        | some vals =>
          by_cases large : ∃ num < (ledger.kernel.sema index).set.nsems,
              tuning.semvmx < (vals num).toNat
          · exact refused .erange (by simp only [Sem.semctl, found, access, if_pos large])
          exact inv.setall canonical found access large

/-! ## Exit -/

/-- The value that `semexit` leaves behind. -/
def settle (tuning : Tuning) (value : Nat) (aoe : Int) : Int :=
  if value + aoe < 0 ∨ (tuning.semvmx : Int) < value + aoe then value else value + aoe

theorem settle_zero {value : Nat} (bounded : value ≤ tuning.semvmx) :
    settle tuning value 0 = value := by
  rw [settle, if_neg (by omega), Int.add_zero]

theorem settle_bounds {value : Nat} (bounded : value ≤ tuning.semvmx) (aoe : Int) :
    settle tuning value aoe ≤ tuning.semvmx := by
  unfold settle
  split <;> omega

theorem Sema.adjust_semval (small : tuning.semvmx ≤ 0x7fff) (sema : Sema) (aoe : Int) (num : Nat) :
    ((sema.adjust tuning aoe num).1.semval.toNat : Int) =
      settle tuning sema.semval.toNat aoe := by
  unfold Sema.adjust settle
  simp only
  split
  · rfl
  · rename_i range
    have value : ∀ pair : Sema × List Wake, pair.1.semval =
        BitVec.ofInt 16 (sema.semval.toNat + aoe) →
        (pair.1.semval.toNat : Int) = sema.semval.toNat + aoe := by
      intro pair equal
      rw [equal, BitVec.toNat_ofInt]
      omega
    refine value (_, _) ?_
    split
    · split <;> simp
    · split <;> simp

def Undo.Differs (left right : Undo) : Prop := left.id ≠ right.id ∨ left.num ≠ right.num

theorem Undo.Before.differs {low high : Undo} (before : low.Before high) : low.Differs high := by
  simp only [Undo.Before, Undo.Precedes, Undo.Differs] at *
  omega

theorem aoeOf_of_mem {id : Int} {num : Nat} (differ : entries.Pairwise Undo.Differs)
    (member : entry ∈ entries) (found : entry.Matches id num) :
    aoeOf entries id num = entry.aoe := by
  induction entries with
  | nil => simp at member
  | cons first rest ih =>
    obtain ⟨head, tail⟩ := pairwise_cons.mp differ
    rcases mem_cons.mp member with rfl | member
    · rw [aoeOf, if_pos found]
    · have distinct := head entry member
      rw [aoeOf, if_neg, ih tail member]
      rintro ⟨id_eq, num_eq⟩
      obtain ⟨rfl, rfl⟩ := found
      exact distinct.elim (· id_eq) (· num_eq)

theorem aoeOf_reverse (differ : entries.Pairwise Undo.Differs) (id : Int) (num : Nat) :
    aoeOf entries.reverse id num = aoeOf entries id num := by
  have symmetric : entries.reverse.Pairwise Undo.Differs := by
    rw [pairwise_reverse]
    exact differ.imp fun distinct => distinct.imp Ne.symm Ne.symm
  by_cases present : ∃ entry ∈ entries, entry.Matches id num
  · obtain ⟨entry, member, found⟩ := present
    rw [aoeOf_of_mem differ member found, aoeOf_of_mem symmetric (mem_reverse.mpr member) found]
  · have absent : ∀ entry ∈ entries, ¬ entry.Matches id num :=
      fun entry member found => present ⟨entry, member, found⟩
    rw [aoeOf_eq_zero absent,
      aoeOf_eq_zero fun entry member => absent entry (mem_reverse.mp member)]

theorem exitOne_kept (sema : Nat → SemidDs) (entry : Undo) (i : Nat) :
    (exitOne tuning sema entry i).perm = (sema i).perm ∧
      (exitOne tuning sema entry i).set.nsems = (sema i).set.nsems := by
  unfold exitOne
  cases semconv tuning sema entry.id with
  | none => exact ⟨rfl, rfl⟩
  | some index =>
    simp only [update_apply]
    split
    · rename_i same
      rw [same]
      exact ⟨rfl, rfl⟩
    · exact ⟨rfl, rfl⟩

theorem exitOne_value (small : tuning.semvmx ≤ 0x7fff) {sema : Nat → SemidDs} {index : Nat}
    (found : semconv tuning sema entry.id = some index) (i num : Nat) :
    (((exitOne tuning sema entry i).set.sem num).semval.toNat : Int) =
      if i = index ∧ num = entry.num then
        settle tuning ((sema i).set.sem num).semval.toNat entry.aoe
      else ((sema i).set.sem num).semval.toNat := by
  simp only [exitOne, found, update_apply]
  by_cases same : i = index
  · subst same
    simp only [if_true, true_and, SemSet.put_sem]
    split
    · rename_i here
      rw [Sema.adjust_semval small, here]
    · rfl
  · simp [same]

theorem exitOne_bounded (small : tuning.semvmx ≤ 0x7fff) {sema : Nat → SemidDs}
    (bounded : ∀ i, (sema i).set.Bounded tuning) (entry : Undo) (i : Nat) :
    (exitOne tuning sema entry i).set.Bounded tuning := by
  intro num
  cases found : semconv tuning sema entry.id with
  | none =>
    simp only [exitOne, found]
    exact bounded i num
  | some index =>
    have value := exitOne_value small found i num
    have before := bounded i num
    have settled := settle_bounds before entry.aoe
    split at value <;> omega

theorem exitLoop_kept (small : tuning.semvmx ≤ 0x7fff) (entries : List Undo)
    {sema : Nat → SemidDs} (bounded : ∀ i, (sema i).set.Bounded tuning) (i : Nat) :
    (exitLoop tuning entries sema i).perm = (sema i).perm ∧
      (exitLoop tuning entries sema i).set.nsems = (sema i).set.nsems ∧
      (exitLoop tuning entries sema i).set.Bounded tuning := by
  induction entries generalizing sema with
  | nil => exact ⟨rfl, rfl, bounded i⟩
  | cons entry rest ih =>
    obtain ⟨perm, nsems, after⟩ := ih (exitOne_bounded small bounded entry)
    obtain ⟨perm_one, nsems_one⟩ := @exitOne_kept tuning sema entry i
    exact ⟨perm.trans perm_one, nsems.trans nsems_one, after⟩

/-- The loop of `semexit` settles every semaphore with what the entries record for it. -/
theorem exitLoop_value (small : tuning.semvmx ≤ 0x7fff) {sema : Nat → SemidDs}
    (differ : entries.Pairwise Undo.Differs) (seq : ∀ i, (sema i).perm.seq ≤ 0x7fff)
    (bounded : ∀ i, (sema i).set.Bounded tuning)
    (live : ∀ entry ∈ entries, ∃ index < tuning.semmni, (sema index).perm.allocated = true ∧
      entry.id = semidOf (sema index).perm.seq index)
    (i_small : i < tuning.semmni) (num : Nat) :
    (((exitLoop tuning entries sema i).set.sem num).semval.toNat : Int) =
      settle tuning ((sema i).set.sem num).semval.toNat
        (aoeOf entries (semidOf (sema i).perm.seq i) num) := by
  induction entries generalizing sema with
  | nil => rw [exitLoop, foldl_nil, aoeOf, settle_zero (bounded i num)]
  | cons entry rest ih =>
    obtain ⟨head, tail⟩ := pairwise_cons.mp differ
    obtain ⟨j, j_small, allocated, id_eq⟩ := live entry (by simp)
    have found : semconv tuning sema entry.id = some j := by
      rw [id_eq]
      exact semconv_semidOf j_small allocated (seq j)
    have perm := fun k => (@exitOne_kept tuning sema entry k).1
    have bounded' := exitOne_bounded small bounded entry
    have live' : ∀ other ∈ rest, ∃ index < tuning.semmni,
        (exitOne tuning sema entry index).perm.allocated = true ∧
          other.id = semidOf (exitOne tuning sema entry index).perm.seq index := by
      intro other member
      obtain ⟨k, k_small, k_allocated, k_id⟩ := live other (by simp [member])
      exact ⟨k, k_small, by rw [perm]; exact k_allocated, by rw [perm]; exact k_id⟩
    have later := ih tail (fun k => by rw [perm]; exact seq k) bounded' live'
    have value := exitOne_value small found i num
    rw [exitLoop, foldl_cons, ← exitLoop, later, perm, aoeOf]
    by_cases here : i = j ∧ num = entry.num
    · obtain ⟨rfl, rfl⟩ := here
      have gone : aoeOf rest (semidOf (sema i).perm.seq i) entry.num = 0 := by
        refine aoeOf_eq_zero fun other member found => ?_
        exact (head other member).elim (· (id_eq.trans found.1.symm)) (· found.2.symm)
      rw [if_pos ⟨rfl, rfl⟩] at value
      rw [gone, settle_zero (bounded' i entry.num), value, if_pos ⟨id_eq, rfl⟩]
    · have differs : ¬ entry.Matches (semidOf (sema i).perm.seq i) num := by
        rintro ⟨same, rfl⟩
        refine here ⟨?_, rfl⟩
        by_contra distinct
        exact semidOf_ne i_small j_small distinct (same.symm.trans id_eq)
      rw [if_neg here] at value
      rw [if_neg differs, Int.ofNat_inj.mp value]

section

variable (inv : LedgerInv tuning ledger)

include inv

theorem LedgerInv.entry_live {p : Nat} (member : entry ∈ ledger.kernel.pool.table p) :
    ∃ index < tuning.semmni,
      (ledger.kernel.sema index).perm.allocated = true ∧
        entry.id = semidOf (ledger.kernel.sema index).perm.seq index := by
  have valid := inv.pool.table_valid p
  have recorded : record ledger.kernel.pool p entry.id entry.num ≠ 0 := by
    rw [record, valid.aoeOf_eq member ⟨rfl, rfl⟩]
    exact valid.nonzero entry member
  obtain ⟨index, small, allocated, id_eq, -⟩ := inv.live p entry.id entry.num recorded
  exact ⟨index, small, allocated, id_eq⟩

/-- `semexit` adds what the process has recorded to every value, unless the result is out of
range. -/
theorem LedgerInv.semexit_value (small : tuning.semvmx ≤ 0x7fff) (p : Nat)
    (i_small : i < tuning.semmni) (num : Nat) :
    ((((Sem.semexit tuning ledger.kernel p).sema i).set.sem num).semval.toNat : Int) =
      settle tuning ((ledger.kernel.sema i).set.sem num).semval.toNat
        (record ledger.kernel.pool p (semidOf (ledger.kernel.sema i).perm.seq i) num) := by
  cases held : ledger.kernel.pool.slot p with
  | none =>
    simp only [Sem.semexit, held, record, Pool.table, aoeOf]
    rw [settle_zero (inv.bounded i num)]
  | some up =>
    have table := Pool.table_of_slot held
    have differ : (ledger.kernel.pool.ents up).Pairwise Undo.Differs :=
      (inv.pool.valid up).sorted.imp Undo.Before.differs
    have reversed : (ledger.kernel.pool.ents up).reverse.Pairwise Undo.Differs := by
      rw [pairwise_reverse]
      exact differ.imp fun distinct => distinct.imp Ne.symm Ne.symm
    simp only [Sem.semexit, held]
    rw [exitLoop_value small reversed inv.seq inv.bounded _ i_small, aoeOf_reverse differ,
      record, table]
    intro entry member
    exact inv.entry_live (table ▸ mem_reverse.mp member)

/-- `semexit` keeps the invariant. -/
theorem LedgerInv.semexit (small : tuning.semvmx ≤ 0x7fff) {p : Nat} :
    LedgerInv tuning (ledger.step tuning (.semexit p)) := by
  have kept : ∀ i, ((Sem.semexit tuning ledger.kernel p).sema i).perm =
        (ledger.kernel.sema i).perm ∧
      ((Sem.semexit tuning ledger.kernel p).sema i).set.nsems = (ledger.kernel.sema i).set.nsems ∧
      ((Sem.semexit tuning ledger.kernel p).sema i).set.Bounded tuning := by
    intro i
    unfold Sem.semexit
    split
    · exact ⟨rfl, rfl, inv.bounded i⟩
    · exact exitLoop_kept small _ inv.bounded i
  have pool_eq : (Sem.semexit tuning ledger.kernel p).pool = ledger.kernel.pool.release p := by
    unfold Sem.semexit
    split
    · rename_i none_held
      simp [Pool.release, none_held]
    · rfl
  have records : ∀ q id num, record (Sem.semexit tuning ledger.kernel p).pool q id num =
      if q = p then 0 else record ledger.kernel.pool q id num := by
    intro q id num
    rw [pool_eq, record_release inv.pool]
  refine inv.of_same ?_ (fun i => congrArg IpcPerm.allocated (kept i).1)
    (fun i => congrArg IpcPerm.seq (kept i).1) (fun i => (kept i).2.1) (fun i => (kept i).2.2)
    (fun q id num recorded => ?_) (fun q i num i_small allocated => ?_)
  · show PoolInv tuning (Sem.semexit tuning ledger.kernel p).pool
    rw [pool_eq]
    exact inv.pool.release p
  · have recorded' : record (Sem.semexit tuning ledger.kernel p).pool q id num ≠ 0 := recorded
    rw [records] at recorded'
    split at recorded'
    · exact absurd rfl recorded'
    · exact inv.live q id num recorded'
  · have equal := records q (semidOf (ledger.kernel.sema i).perm.seq i) num
    rw [Ledger.owed_step (by rw [Kernel.step, (kept i).1]), Ledger.settled]
    refine equal.trans ?_
    split
    · rfl
    · exact inv.sum q i num i_small allocated

theorem LedgerInv.step (noWrap : tuning.NoWrap) (small : tuning.semvmx ≤ 0x7fff) {event : Event}
    (canonical : event.Canonical) :
    LedgerInv tuning (ledger.step tuning event) := by
  cases event with
  | semget cr key nsems semflg granted => exact inv.semget
  | semop p cr again semid ops => exact inv.semop noWrap small canonical
  | interrupt index queue num => exact inv.interrupt
  | semctl cr semid cmd => exact inv.semctl small canonical
  | semexit p => exact inv.semexit small

theorem LedgerInv.foldl (noWrap : tuning.NoWrap) (small : tuning.semvmx ≤ 0x7fff)
    {events : List Event} (canonical : ∀ event ∈ events, event.Canonical) :
    LedgerInv tuning (events.foldl (Ledger.step tuning) ledger) := by
  induction events generalizing ledger with
  | nil => exact inv
  | cons event rest ih =>
    have first := inv.step noWrap small (canonical event (by simp))
    exact ih first fun other member => canonical other (by simp [member])

end

end Steps

/-! ## Histories -/

/-- The undo accounting of a state. -/
structure Accounted (tuning : Tuning) (ledger : Ledger) : Prop where
  /-- Tables are sorted, in range and not too long; each structure is on the chains it belongs
  on. -/
  pool : PoolInv tuning ledger.kernel.pool
  /-- Every entry of a process belongs to a semaphore that exists. -/
  live : ∀ p, ∀ entry ∈ ledger.kernel.pool.table p, ∃ index < tuning.semmni,
    (ledger.kernel.sema index).perm.allocated = true ∧
      entry.id = semidOf (ledger.kernel.sema index).perm.seq index
  /-- What a process has recorded for a semaphore is minus what it has done there. -/
  sum : ∀ p index num, index < tuning.semmni →
    (ledger.kernel.sema index).perm.allocated = true →
    record ledger.kernel.pool p (semidOf (ledger.kernel.sema index).perm.seq index) num =
      -ledger.owed p index num
  /-- When a process exits, what it has done to a semaphore is taken back, unless the value would
  leave its range. -/
  exit : ∀ p index num, index < tuning.semmni →
    (ledger.kernel.sema index).perm.allocated = true →
    ((((semexit tuning ledger.kernel p).sema index).set.sem num).semval.toNat : Int) =
      settle tuning ((ledger.kernel.sema index).set.sem num).semval.toNat
        (-ledger.owed p index num)

/-- Undo accounting over every history whose calls pass the identifiers that `semget` returns. -/
theorem run_accounted (tuning : Tuning) (small : tuning.semvmx ≤ 0x7fff) (noWrap : tuning.NoWrap)
    (events : List Event) (canonical : ∀ event ∈ events, event.Canonical) :
    Accounted tuning (Ledger.run tuning events) := by
  have inv : LedgerInv tuning (Ledger.run tuning events) :=
    (LedgerInv.initial tuning).foldl noWrap small canonical
  refine ⟨inv.pool, fun p entry member => inv.entry_live member, inv.sum, ?_⟩
  intro p index num index_small allocated
  rw [inv.semexit_value small p index_small num, inv.sum p index num index_small allocated]

/-- Create one set with one semaphore, then do some operations there as process `0`. -/
def Event.script (ops : List Sembuf) : List Event :=
  .semget ⟨0, 0, []⟩ 0 1 0o600 true ::
    ops.map fun op => .semop 0 ⟨0, 0, []⟩ false 0 [op]

theorem Event.script_canonical (ops : List Sembuf) :
    ∀ event ∈ Event.script ops, event.Canonical := by
  intro event member
  rcases mem_cons.mp member with rfl | member
  · trivial
  · obtain ⟨op, -, rfl⟩ := List.mem_map.mp member
    simp [Event.Canonical]

/-- The default tunables. -/
theorem run_accounted_default :
    Accounted Tuning.default
      (Ledger.run Tuning.default
        (Event.script [⟨0, 3, false, true⟩, ⟨0, -1, false, true⟩])) :=
  run_accounted _ (by decide) (by decide) _ (Event.script_canonical _)

/-- With a large `semaem` the adjustment wraps: after two recorded increments by 20000, with an
unrecorded decrement between them, the process is to be credited 25536 instead of debited 40000. -/
theorem not_run_accounted :
    ¬ ∀ (tuning : Tuning), 0 < tuning.semaem → tuning.semaem ≤ 0x7fff → tuning.semvmx ≤ 0x7fff →
      ∀ events : List Event, (∀ event ∈ events, event.Canonical) →
      Accounted tuning (Ledger.run tuning events) := by
  intro claim
  have accounted := claim ⟨30, 10, 32767, 32767, 10, 10, 25, by decide, by decide⟩ (by decide)
    (by decide) (by decide)
    (Event.script [⟨0, 20000, false, true⟩, ⟨0, -20000, false, false⟩, ⟨0, 20000, false, true⟩])
    (Event.script_canonical _)
  have sum := accounted.sum 0 0 0 (by decide) (by decide)
  have recorded : record (Ledger.run ⟨30, 10, 32767, 32767, 10, 10, 25, by decide, by decide⟩
      (Event.script [⟨0, 20000, false, true⟩, ⟨0, -20000, false, false⟩,
        ⟨0, 20000, false, true⟩])).kernel.pool 0 (semidOf 0 0) 0 = 25536 := by decide
  have done : (Ledger.run ⟨30, 10, 32767, 32767, 10, 10, 25, by decide, by decide⟩
      (Event.script [⟨0, 20000, false, true⟩, ⟨0, -20000, false, false⟩,
        ⟨0, 20000, false, true⟩])).owed 0 0 0 = 40000 := by decide
  have seq : ((Ledger.run ⟨30, 10, 32767, 32767, 10, 10, 25, by decide, by decide⟩
      (Event.script [⟨0, 20000, false, true⟩, ⟨0, -20000, false, false⟩,
        ⟨0, 20000, false, true⟩])).kernel.sema 0).perm.seq = 0 := by decide
  rw [seq, recorded, done] at sum
  exact absurd sum (by decide)

end Sol25.Sem
