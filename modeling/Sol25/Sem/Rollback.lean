import Sol25.Sem.Semop

/-!
# Rollback of a `semop` pass

A pass holds the lock of its set, but gives up `sem_lock` between the calls of `semaoe`.  Other
calls of `semaoe`, `semunrm` and `semexit` can therefore change the undo structures between any two
of its steps, the structure of its own process included.
-/

namespace Sol25.Sem

open List

/-- Where a pass stands. -/
inductive Phase
  /-- The operations done, the last one first, and those to do. -/
  | forward (done todo : List Sembuf)
  /-- The pass stopped, and `semundo` has yet to undo the operations `done`. -/
  | backward (done : List Sembuf) (reason : Stop)
deriving DecidableEq, Repr

/-- The operations that have been done and not undone. -/
def Phase.done : Phase → List Sembuf
  | .forward done _ => done
  | .backward done _ => done

/-- A pass of `semop`, with what it shares with the rest of the system. -/
structure Pass where
  /-- The progress of the pass. -/
  phase : Phase
  /-- The semaphores, protected by the lock that the pass holds. -/
  set : SemSet
  /-- The undo structures, protected by `sem_lock`. -/
  pool : Pool

/-- A step of the system during a pass. -/
inductive PassEvent
  /-- The pass performs or undoes one operation. -/
  | own
  /-- Another call gets hold of `sem_lock`. -/
  | other (event : PoolEvent)
deriving DecidableEq, Repr

/-- The calls that can overlap a pass of process `p` on `id`: the lock of the set excludes those on
the same identifier, and a process does not exit while it runs. -/
def PoolEvent.Overlaps (p : Nat) (id : Int) : PoolEvent → Prop
  | .semaoe q _ id' _ => q ≠ p ∨ id' ≠ id
  | .semunrm id' _ _ => id' ≠ id
  | .semexit q => q ≠ p

/-- A pass over an array that has done nothing yet. -/
def Pass.start (ops : List Sembuf) (set : SemSet) (pool : Pool) : Pass :=
  ⟨.forward [] ops, set, pool⟩

section Machine

variable (tuning : Tuning) (p : Nat) (id : Int) (binaryType : Bool)

/-- One step of the pass itself. -/
def Pass.advance (pass : Pass) : Pass :=
  match pass.phase with
  | .forward _ [] => pass
  | .forward done (op :: todo) =>
    match semopOne tuning p id binaryType pass.set pass.pool op with
    | .next set pool _ => ⟨.forward (op :: done) todo, set, pool⟩
    | .stop reason pool => ⟨.backward done reason, pass.set, pool⟩
  | .backward [] _ => pass
  | .backward (op :: done) reason =>
    let (set, pool) := semundoOne tuning p id pass.set pass.pool op
    ⟨.backward done reason, set, pool⟩

def Pass.step (pass : Pass) : PassEvent → Pass
  | .own => pass.advance tuning p id binaryType
  | .other event => { pass with pool := event.apply tuning pass.pool }

def Pass.run (pass : Pass) (events : List PassEvent) : Pass :=
  events.foldl (Pass.step tuning p id binaryType) pass

/-- Every call that overlaps the pass may do so. -/
def Overlapping (events : List PassEvent) : Prop :=
  ∀ event, PassEvent.other event ∈ events → event.Overlaps p id

/-- When the pass is about to undo a recorded operation, the table of its process has the entry
or room for one more. -/
def Pass.Room (pass : Pass) : Prop :=
  match pass.phase with
  | .backward (op :: _) _ =>
    op.undo → op.op ≠ 0 → ∀ up, pass.pool.slot p = some up →
      (∃ entry ∈ pass.pool.ents up, entry.Matches id op.num) ∨
        (pass.pool.ents up).length < tuning.semume
  | _ => True

/-- There is room at every step of the pass along a run. -/
def Pass.RoomAlong : Pass → List PassEvent → Prop
  | _, [] => True
  | pass, event :: rest =>
    (event = .own → pass.Room tuning p id) ∧
      Pass.RoomAlong (pass.step tuning p id binaryType event) rest

/-- The values of the set and the adjustments of process `p` for it are those of another state. -/
def Pass.Restores (after before : Pass) : Prop :=
  (∀ num, (after.set.sem num).semval = (before.set.sem num).semval) ∧
    ∀ num, record after.pool p id num = record before.pool p id num

end Machine

/-! ## The invariant of a pass -/

section Invariant

variable {tuning : Tuning} {p : Nat} {id : Int} {binaryType : Bool}

/-- What holds while the operations `done` of a pass from `start` are in effect. -/
structure PassInv (tuning : Tuning) (p : Nat) (id : Int) (start : Pass) (done : List Sembuf)
    (set : SemSet) (pool : Pool) : Prop where
  inv : PoolInv tuning pool
  /-- Every value is the initial one plus what was done. -/
  value : ∀ num, (set.sem num).semval = (start.set.sem num).semval + netVal done num
  /-- Every adjustment is the initial one minus what was recorded. -/
  adjusted : ∀ num, record pool p id num = short (record start.pool p id num - netUndo done num)
  /-- The process has a structure once something was recorded. -/
  held : ∀ op ∈ done, op.undo → op.op ≠ 0 → pool.slot p ≠ none ∧
    -(tuning.semaem : Int) ≤ op.op.toInt ∧ op.op.toInt ≤ tuning.semaem
  /-- The adjustments to come back to are within range. -/
  range : ∀ rest, rest <:+ done → ∀ num,
    -(tuning.semaem : Int) ≤ short (record start.pool p id num - netUndo rest num) ∧
      short (record start.pool p id num - netUndo rest num) ≤ tuning.semaem

variable {start : Pass} {done : List Sembuf} {set set' : SemSet} {pool pool' : Pool}
  {op : Sembuf}

theorem PassInv.initial (inv : PoolInv tuning start.pool) :
    PassInv tuning p id start [] start.set start.pool where
  inv := inv
  value := by simp [netVal]
  adjusted num := by simp [netUndo, inv.short_record]
  held := by simp
  range rest suffix num := by
    obtain rfl := suffix_nil.mp suffix
    simpa [netUndo, inv.short_record] using inv.record_bounds p id num

section

variable (passInv : PassInv tuning p id start done set pool)

include passInv

/-- A change of the pool that keeps the records of the process keeps the invariant. -/
theorem PassInv.of_records (inv : PoolInv tuning pool')
    (records : ∀ num, record pool' p id num = record pool p id num)
    (slot : pool.slot p ≠ none → pool'.slot p = pool.slot p) :
    PassInv tuning p id start done set pool' where
  inv := inv
  value := passInv.value
  adjusted num := (records num).trans (passInv.adjusted num)
  held op member undo nonzero := by
    obtain ⟨held, bounds⟩ := passInv.held op member undo nonzero
    exact ⟨slot held ▸ held, bounds⟩
  range := passInv.range

theorem PassInv.other {event : PoolEvent} (overlaps : event.Overlaps p id) :
    PassInv tuning p id start done set (event.apply tuning pool) := by
  have inv := passInv.inv
  cases event with
  | semaoe q val id' num =>
    obtain ⟨inv', slots, records⟩ := @semaoe_spec tuning pool q val.toInt id' num inv
      (short_toInt val)
    refine passInv.of_records inv' (fun num' => ?_) (slots p)
    rw [PoolEvent.apply, records, if_neg]
    rintro ⟨-, rfl, rfl, -⟩
    exact overlaps.elim (· rfl) (· rfl)
  | semunrm id' low high =>
    refine passInv.of_records (inv.semunrm id' low high) (fun num => ?_) (fun _ => rfl)
    rw [PoolEvent.apply, record_semunrm inv, if_neg]
    rintro ⟨rfl, -⟩
    exact overlaps rfl
  | semexit q =>
    have differs : p ≠ q := fun same => overlaps same.symm
    refine passInv.of_records (inv.release q) (fun num => ?_) (fun _ => ?_)
    · rw [PoolEvent.apply, record_release inv, if_neg differs]
    · rw [PoolEvent.apply, Pool.release_slot, if_neg differs]

/-- Doing one more operation keeps the invariant. -/
theorem PassInv.next (result : op.semaoe tuning pool p id = (none, pool')) :
    PassInv tuning p id start (op :: done)
      (set.put op.num (op.apply binaryType (set.sem op.num)).1) pool' := by
  obtain ⟨inv', slots, records⟩ := Sembuf.semaoe_spec passInv.inv result
  have adjusted : ∀ num, record pool' p id num =
      short (record start.pool p id num - netUndo (op :: done) num) := by
    intro num
    rw [records, netUndo]
    by_cases here : op.undo ∧ op.num = num
    · obtain ⟨undo, rfl⟩ := here
      simp only [undo, and_self, if_true, passInv.adjusted, short_short_sub]
      congr 1
      omega
    · rw [if_neg here, if_neg, passInv.adjusted, Int.add_zero]
      rintro ⟨-, undo, -, -, rfl⟩
      exact here ⟨undo, rfl⟩
  refine ⟨inv', fun num => ?_, adjusted, fun other member undo nonzero => ?_,
    fun rest suffix num => ?_⟩
  · rw [SemSet.put_sem, netVal]
    by_cases here : num = op.num
    · subst here
      rw [if_pos rfl, if_pos rfl, Sembuf.apply_semval, passInv.value, add_assoc]
    · rw [if_neg here, if_neg fun same => here same.symm, passInv.value, add_zero]
  · rcases mem_cons.mp member with rfl | member
    · simp only [Sembuf.semaoe, undo, if_true] at result
      have nonzero' : other.op.toInt ≠ 0 := fun zero =>
        nonzero (BitVec.eq_of_toInt_eq (by simpa using zero))
      have success := semaoe_success passInv.inv (short_toInt other.op)
        (congrArg Prod.fst result) nonzero'
      rwa [result] at success
    · obtain ⟨held, bounds⟩ := passInv.held other member undo nonzero
      exact ⟨slots p held ▸ held, bounds⟩
  · rcases suffix_cons_iff.mp suffix with rfl | suffix
    · rw [← adjusted]
      exact inv'.record_bounds p id num
    · exact passInv.range rest suffix num

theorem PassInv.refused {errno : Errno}
    (result : op.semaoe tuning pool p id = (some errno, pool')) :
    PassInv tuning p id start done set pool' := by
  obtain ⟨inv', slots, records⟩ := Sembuf.semaoe_spec passInv.inv result
  exact passInv.of_records inv' (fun num => by simp [records]) (slots p)

end

/-- With room in the table, undoing the last operation succeeds and keeps the invariant. -/
theorem PassInv.undo (passInv : PassInv tuning p id start (op :: done) set pool)
    (room : op.undo → op.op ≠ 0 → ∀ up, pool.slot p = some up →
      (∃ entry ∈ pool.ents up, entry.Matches id op.num) ∨ (pool.ents up).length < tuning.semume) :
    PassInv tuning p id start done (semundoOne tuning p id set pool op).1
      (semundoOne tuning p id set pool op).2 := by
  have range : ∀ rest, rest <:+ done → ∀ num,
      -(tuning.semaem : Int) ≤ short (record start.pool p id num - netUndo rest num) ∧
        short (record start.pool p id num - netUndo rest num) ≤ tuning.semaem :=
    fun rest suffix num => passInv.range rest (suffix.trans (suffix_cons op done)) num
  have held : ∀ other ∈ done, other.undo → other.op ≠ 0 → pool.slot p ≠ none ∧
      -(tuning.semaem : Int) ≤ other.op.toInt ∧ other.op.toInt ≤ tuning.semaem :=
    fun other member => passInv.held other (mem_cons_of_mem op member)
  unfold semundoOne
  by_cases zero : op.op = 0
  · rw [if_pos zero]
    refine ⟨passInv.inv, fun num => ?_, fun num => ?_, held, range⟩
    · simpa [netVal, zero] using passInv.value num
    · simpa [netUndo, zero] using passInv.adjusted num
  rw [if_neg zero]
  have value : ∀ num, ((set.put op.num { set.sem op.num with
      semval := (set.sem op.num).semval - op.op }).sem num).semval =
      (start.set.sem num).semval + netVal done num := by
    intro num
    have before := passInv.value num
    rw [netVal] at before
    rw [SemSet.put_sem]
    by_cases here : num = op.num
    · subst here
      rw [if_pos rfl] at before ⊢
      simp only [before, ← add_assoc, add_sub_cancel_right]
    · rw [if_neg fun same => here same.symm, add_zero] at before
      rw [if_neg here, before]
  cases undo : op.undo with
  | false =>
    refine ⟨passInv.inv, value, fun num => ?_, held, range⟩
    simpa [netUndo, undo] using passInv.adjusted num
  | true =>
    obtain ⟨slot, low, high⟩ := passInv.held op (by simp) undo zero
    obtain ⟨up, slot⟩ := Option.ne_none_iff_exists'.mp slot
    have before := passInv.adjusted op.num
    rw [netUndo, if_pos ⟨undo, rfl⟩] at before
    -- Undoing restores the adjustment of the shorter list, which is within range.
    have back : short (record pool p id op.num - (-op.op).toInt) =
        short (record start.pool p id op.num - netUndo done op.num) := by
      rw [before, toInt_neg_eq, short_sub_short, short_short_sub]
      congr 1
      omega
    have success : (semaoe tuning pool p (-op.op).toInt id op.num).1 = none := by
      have low' := BitVec.toInt_lt (x := op.op)
      refine semaoe_eq_none slot (passInv.inv.valid up) ?_ ?_ ?_ (room undo zero up slot)
      · rw [toInt_neg_eq, short, Int.bmod_def]
        omega
      · rw [toInt_neg_eq, short, Int.bmod_def]
        omega
      · rw [← Pool.table_of_slot slot, ← record, back]
        exact range done (suffix_refl done) op.num
    obtain ⟨inv', slots, records⟩ :=
      @semaoe_spec tuning pool p (-op.op).toInt id op.num passInv.inv (short_toInt _)
    refine ⟨inv', value, fun num => ?_, fun other member undo' nonzero => ?_, range⟩
    · simp only [if_true]
      rw [records]
      by_cases here : num = op.num
      · subst here
        simp only [success, and_self, if_true, back]
      · rw [if_neg (by simp [here]), passInv.adjusted, netUndo,
          if_neg fun same => here same.2.symm, Int.add_zero]
    · obtain ⟨slot', bounds⟩ := held other member undo' nonzero
      exact ⟨slots p slot' ▸ slot', bounds⟩

end Invariant

/-! ## Runs -/

section Runs

variable {tuning : Tuning} {p : Nat} {id : Int} {binaryType : Bool} {start pass : Pass}

def Pass.Inv (tuning : Tuning) (p : Nat) (id : Int) (pass start : Pass) : Prop :=
  PassInv tuning p id start pass.phase.done pass.set pass.pool

theorem Pass.Inv.advance (inv : pass.Inv tuning p id start) (room : pass.Room tuning p id) :
    (pass.advance tuning p id binaryType).Inv tuning p id start := by
  obtain ⟨phase, set, pool⟩ := pass
  match phase with
  | .forward done [] => exact inv
  | .forward done (op :: todo) =>
    rcases semopOne_cases tuning p id binaryType set pool op with
      ⟨after, -, call, result⟩ | ⟨errno, after, call, result⟩ | ⟨-, result⟩
    · simp only [Pass.advance, result]
      exact PassInv.next inv call
    · simp only [Pass.advance, result]
      exact PassInv.refused inv call
    · simp only [Pass.advance, result]
      exact inv
  | .backward [] reason => exact inv
  | .backward (op :: done) reason => exact PassInv.undo inv room

theorem Pass.Inv.run {events : List PassEvent} (inv : pass.Inv tuning p id start)
    (overlapping : Overlapping p id events)
    (room : pass.RoomAlong tuning p id binaryType events) :
    (pass.run tuning p id binaryType events).Inv tuning p id start := by
  induction events generalizing pass with
  | nil => exact inv
  | cons event rest ih =>
    have overlapping' : Overlapping p id rest :=
      fun other member => overlapping other (mem_cons_of_mem event member)
    refine ih ?_ overlapping' room.2
    cases event with
    | own => exact inv.advance (room.1 rfl)
    | other event => exact PassInv.other inv (overlapping event (by simp))

/-- A pass that stopped and has undone its operations leaves the values of the set and the
adjustments of its process for the set as they were, provided that the table of the process always
had room for what was to be undone. -/
theorem rolledBack_restores (tuning : Tuning) (history : List PoolEvent) (p : Nat) (id : Int)
    (set : SemSet) (ops : List Sembuf) (events : List PassEvent) (reason : Stop)
    (overlapping : Overlapping p id events)
    (room : (Pass.start ops set (Pool.after tuning history)).RoomAlong tuning p id set.binaryType
      events)
    (stopped : ((Pass.start ops set (Pool.after tuning history)).run tuning p id set.binaryType
      events).phase = .backward [] reason) :
    ((Pass.start ops set (Pool.after tuning history)).run tuning p id set.binaryType
      events).Restores p id (Pass.start ops set (Pool.after tuning history)) := by
  have pool_inv := Pool.after_inv tuning history
  have initial : (Pass.start ops set (Pool.after tuning history)).Inv tuning p id
      (Pass.start ops set (Pool.after tuning history)) := PassInv.initial pool_inv
  have final := initial.run overlapping room
  rw [Pass.Inv, stopped] at final
  constructor
  · intro num
    simpa [Phase.done, netVal] using final.value num
  · intro num
    rw [final.adjusted]
    simp only [Phase.done, netUndo, Int.sub_zero]
    exact pool_inv.short_record p id num

/-- The example of the results below: one undo entry for a process, two semaphores. -/
def Tuning.single : Tuning := ⟨1, 1, 10, 10, 10, 2, 2, by decide, by decide⟩

/-- The first semaphore has value one, the second has value zero. -/
def SemSet.pair : SemSet := ⟨2, true, fun num => ⟨if num = 0 then 1 else 0, 0, 0⟩⟩

/-- A recorded decrement of the first semaphore, then one of the second that has to wait. -/
def Sembuf.pair : List Sembuf := [⟨0, -1, false, true⟩, ⟨1, -1, false, false⟩]

/-- Process `0` did a recorded increment of the first semaphore; the decrement deletes its only
entry, and undoing it puts the entry back. -/
theorem rolledBack_restores_single :
    ((Pass.start Sembuf.pair SemSet.pair
      (Pool.after Tuning.single [.semaoe 0 1 0 0])).run Tuning.single 0 0 false
        [.own, .own, .own]).Restores 0 0
      (Pass.start Sembuf.pair SemSet.pair (Pool.after Tuning.single [.semaoe 0 1 0 0])) := by
  refine rolledBack_restores Tuning.single [.semaoe 0 1 0 0] 0 0 SemSet.pair Sembuf.pair
    [.own, .own, .own] (.sleep .semncnt) ?_ ?_ ?_
  · simp [Overlapping]
  · refine ⟨fun _ => trivial, fun _ => trivial, fun _ _ _ up slot => ?_, trivial⟩
    have found : up = 0 := Option.some.inj (slot.symm.trans (by decide))
    subst found
    exact .inr (by decide)
  · decide

/-- Without room the adjustment is lost: between the decrement and the wait another thread of the
process records an operation on another set, and the table is full when `semundo` comes to put the
entry back. -/
theorem not_rolledBack_restores :
    ¬ ∀ (tuning : Tuning) (history : List PoolEvent) (p : Nat) (id : Int) (set : SemSet)
      (ops : List Sembuf) (events : List PassEvent) (reason : Stop), Overlapping p id events →
      ((Pass.start ops set (Pool.after tuning history)).run tuning p id set.binaryType
        events).phase = .backward [] reason →
      ((Pass.start ops set (Pool.after tuning history)).run tuning p id set.binaryType
        events).Restores p id (Pass.start ops set (Pool.after tuning history)) := by
  intro claim
  have restored := (claim Tuning.single [.semaoe 0 1 0 0] 0 0 SemSet.pair Sembuf.pair
    [.own, .other (.semaoe 0 1 1 0), .own, .own] (.sleep .semncnt)
    (by simp [Overlapping, PoolEvent.Overlaps]) (by decide)).2 0
  have lost : record ((Pass.start Sembuf.pair SemSet.pair
      (Pool.after Tuning.single [.semaoe 0 1 0 0])).run Tuning.single 0 0 SemSet.pair.binaryType
        [.own, .other (.semaoe 0 1 1 0), .own, .own]).pool 0 0 0 = 0 := by decide
  have recorded : record (Pool.after Tuning.single [.semaoe 0 1 0 0]) 0 0 0 = -1 := by decide
  rw [lost] at restored
  exact absurd (restored.trans recorded) (by decide)

end Runs

end Sol25.Sem
