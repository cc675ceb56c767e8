import Sol25.Sem.Rouse

/-!
# No lost wake-up

On a set that is not of binary type the value a sleeper waits for can only come about with a
broadcast to its queue.  On a set of binary type the units of the value are spoken for by the calls
that `cv_signal` has woken and that have not run yet.  This breaks down when such a call does not
take its unit, and when the value comes to what a call waits for without being zero, so the results
below hold for runs that avoid both.
-/

namespace Sol25.Sem

open List

/-! ## The condition on runs -/

/-- The array waits for zero only where that means that the value was zero at the start. -/
def ZeroOk (tuning : Tuning) (ops : List Sembuf) : Prop :=
  ∀ pre op post, ops = pre ++ op :: post → op.op = 0 → op.nowait = false →
    ∀ vals, Succeeds tuning (pre ++ [op]) vals → vals op.num = 0

/-- The array can come to wait at an operation of `-1`. -/
def WaitsForOne (tuning : Tuning) (ops : List Sembuf) : Prop :=
  ∃ pre op post vals, ops = pre ++ op :: post ∧ op.op = -1 ∧ op.nowait = false ∧
    Succeeds tuning pre vals ∧ applyAll pre vals op.num = 0

/-- The array can be done whenever the first semaphore is not zero. -/
def TakesOne (tuning : Tuning) (ops : List Sembuf) : Prop :=
  ∀ vals : Nat → BitVec 16, 1 ≤ (vals 0).toNat → (vals 0).toNat ≤ tuning.semvmx →
    Succeeds tuning ops vals

/-- The steps that keep the promise of the wake-ups. -/
def Careful (tuning : Tuning) (id : Int) (world : World) : WorldEvent → Prop
  | .start _ ops => ZeroOk tuning ops ∧ calls world.procs + 1 < 2 ^ 16
  | .check i _ =>
    match world.procs[i]? with
    | some (.checking _ ops) =>
      world.set.binaryType = true → WaitsForOne tuning ops → TakesOne tuning ops
    | some (.woken p ops op queue signalled) =>
      (world.set.binaryType = true → WaitsForOne tuning ops → TakesOne tuning ops) ∧
        (queue = .semncnt → signalled = true → world.set.vals op.num ≠ 0 →
          Recorded tuning p id ops world.pool)
    | _ => True
  | .interrupt i =>
    match world.procs[i]? with
    | some (.woken _ _ op .semncnt signalled) =>
      world.set.binaryType = true ∨ signalled = true → (world.set.sem op.num).semncnt ≤ 1
    | _ => True
  | _ => True

/-! ## The invariant -/

/-- The array of a call. -/
def Proc.ops : Proc → List Sembuf
  | .checking _ ops => ops
  | .asleep _ ops _ _ => ops
  | .woken _ ops _ _ _ => ops
  | .returned _ => []

/-- The operation a call waits at belongs to its array. -/
def Proc.AtOp : Proc → Prop
  | .asleep _ ops op _ => op ∈ ops
  | .woken _ ops op _ _ => op ∈ ops
  | _ => True

/-- What is known of the arrays of the calls. -/
structure Proc.Valid (tuning : Tuning) (nsems : Nat) (proc : Proc) : Prop where
  nums : ∀ op ∈ proc.ops, op.num < nsems
  zeroOk : ZeroOk tuning proc.ops
  atOp : proc.AtOp

/-- The invariant of the machine, up to `slack` units of the value that are not spoken for. -/
structure WorldInv (tuning : Tuning) (slack : Nat) (world : World) : Prop where
  bounded : world.set.Bounded tuning
  few : calls world.procs < 2 ^ 16
  valid : ∀ proc ∈ world.procs, proc.Valid tuning world.set.nsems
  /-- A sleeper that waits for a greater value cannot go on with the present value, or its unit is
  spoken for. -/
  greater : ∀ p ops op, .asleep p ops op .semncnt ∈ world.procs →
    (∀ vals : Nat → BitVec 16, vals op.num = 0 → ¬ Succeeds tuning ops vals) ∧
      1 ≤ dropAll ops op.num ∧
      ((∀ vals : Nat → BitVec 16, (vals op.num).toNat ≤ (world.set.vals op.num).toNat →
          ¬ Succeeds tuning ops vals) ∨
        world.set.nsems = 1 ∧ (world.set.vals op.num).toNat ≤ tokens world.procs + slack)
  /-- A sleeper that waits for zero can go on at zero only, and the value is not zero. -/
  zero : ∀ p ops op, .asleep p ops op .semzcnt ∈ world.procs → ∀ vals,
    Succeeds tuning ops vals → vals op.num = 0 ∧ world.set.vals op.num ≠ 0
  /-- Sleepers of a set of binary type take a unit when they are woken. -/
  takers : world.set.binaryType = true → ∀ p ops op,
    .asleep p ops op .semncnt ∈ world.procs → TakesOne tuning ops
  /-- So do those that have been woken. -/
  woken : ∀ p ops op, .woken p ops op .semncnt true ∈ world.procs →
    world.set.nsems = 1 ∧ TakesOne tuning ops ∧ 1 ≤ dropAll ops op.num
  /-- Every unit of a set of binary type is spoken for while somebody sleeps. -/
  joint : world.set.binaryType = true → Waiting .semncnt 0 world.procs →
    (world.set.vals 0).toNat ≤ tokens world.procs + slack

section Invariant

variable {tuning : Tuning} {slack : Nat} {world : World}

theorem SemSet.nsems_of_binaryType {set : SemSet} (binary : set.binaryType = true) :
    set.nsems = 1 := by
  simp only [SemSet.binaryType, Bool.and_eq_true, beq_iff_eq] at binary
  exact binary.2

theorem SemSet.num_zero {set : SemSet} {num : Nat} (inside : num < set.nsems) :
    set.binaryType = true → num = 0 := by
  intro binary
  rw [SemSet.nsems_of_binaryType binary] at inside
  omega

variable {ops : List Sembuf} {p : Nat} {proc : Proc} {op : Sembuf}

theorem WorldInv.num_zero (inv : WorldInv tuning slack world) (single : world.set.nsems = 1)
    {queue : Queue} (member : .asleep p ops op queue ∈ world.procs) : op.num = 0 := by
  have valid := inv.valid _ member
  have small := valid.nums op valid.atOp
  omega

theorem waiting_of_mem {queue : Queue} {procs : List Proc}
    (member : .asleep p ops op queue ∈ procs) :
    Waiting queue op.num procs :=
  ⟨_, member, asleepOn_eq_true.mpr ⟨p, ops, op, rfl, rfl⟩⟩

theorem WokenFrom.asleep {procs : List Proc} {signal : Bool} {queue : Queue}
    (source : WokenFrom procs signal (.asleep p ops op queue)) :
    .asleep p ops op queue ∈ procs := by
  rcases source with member | ⟨p', ops', op', queue', signalled, -, impossible, -⟩
  · exact member
  · cases impossible

/-- Changes of values with their wake-ups keep the invariant. -/
theorem WorldInv.moved {slack' : Nat} (inv : WorldInv tuning slack world) {set : SemSet}
    {pool : Pool} {procs : List Proc} {dropped : Nat → Nat}
    (moved : Moved world.set.binaryType world.set world.procs set procs dropped)
    (nsems : set.nsems = world.set.nsems) (binary : set.binary = world.set.binary)
    (bounded : set.Bounded tuning) (enough : world.set.nsems = 1 → slack ≤ slack' + dropped 0) :
    WorldInv tuning slack' ⟨set, pool, procs⟩ := by
  have type_eq : set.binaryType = world.set.binaryType := by
    rw [SemSet.binaryType, SemSet.binaryType, nsems, binary]
  -- With one semaphore, what was spoken for stays so.
  have spoken : world.set.nsems = 1 → Waiting .semncnt 0 procs →
      (world.set.vals 0).toNat ≤ tokens world.procs + slack →
      (set.vals 0).toNat ≤ tokens procs + slack' := by
    intro single waiting before
    have step := moved.greater 0 waiting
    have room := enough single
    omega
  refine ⟨bounded, by rw [moved.calls_eq]; exact inv.few, fun proc member => ?_,
    fun p ops op member => ?_, fun p ops op member vals succeeds => ?_,
    fun type p ops op member => ?_, fun p ops op member => ?_, fun type waiting => ?_⟩
  · rw [nsems]
    rcases moved.source proc member with before | ⟨p, ops, op, queue, signalled, before, rfl, -⟩
    · exact inv.valid proc before
    · have valid := inv.valid _ before
      exact ⟨valid.nums, valid.zeroOk, valid.atOp⟩
  · have before := (moved.source _ member).asleep
    obtain ⟨never, drop, held⟩ := inv.greater p ops op before
    refine ⟨never, drop, ?_⟩
    have waiting : Waiting .semncnt op.num procs := waiting_of_mem member
    by_cases type : world.set.binaryType = true
    · have single := SemSet.nsems_of_binaryType type
      have num_zero := inv.num_zero single before
      rw [num_zero] at waiting ⊢
      have joint := inv.joint type (WokenFrom.waiting moved.source waiting)
      exact .inr ⟨nsems.trans single, spoken single waiting joint⟩
    · have step := moved.greater op.num waiting
      rw [moved.tokens_eq (by simpa using type)] at step
      rcases held with blocked | ⟨single, bound⟩
      · exact .inl fun vals small => blocked vals (by simp only at small; omega)
      · have num_zero := inv.num_zero single before
        rw [num_zero] at waiting bound ⊢
        exact .inr ⟨nsems.trans single, spoken single waiting bound⟩
  · have before := (moved.source _ member).asleep
    obtain ⟨at_zero, nonzero⟩ := inv.zero p ops op before vals succeeds
    exact ⟨at_zero, moved.zero op.num (waiting_of_mem member) nonzero⟩
  · rw [type_eq] at type
    exact inv.takers type p ops op (moved.source _ member).asleep
  · rw [nsems]
    rcases moved.source _ member with before | ⟨p', ops', op', queue, signalled, before, same, rule⟩
    · exact inv.woken p ops op before
    · cases same
      have type := (rule rfl).1
      exact ⟨SemSet.nsems_of_binaryType type, inv.takers type _ _ _ before,
        (inv.greater _ _ _ before).2.1⟩
  · rw [type_eq] at type
    have single := SemSet.nsems_of_binaryType type
    exact spoken single waiting (inv.joint type (WokenFrom.waiting moved.source waiting))

/-- No slack is left once nobody sleeps. -/
theorem WorldInv.quiet (inv : WorldInv tuning slack world)
    (quiet : world.set.nsems = 1 → ¬ Waiting .semncnt 0 world.procs) :
    WorldInv tuning 0 world where
  bounded := inv.bounded
  few := inv.few
  valid := inv.valid
  greater p ops op member := by
    obtain ⟨never, drop, held⟩ := inv.greater p ops op member
    refine ⟨never, drop, held.imp_right ?_⟩
    rintro ⟨single, -⟩
    have waiting := waiting_of_mem member
    rw [inv.num_zero single member] at waiting
    exact absurd waiting (quiet single)
  zero := inv.zero
  takers := inv.takers
  woken := inv.woken
  joint type waiting := absurd waiting (quiet (SemSet.nsems_of_binaryType type))

/-- No slack is left while the value is zero. -/
theorem WorldInv.tighten (inv : WorldInv tuning slack world)
    (nothing : world.set.nsems = 1 → world.set.vals 0 = 0) : WorldInv tuning 0 world where
  bounded := inv.bounded
  few := inv.few
  valid := inv.valid
  greater p ops op member := by
    obtain ⟨never, drop, held⟩ := inv.greater p ops op member
    refine ⟨never, drop, held.imp_right ?_⟩
    rintro ⟨single, -⟩
    refine ⟨single, ?_⟩
    rw [inv.num_zero single member, nothing single]
    exact Nat.zero_le _
  zero := inv.zero
  takers := inv.takers
  woken := inv.woken
  joint type _ := by
    rw [nothing (SemSet.nsems_of_binaryType type)]
    exact Nat.zero_le _

/-! ## Replacing one call -/

theorem set_split {procs : List Proc} {i : Nat} {old : Proc} (here : procs[i]? = some old) :
    ∃ front back, procs = front ++ old :: back ∧ ∀ new, procs.set i new = front ++ new :: back := by
  obtain ⟨inside, value⟩ := List.getElem?_eq_some_iff.mp here
  refine ⟨procs.take i, procs.drop (i + 1), ?_, fun new => ?_⟩
  · rw [← value, cons_getElem_drop_succ, take_append_drop]
  · rw [set_eq_take_append_cons_drop, if_pos inside]

/-- A call that neither sleeps nor holds a unit. -/
def Proc.Idle (proc : Proc) : Prop :=
  (∀ queue num, proc.asleepOn queue num = false) ∧ proc.isToken = false

theorem tokens_set {procs : List Proc} {i : Nat} {old new : Proc} (here : procs[i]? = some old)
    (idle : new.Idle) :
    tokens (procs.set i new) + (if old.isToken then 1 else 0) = tokens procs := by
  obtain ⟨front, back, procs_eq, set_eq⟩ := set_split here
  rw [set_eq, procs_eq]
  simp only [tokens, countP_append, countP_cons, idle.2, Bool.false_eq_true, if_false]
  omega

theorem sleepers_set {procs : List Proc} {i : Nat} {old new : Proc} {queue : Queue} {num : Nat}
    (here : procs[i]? = some old) (idle : new.Idle) :
    sleepers queue num (procs.set i new) + (if old.asleepOn queue num then 1 else 0) =
      sleepers queue num procs := by
  obtain ⟨front, back, procs_eq, set_eq⟩ := set_split here
  rw [set_eq, procs_eq]
  simp only [sleepers, countP_append, countP_cons, idle.1, Bool.false_eq_true, if_false]
  omega

theorem calls_set_le {procs : List Proc} {i : Nat} {old new : Proc} (here : procs[i]? = some old)
    (active : old.active = true) : calls (procs.set i new) ≤ calls procs := by
  obtain ⟨front, back, procs_eq, set_eq⟩ := set_split here
  rw [set_eq, procs_eq]
  simp only [calls, countP_append, countP_cons, active, if_true]
  split <;> omega

theorem mem_set_of_idle {procs : List Proc} {i : Nat} {new : Proc} (member : proc ∈ procs.set i new)
    (busy : proc ≠ new) : proc ∈ procs :=
  (mem_or_eq_of_mem_set member).resolve_right busy

/-- When a call stops sleeping or gives up its unit, the invariant holds up to that unit. -/
theorem WorldInv.replace (inv : WorldInv tuning 0 world) {i : Nat} {old new : Proc}
    (here : world.procs[i]? = some old) (active : old.active = true) (idle : new.Idle)
    (valid : new.Valid tuning world.set.nsems) :
    WorldInv tuning (if old.isToken then 1 else 0)
      { world with procs := world.procs.set i new } := by
  have tokens_eq := tokens_set here idle
  have asleep : ∀ p ops op queue, .asleep p ops op queue ∈ world.procs.set i new →
      .asleep p ops op queue ∈ world.procs := by
    intro p ops op queue member
    refine mem_set_of_idle member ?_
    rintro rfl
    have sleeping := idle.1 queue op.num
    rw [asleepOn_eq_true.mpr ⟨p, ops, op, rfl, rfl⟩] at sleeping
    cases sleeping
  refine ⟨inv.bounded, (calls_set_le here active).trans_lt inv.few, fun proc member => ?_,
    fun p ops op member => ?_, fun p ops op member => ?_, fun type p ops op member => ?_,
    fun p ops op member => ?_, fun type waiting => ?_⟩
  · rcases mem_or_eq_of_mem_set member with before | rfl
    · exact inv.valid proc before
    · exact valid
  · obtain ⟨never, drop, held⟩ := inv.greater p ops op (asleep _ _ _ _ member)
    refine ⟨never, drop, held.imp_right ?_⟩
    rintro ⟨single, bound⟩
    exact ⟨single, by simp only; omega⟩
  · exact inv.zero p ops op (asleep _ _ _ _ member)
  · exact inv.takers type p ops op (asleep _ _ _ _ member)
  · refine inv.woken p ops op (mem_set_of_idle member ?_)
    rintro rfl
    cases idle.2
  · obtain ⟨proc, member, sleeping⟩ := waiting
    obtain ⟨p, ops, op, rfl, num_eq⟩ := asleepOn_eq_true.mp sleeping
    have bound := inv.joint type ⟨_, asleep _ _ _ _ member, sleeping⟩
    simp only
    omega

/-- Replacing a call that does not sleep leaves the counters right. -/
theorem Counted.replace {binaryType : Bool} {set : SemSet} {procs : List Proc} {i : Nat}
    {old new : Proc} (counted : Counted binaryType set procs) (here : procs[i]? = some old)
    (awake : ∀ queue num, old.asleepOn queue num = false) (idle : new.Idle) :
    Counted binaryType set (procs.set i new) := by
  have same : ∀ queue num, sleepers queue num (procs.set i new) = sleepers queue num procs := by
    intro queue num
    have equal := @sleepers_set procs i old new queue num here idle
    rw [awake queue num] at equal
    simpa using equal
  refine ⟨fun queue num waiting => ?_, fun queue num => ?_, fun binary => ?_⟩
  · rw [waiting_iff, same, ← waiting_iff] at waiting
    exact counted.count queue num waiting
  · rw [same]
    exact counted.upper queue num
  · rw [same]
    exact counted.exact binary

/-! ## Falling asleep -/

theorem set_wake_getElem? {procs : List Proc} {i j : Nat} {other : Proc} {signalled : Bool}
    (here : procs[i]? = some proc) (awake : proc.wake signalled = proc)
    (there : procs[j]? = some other) :
    (procs.set j (other.wake signalled))[i]? = some proc := by
  rw [getElem?_set]
  split
  · rename_i same
    rw [same, here] at there
    obtain rfl := Option.some.inj there
    obtain ⟨inside, -⟩ := List.getElem?_eq_some_iff.mp here
    rw [if_pos (by omega), awake]
  · exact here

theorem deliver_getElem? {picks : List Nat} {wakes : List Wake} {procs : List Proc} {i : Nat}
    (here : procs[i]? = some proc) (awake : ∀ signalled, proc.wake signalled = proc) :
    (deliver picks wakes procs)[i]? = some proc := by
  induction wakes generalizing picks procs with
  | nil => exact here
  | cons wake rest ih =>
    cases wake with
    | broadcast queue num =>
      apply ih
      rw [wakeAll, getElem?_map, here, Option.map_some]
      split
      · rw [awake]
      · rfl
    | signal queue num =>
      apply ih
      unfold wakeOne
      simp only
      split
      · exact here
      · rename_i other there
        exact set_wake_getElem? here (awake true) there

/-- The sum of some operations on a semaphore. -/
def sumAll : List Sembuf → Nat → Int
  | [], _ => 0
  | op :: rest, num => (if num = op.num then op.op.toInt else 0) + sumAll rest num

theorem toNat_applyAll (small : tuning.semvmx ≤ 0xffff) {vals : Nat → BitVec 16}
    (succeeds : Succeeds tuning ops vals) (num : Nat) :
    ((applyAll ops vals num).toNat : Int) = (vals num).toNat + sumAll ops num := by
  induction ops generalizing vals with
  | nil => simp [applyAll, sumAll]
  | cons op rest ih =>
    have value := succeeds.1.toNat small
    rw [applyAll, ih succeeds.2, sumAll, Function.update_apply]
    split
    · rename_i here
      subst here
      omega
    · omega

theorem refusal_eq_sleep {queue : Queue} (refusal : op.refusal = .sleep queue) :
    op.nowait = false ∧ ¬ 0 < op.op.toInt ∧
      ((queue = .semzcnt ∧ op.op = 0) ∨ (queue = .semncnt ∧ op.op.toInt < 0)) := by
  unfold Sembuf.refusal at refusal
  split at refusal
  · cases refusal
  rename_i positive
  split at refusal
  · cases refusal
  rename_i wait
  split at refusal
  · rename_i zero
    cases refusal
    exact ⟨by simpa using wait, positive, .inl ⟨rfl, zero⟩⟩
  · rename_i nonzero
    cases refusal
    refine ⟨by simpa using wait, positive, .inr ⟨rfl, ?_⟩⟩
    by_contra negative
    exact nonzero (toInt_eq_zero positive negative)

section Sleep

variable {pre post ops : List Sembuf} {op : Sembuf} {vals : Nat → BitVec 16}

theorem not_succeeds_of_le (small : tuning.semvmx ≤ 0xffff) (succeeds : Succeeds tuning pre vals)
    (unfit : ¬ op.Fits tuning (applyAll pre vals op.num)) (negative : op.op.toInt < 0)
    {vals' : Nat → BitVec 16} (le : (vals' op.num).toNat ≤ (vals op.num).toNat) :
    ¬ Succeeds tuning (pre ++ op :: post) vals' := by
  rw [Succeeds.append]
  rintro ⟨succeeds', fits', -⟩
  have before := toNat_applyAll small succeeds op.num
  have after := toNat_applyAll small succeeds' op.num
  have nonzero : op.op ≠ 0 := by
    intro zero
    simp [zero] at negative
  simp only [Sembuf.Fits, if_neg (show ¬ 0 < op.op.toInt by omega)] at fits' unfit
  exact unfit ⟨by omega, fun zero => absurd zero nonzero⟩

/-- A call that waits for zero can go on at zero only, and the value is not zero. -/
theorem succeeds_at_zero (small : tuning.semvmx ≤ 0xffff) (succeeds : Succeeds tuning pre vals)
    (unfit : ¬ op.Fits tuning (applyAll pre vals op.num)) (zero : op.op = 0)
    (wait : op.nowait = false) (zeroOk : ZeroOk tuning (pre ++ op :: post))
    {vals' : Nat → BitVec 16} (succeeds' : Succeeds tuning (pre ++ op :: post) vals') :
    vals' op.num = 0 ∧ vals op.num ≠ 0 := by
  obtain ⟨early, fits', -⟩ := Succeeds.append.mp succeeds'
  have at_zero : vals' op.num = 0 :=
    zeroOk pre op post rfl zero wait vals' (Succeeds.append.mpr ⟨early, fits', trivial⟩)
  refine ⟨at_zero, fun same => unfit ?_⟩
  have before := toNat_applyAll small succeeds op.num
  have after := toNat_applyAll small early op.num
  have equal : applyAll pre vals op.num = applyAll pre vals' op.num := by
    apply BitVec.eq_of_toNat_eq
    rw [at_zero] at after
    rw [same] at before
    omega
  rw [equal]
  exact fits'

theorem le_dropAll (member : op ∈ ops) : op.drop op.num ≤ dropAll ops op.num := by
  induction ops with
  | nil => simp at member
  | cons first rest ih =>
    rw [dropAll]
    rcases mem_cons.mp member with rfl | member
    · omega
    · have later := ih member
      omega

end Sleep

theorem SemSet.binaryType_sleep {set : SemSet} {queue : Queue}
    (binary : (set.sleep op queue).binaryType = true) :
    set.binaryType = true ∧ (queue = .semncnt → ¬ op.op.toInt < -1) := by
  simp only [SemSet.binaryType, SemSet.sleep, SemSet.put_nsems, Bool.and_eq_true, beq_iff_eq,
    Bool.not_eq_true', Bool.and_eq_false_imp, decide_eq_false_iff_not] at binary ⊢
  exact ⟨⟨binary.1.1, binary.2⟩, binary.1.2⟩

/-- The counters count a call that falls asleep. -/
theorem Counted.sleep {set : SemSet} {procs : List Proc} {i : Nat} {queue : Queue}
    (counted : Counted set.binaryType set procs) (few : calls procs < 2 ^ 16)
    (here : procs[i]? = some (.checking p ops)) :
    Counted (set.sleep op queue).binaryType (set.sleep op queue)
      (procs.set i (.asleep p ops op queue)) := by
  obtain ⟨front, back, procs_eq, set_eq⟩ := set_split here
  have one_more : ∀ queue' num, sleepers queue' num (procs.set i (.asleep p ops op queue)) =
      sleepers queue' num procs + if queue' = queue ∧ num = op.num then 1 else 0 := by
    intro queue' num
    rw [set_eq, procs_eq]
    simp only [sleepers, countP_append, countP_cons, Proc.asleepOn, Bool.false_eq_true,
      if_false, Bool.and_eq_true, beq_iff_eq]
    by_cases same : queue' = queue ∧ num = op.num
    · rw [if_pos same, if_pos ⟨same.1.symm, same.2.symm⟩]
      omega
    · rw [if_neg same, if_neg fun equal => same ⟨equal.1.symm, equal.2.symm⟩]
      omega
  have counts : ∀ queue' num, ((set.sleep op queue).sem num).count queue' =
      (set.sem num).count queue' + if queue' = queue ∧ num = op.num then 1 else 0 := by
    intro queue' num
    have room : (set.sem op.num).count queue + 1 < 2 ^ 16 := by
      have upper := counted.upper queue op.num
      have more := one_more queue op.num
      rw [if_pos ⟨rfl, rfl⟩] at more
      have active : sleepers queue op.num (procs.set i (.asleep p ops op queue)) ≤
          calls (procs.set i (.asleep p ops op queue)) := by
        refine countP_mono_left fun proc _ sleeping => ?_
        obtain ⟨p, ops, op, rfl, -⟩ := asleepOn_eq_true.mp sleeping
        rfl
      have le := @calls_set_le procs i _ (.asleep p ops op queue) here rfl
      omega
    simp only [SemSet.sleep, SemSet.put_sem]
    by_cases num_eq : num = op.num
    · rw [if_pos num_eq, num_eq]
      by_cases queue_eq : queue' = queue
      · rw [queue_eq, Sema.count_setCount, if_pos ⟨rfl, rfl⟩, Nat.mod_eq_of_lt room]
      · rw [Sema.count_setCount_ne _ queue_eq, if_neg fun same => queue_eq same.1, Nat.add_zero]
    · rw [if_neg num_eq, if_neg fun same => num_eq same.2, Nat.add_zero]
  refine ⟨fun queue' num waiting => ?_, fun queue' num => ?_, fun binary => ?_⟩
  · rw [counts]
    rw [waiting_iff, one_more] at waiting
    split at waiting
    · rename_i same
      rw [if_pos same]
      omega
    · rename_i differs
      have before := counted.count queue' num (waiting_iff.mpr (by omega))
      omega
  · rw [counts, one_more]
    have before := counted.upper queue' num
    omega
  · have before := counted.exact (SemSet.binaryType_sleep binary).1
    have after := counts .semncnt 0
    rw [one_more, ← before]
    exact after

/-- A call that falls asleep after its pass has been undone keeps the invariant. -/
theorem WorldInv.sleep (small : tuning.semvmx ≤ 0xffff) (inv : WorldInv tuning 0 world) {i : Nat}
    {pre post : List Sembuf} {queue : Queue} (here : world.procs[i]? = some (.checking p ops))
    (ops_eq : ops = pre ++ op :: post) (succeeds : Succeeds tuning pre world.set.vals)
    (unfit : ¬ op.Fits tuning (applyAll pre world.set.vals op.num))
    (refusal : op.refusal = .sleep queue)
    (one : world.set.binaryType = true → WaitsForOne tuning ops → TakesOne tuning ops) :
    WorldInv tuning 0 ⟨world.set.sleep op queue, world.pool,
      world.procs.set i (.asleep p ops op queue)⟩ := by
  obtain ⟨wait, -, kind⟩ := refusal_eq_sleep refusal
  have valid := inv.valid (.checking p ops) (mem_of_getElem? here)
  have member_op : op ∈ ops := by rw [ops_eq]; simp
  have vals_eq : (world.set.sleep op queue).vals = world.set.vals :=
    funext fun num => world.set.sleep_sameVals op queue num
  have tokens_eq : tokens (world.procs.set i (.asleep p ops op queue)) = tokens world.procs := by
    obtain ⟨front, back, procs_eq, set_eq⟩ := set_split here
    rw [set_eq, procs_eq]
    simp [tokens, Proc.isToken]
  have member_cases : ∀ {proc : Proc}, proc ∈ world.procs.set i (.asleep p ops op queue) →
      proc ∈ world.procs ∨ proc = .asleep p ops op queue := mem_or_eq_of_mem_set
  -- The facts about the new sleeper.
  have negative : queue = .semncnt → op.op.toInt < 0 := by
    rintro rfl
    rcases kind with ⟨impossible, -⟩ | ⟨-, negative⟩
    · cases impossible
    · exact negative
  have blocked : queue = .semncnt → ∀ vals : Nat → BitVec 16,
      (vals op.num).toNat ≤ (world.set.vals op.num).toNat → ¬ Succeeds tuning ops vals := by
    intro queue_eq vals le
    rw [ops_eq]
    exact not_succeeds_of_le small succeeds unfit (negative queue_eq) le
  have taker : (world.set.sleep op queue).binaryType = true → queue = .semncnt →
      TakesOne tuning ops := by
    intro binary queue_eq
    obtain ⟨before, rule⟩ := SemSet.binaryType_sleep binary
    have minus_one : op.op.toInt = -1 := by
      have limit := rule queue_eq
      have below := negative queue_eq
      omega
    have op_eq : op.op = -1 := BitVec.eq_of_toInt_eq minus_one
    refine one before ⟨pre, op, post, world.set.vals, ops_eq, op_eq, wait, succeeds, ?_⟩
    simp only [Sembuf.Fits, if_neg (show ¬ 0 < op.op.toInt by omega)] at unfit
    have nonzero : op.op ≠ 0 := by
      intro zero
      rw [zero] at minus_one
      cases minus_one
    apply BitVec.eq_of_toNat_eq
    by_contra positive
    refine unfit ⟨?_, fun zero => absurd zero nonzero⟩
    have zero_nat : (0 : BitVec 16).toNat = 0 := rfl
    omega
  refine ⟨(world.set.sleep_sameVals op queue).bounded inv.bounded,
    (calls_set_le here rfl).trans_lt inv.few, fun proc member => ?_, fun p' ops' op' member => ?_,
    fun p' ops' op' member vals done => ?_, fun binary p' ops' op' member => ?_,
    fun p' ops' op' member => ?_, fun binary waiting => ?_⟩
  · rcases member_cases member with before | rfl
    · exact inv.valid proc before
    · exact ⟨valid.nums, valid.zeroOk, member_op⟩
  · rw [vals_eq, tokens_eq]
    rcases member_cases member with before | same
    · exact inv.greater p' ops' op' before
    · cases same
      have bound := blocked rfl
      refine ⟨fun vals zero => bound vals (by rw [zero]; exact Nat.zero_le _), ?_, .inl bound⟩
      have drops := le_dropAll member_op
      have below := negative rfl
      rw [Sembuf.drop, if_pos rfl] at drops
      omega
  · rw [vals_eq]
    rcases member_cases member with before | same
    · exact inv.zero p' ops' op' before vals done
    · cases same
      rcases kind with ⟨-, zero⟩ | ⟨impossible, -⟩
      · rw [ops_eq] at done
        exact succeeds_at_zero small succeeds unfit zero wait (ops_eq ▸ valid.zeroOk) done
      · cases impossible
  · rcases member_cases member with before | same
    · exact inv.takers (SemSet.binaryType_sleep binary).1 p' ops' op' before
    · cases same
      exact taker binary rfl
  · rcases member_cases member with before | same
    · exact inv.woken p' ops' op' before
    · cases same
  · rw [vals_eq, tokens_eq]
    obtain ⟨proc, member, sleeping⟩ := waiting
    obtain ⟨p', ops', op', rfl, num_eq⟩ := asleepOn_eq_true.mp sleeping
    rcases member_cases member with before | same
    · exact inv.joint (SemSet.binaryType_sleep binary).1 ⟨_, before, sleeping⟩
    · cases same
      -- The new sleeper would have taken a unit, so there is none.
      have takes := taker binary rfl
      have stuck := blocked rfl world.set.vals (Nat.le_refl _)
      have none : ¬ 1 ≤ (world.set.vals 0).toNat := fun positive =>
        stuck (takes _ positive (inv.bounded 0))
      omega

/-! ## Steps -/

/-- The machine is in order. -/
structure World.Good (tuning : Tuning) (world : World) : Prop where
  inv : WorldInv tuning 0 world
  counted : Counted world.set.binaryType world.set world.procs

theorem Proc.idle_returned (errno : Option Errno) : (Proc.returned errno).Idle :=
  ⟨fun _ _ => rfl, rfl⟩

theorem Proc.idle_checking (p : Nat) (ops : List Sembuf) : (Proc.checking p ops).Idle :=
  ⟨fun _ _ => rfl, rfl⟩

theorem Proc.valid_returned (nsems : Nat) (errno : Option Errno) :
    (Proc.returned errno).Valid tuning nsems := by
  refine ⟨by simp [Proc.ops], fun pre op post impossible => ?_, trivial⟩
  simp [Proc.ops] at impossible

theorem SemSet.binaryType_eq {set set' : SemSet} (nsems : set'.nsems = set.nsems)
    (binary : set'.binary = set.binary) : set'.binaryType = set.binaryType := by
  rw [SemSet.binaryType, SemSet.binaryType, nsems, binary]

/-- A pass keeps the machine in order. -/
theorem World.Good.pass (small : tuning.semvmx ≤ 0xffff) {id : Int} (good : world.Good tuning)
    {i : Nat} {picks : List Nat} {old : Proc} (here : world.procs[i]? = some old)
    (active : old.active = true) (awake : ∀ queue num, old.asleepOn queue num = false)
    (ops_eq : old.ops = ops)
    (one : world.set.binaryType = true → WaitsForOne tuning ops → TakesOne tuning ops)
    (token : old.isToken = true → world.set.nsems = 1 ∧ TakesOne tuning ops ∧ 1 ≤ dropAll ops 0 ∧
      (world.set.vals 0 ≠ 0 → Recorded tuning p id ops world.pool)) :
    (world.pass tuning id i picks p ops).Good tuning := by
  have member : old ∈ world.procs := mem_of_getElem? here
  have valid := good.inv.valid old member
  have nums := valid.nums
  rw [ops_eq] at nums
  have single : world.set.binaryType = true → ∀ op ∈ ops, op.num = 0 :=
    fun binary op member => SemSet.num_zero (nums op member) binary
  -- The call leaves its place; a unit that it should take is not spoken for meanwhile.
  have leave : ∀ new : Proc, new.Idle → new.Valid tuning world.set.nsems →
      WorldInv tuning (if old.isToken then 1 else 0) { world with procs := world.procs.set i new } ∧
        Counted world.set.binaryType world.set (world.procs.set i new) :=
    fun new idle valid =>
      ⟨good.inv.replace here active idle valid, good.counted.replace here awake idle⟩
  -- If the pass stops, there was no unit to take.
  have stopped : ∀ reason op set pool wakes,
      semopLoop tuning p id world.set.binaryType [] ops world.set world.pool [] =
        .stopped reason op set pool wakes → ∀ new : Proc, new.Idle →
      new.Valid tuning world.set.nsems →
      World.Good tuning ⟨set, pool, deliver picks wakes (world.procs.set i new)⟩ ∧
        set.binaryType = world.set.binaryType ∧ set.vals = world.set.vals ∧
        ∃ pre post, ops = pre ++ op :: post ∧ Succeeds tuning pre world.set.vals ∧
          ∀ queue, reason = .sleep queue → ¬ op.Fits tuning (applyAll pre world.set.vals op.num) ∧
              op.refusal = .sleep queue := by
    intro reason op set pool wakes result new idle new_valid
    obtain ⟨fresh, pre, post, wakes_eq, ops_split, succeeds, sleeps, refused, vals, nsems, binary,
      moves⟩ := semopLoop_stopped_moved small single result
    have type := SemSet.binaryType_eq nsems binary
    have vals_eq : set.vals = world.set.vals := funext fun num => by
      rw [vals num, netVal]
      exact sub_zero _
    obtain ⟨inv, counted⟩ := leave new idle new_valid
    have tight : WorldInv tuning 0 { world with procs := world.procs.set i new } := by
      cases holds : old.isToken with
      | false => simpa [holds] using inv
      | true =>
        refine inv.tighten fun _ => ?_
        obtain ⟨-, takes, -, recorded⟩ := token holds
        by_contra some_left
        have positive : 1 ≤ (world.set.vals 0).toNat := by
          have nonzero : (world.set.vals 0).toNat ≠ 0 := fun zero =>
            some_left (BitVec.eq_of_toNat_eq zero)
          omega
        exact refused (takes _ positive (good.inv.bounded 0)) (recorded some_left)
    obtain ⟨counted', roused⟩ := moves (world.procs.set i new) picks counted
    rw [nil_append] at wakes_eq
    subst wakes_eq
    have same : set.SameVals world.set := fun num => congrFun vals_eq num
    refine ⟨⟨tight.moved (roused.moved same) nsems binary (same.bounded good.inv.bounded)
      (by simp), by rw [type]; exact counted'⟩, type, vals_eq, pre, post, ops_split, succeeds,
      sleeps⟩
  unfold World.pass
  cases result : semopLoop tuning p id world.set.binaryType [] ops world.set world.pool [] with
  | completed set pool wakes =>
    obtain ⟨fresh, wakes_eq, nsems, binary, bounded, moves⟩ :=
      semopLoop_completed_moved small good.inv.bounded single result
    obtain ⟨inv, counted⟩ := leave (.returned none) (Proc.idle_returned none)
      (Proc.valid_returned _ none)
    obtain ⟨counted', moved⟩ := moves (world.procs.set i (.returned none)) picks counted
    rw [nil_append] at wakes_eq
    subst wakes_eq
    refine ⟨inv.moved moved nsems binary bounded fun _ => ?_, ?_⟩
    · split
      · rename_i holds
        have drops := (token holds).2.2.1
        omega
      · exact Nat.zero_le _
    · simp only [SemSet.binaryType_eq nsems binary]
      exact counted'
  | stopped reason op set pool wakes =>
    cases reason with
    | error errno =>
      exact (stopped _ op set pool wakes result (.returned (some errno))
        (Proc.idle_returned _) (Proc.valid_returned _ _)).1
    | sleep queue =>
      have checking_valid : (Proc.checking p ops).Valid tuning world.set.nsems :=
        ⟨nums, ops_eq ▸ valid.zeroOk, trivial⟩
      obtain ⟨good', type, vals_eq, pre, post, ops_split, succeeds, sleeps⟩ :=
        stopped _ op set pool wakes result (.checking p ops) (Proc.idle_checking p ops)
          checking_valid
      obtain ⟨unfit, refusal⟩ := sleeps queue rfl
      have inside : i < world.procs.length := (List.getElem?_eq_some_iff.mp here).1
      have place : (deliver picks wakes (world.procs.set i (.checking p ops)))[i]? =
          some (.checking p ops) := by
        refine deliver_getElem? ?_ fun _ => rfl
        rw [getElem?_set_self inside]
      exact ⟨good'.inv.sleep small place ops_split (by rw [vals_eq]; exact succeeds)
        (by rw [vals_eq]; exact unfit) refusal (by rw [type]; exact one),
        good'.counted.sleep good'.inv.few place⟩

/-- The counters after a signal has interrupted a call. -/
theorem Counted.interrupt {binaryType : Bool} {set : SemSet} {procs : List Proc} {i num : Nat}
    {old new : Proc} {queue : Queue} (counted : Counted binaryType set procs)
    (here : procs[i]? = some old) (idle : new.Idle)
    (only : ∀ queue' num', old.asleepOn queue' num' = true → queue' = queue ∧ num' = num)
    (single : binaryType = true → num = 0)
    (last : old.asleepOn queue num = false → binaryType = true → queue = .semncnt →
      (set.sem num).semncnt ≤ 1) :
    Counted binaryType (set.put num ((set.sem num).interrupt queue num).1)
      (deliver [] ((set.sem num).interrupt queue num).2 (procs.set i new)) := by
  have fewer := fun queue' num' => @sleepers_set procs i old new queue' num' here idle
  have elsewhere : ∀ queue' num', ¬ (queue' = queue ∧ num' = num) →
      sleepers queue' num' (procs.set i new) = sleepers queue' num' procs := by
    intro queue' num' other
    have equal := fewer queue' num'
    rw [if_neg fun sleeping => other (only queue' num' sleeping)] at equal
    exact equal
  have kept : ∀ queue' num' count, ¬ (queue' = queue ∧ num' = num) →
      ((set.put num ((set.sem num).setCount queue count)).sem num').count queue' =
        (set.sem num').count queue' := by
    intro queue' num' count other
    rw [SemSet.put_sem]
    split
    · rename_i num_eq
      have differs : queue' ≠ queue := fun same => other ⟨same, num_eq⟩
      rw [Sema.count_setCount_ne _ differs, num_eq]
    · rfl
  unfold Sema.interrupt
  split
  · rename_i few
    simp only [deliver]
    have gone : sleepers queue num (wakeAll queue num (procs.set i new)) = 0 := by
      have quiet := @not_waiting_wakeAll (procs.set i new) queue num
      rw [waiting_iff] at quiet
      omega
    refine ⟨fun queue' num' waiting => ?_, fun queue' num' => ?_, fun binary => ?_⟩
    · have other : ¬ (queue' = queue ∧ num' = num) := by
        rintro ⟨rfl, rfl⟩
        exact not_waiting_wakeAll waiting
      rw [kept queue' num' 0 other]
      refine counted.count queue' num' ?_
      rw [waiting_iff, ← elsewhere queue' num' other, ← sleepers_wakeAll other, ← waiting_iff]
      exact waiting
    · by_cases same : queue' = queue ∧ num' = num
      · obtain ⟨rfl, rfl⟩ := same
        rw [SemSet.put_sem, if_pos rfl, Sema.count_setCount]
        exact Nat.zero_le _
      · rw [kept queue' num' 0 same, sleepers_wakeAll same, elsewhere queue' num' same]
        exact counted.upper queue' num'
    · have num_zero := single binary
      subst num_zero
      cases queue with
      | semncnt =>
        rw [gone, SemSet.put_sem, if_pos rfl]
        rfl
      | semzcnt =>
        rw [sleepers_wakeAll (by simp), elsewhere .semncnt 0 (by simp), ← counted.exact binary]
        exact kept .semncnt 0 0 (by simp)
  · rename_i many
    simp only [deliver]
    have bound := counted.upper queue num
    have here_count := fewer queue num
    refine ⟨fun queue' num' waiting => ?_, fun queue' num' => ?_, fun binary => ?_⟩
    · by_cases same : queue' = queue ∧ num' = num
      · obtain ⟨rfl, rfl⟩ := same
        rw [SemSet.put_sem, if_pos rfl, Sema.count_setCount]
        omega
      · rw [kept queue' num' _ same]
        refine counted.count queue' num' ?_
        rw [waiting_iff, ← elsewhere queue' num' same, ← waiting_iff]
        exact waiting
    · by_cases same : queue' = queue ∧ num' = num
      · obtain ⟨rfl, rfl⟩ := same
        rw [SemSet.put_sem, if_pos rfl, Sema.count_setCount]
        split at here_count <;> omega
      · rw [kept queue' num' _ same, elsewhere queue' num' same]
        exact counted.upper queue' num'
    · have num_zero := single binary
      subst num_zero
      cases queue with
      | semncnt =>
        have exact := counted.exact binary
        have slept : old.asleepOn .semncnt 0 = true := by
          by_contra awake
          have limit := last (by simpa using awake) binary rfl
          exact many limit
        rw [if_pos slept] at here_count
        rw [SemSet.put_sem, if_pos rfl]
        simp only [Sema.setCount, Sema.count]
        omega
      | semzcnt =>
        rw [elsewhere .semncnt 0 (by simp), ← counted.exact binary]
        exact kept .semncnt 0 _ (by simp)

theorem Sema.interrupt_semval (sema : Sema) (queue : Queue) (num : Nat) :
    (sema.interrupt queue num).1.semval = sema.semval := by
  unfold Sema.interrupt
  split <;> simp

/-- A signal that interrupts a call keeps the machine in order. -/
theorem World.Good.interrupt (good : world.Good tuning) {i : Nat} {old : Proc} {queue : Queue}
    (here : world.procs[i]? = some old) (member_op : op ∈ old.ops)
    (only : ∀ queue' num', old.asleepOn queue' num' = true → queue' = queue ∧ num' = op.num)
    (last : old.asleepOn queue op.num = false → queue = .semncnt → world.set.binaryType = true ∨
      old.isToken = true → (world.set.sem op.num).semncnt ≤ 1)
    (token : old.isToken = true → queue = .semncnt ∧ old.asleepOn queue op.num = false) :
    ({ world with procs := world.procs.set i (.returned (some .eintr)) }.change op.num
      ((world.set.sem op.num).interrupt queue op.num)).Good tuning := by
  have op_small := (good.inv.valid old (mem_of_getElem? here)).nums op member_op
  have single := SemSet.num_zero op_small
  have idle := Proc.idle_returned (some .eintr)
  have counted := good.counted.interrupt here idle only single
    fun awake binary same => last awake same (.inl binary)
  have active : old.active = true := by
    cases old with
    | returned errno => cases member_op
    | _ => rfl
  have inv := good.inv.replace here active idle (Proc.valid_returned _ _)
  have same : (world.set.put op.num ((world.set.sem op.num).interrupt queue op.num).1).SameVals
      world.set := by
    intro num
    rw [SemSet.put_sem]
    split
    · rename_i num_eq
      rw [Sema.interrupt_semval, num_eq]
    · rfl
  have roused : Roused world.set.binaryType (world.procs.set i (.returned (some .eintr)))
      (deliver [] ((world.set.sem op.num).interrupt queue op.num).2
        (world.procs.set i (.returned (some .eintr)))) := by
    unfold Sema.interrupt
    split
    · exact ⟨calls_wakeAll, fun _ member => mem_wakeAll member _,
        Nat.le_of_eq tokens_wakeAll.symm, fun _ => tokens_wakeAll⟩
    · exact Roused.refl
  refine ⟨?_, counted⟩
  have loose := @WorldInv.moved tuning (if old.isToken then 1 else 0) _
    (if old.isToken then 1 else 0) inv _
    world.pool _ _ (roused.moved same) rfl rfl (same.bounded good.inv.bounded)
      (fun _ => Nat.le_add_right _ _)
  cases holds : old.isToken with
  | false =>
    rw [holds] at loose
    exact loose
  | true =>
    -- The unit is not spoken for any more, but the sleepers have been woken.
    refine loose.quiet fun nsems => ?_
    obtain ⟨rfl, awake⟩ := token holds
    have few := last awake rfl (.inr holds)
    have num_zero : op.num = 0 := by
      have nsems' : world.set.nsems = 1 := nsems
      omega
    have broadcast : (world.set.sem op.num).interrupt .semncnt op.num =
        ((world.set.sem op.num).setCount .semncnt 0, [.broadcast .semncnt op.num]) := by
      unfold Sema.interrupt
      exact if_pos few
    show ¬ Waiting .semncnt 0 (deliver [] ((world.set.sem op.num).interrupt .semncnt op.num).2
      (world.procs.set i (.returned (some .eintr))))
    rw [broadcast, num_zero]
    exact not_waiting_wakeAll

theorem World.Good.change (good : world.Good tuning) {num : Nat} {result : Sema × List Wake}
    (bound : result.1.semval.toNat ≤ tuning.semvmx)
    (moved : Counted world.set.binaryType (world.set.put num result.1)
        (deliver [] result.2 world.procs) ∧
      Moved world.set.binaryType world.set world.procs (world.set.put num result.1)
        (deliver [] result.2 world.procs) fun _ => 0) :
    (world.change num result).Good tuning := by
  refine ⟨good.inv.moved moved.2 rfl rfl (fun num' => ?_) (fun _ => Nat.le_refl _), moved.1⟩
  rw [SemSet.put_sem]
  split
  · exact bound
  · exact good.inv.bounded num'

theorem World.Good.assign (good : world.Good tuning) {num : Nat} {value : BitVec 16}
    (inside : num < world.set.nsems) (bound : value.toNat ≤ tuning.semvmx) :
    (world.change num ((world.set.sem num).assign value num)).Good tuning := by
  have counts := count_semval (world.set.sem num) value
  have bound' : ((world.set.sem num).assign value num).1.semval.toNat ≤ tuning.semvmx := by
    rw [Sema.assign_semval]
    exact bound
  refine good.change bound' ?_
  unfold Sema.assign
  simp only
  by_cases zero : value = 0
  · rw [if_neg (not_not_intro zero)]
    refine Moved.broadcast good.counted counts (SemSet.num_zero inside) [] (fun _ _ => rfl)
      (fun _ => ?_) (fun bad => absurd rfl bad)
    rw [zero]
    exact Nat.zero_le _
  · rw [if_pos zero]
    exact Moved.broadcast good.counted counts (SemSet.num_zero inside) [] (fun _ _ => rfl)
      (fun bad => absurd rfl bad) fun _ => zero

/-- The ways in which `semexit` changes a semaphore. -/
theorem Sema.adjust_cases (tuning : Tuning) (sema : Sema) (aoe : Int) (num : Nat) :
    sema.adjust tuning aoe num = (sema, []) ∨
    0 ≤ sema.semval.toNat + aoe ∧ sema.semval.toNat + aoe ≤ tuning.semvmx ∧
      ((0 < aoe ∧ sema.adjust tuning aoe num =
          ({ sema with semval := BitVec.ofInt 16 (sema.semval.toNat + aoe) } : Sema).wake .semncnt
            num false) ∨
        (aoe ≤ 0 ∧ sema.semval.toNat + aoe = 0 ∧ sema.adjust tuning aoe num =
          ({ sema with semval := BitVec.ofInt 16 (sema.semval.toNat + aoe) } : Sema).wake .semzcnt
            num false) ∨
        (aoe ≤ 0 ∧ sema.semval.toNat + aoe ≠ 0 ∧ sema.adjust tuning aoe num =
          ({ sema with semval := BitVec.ofInt 16 (sema.semval.toNat + aoe) }, []))) := by
  by_cases outside : sema.semval.toNat + aoe < 0 ∨ (tuning.semvmx : Int) < sema.semval.toNat + aoe
  · exact .inl (by simp only [Sema.adjust, if_pos outside])
  refine .inr ⟨by omega, by omega, ?_⟩
  by_cases raised : 0 < aoe
  · have nonzero : ¬ (sema.semval.toNat + aoe : Int) = 0 := by omega
    refine .inl ⟨raised, ?_⟩
    simp only [Sema.adjust, if_neg outside, if_neg nonzero, if_pos raised, nil_append]
  · refine .inr ?_
    by_cases zero : (sema.semval.toNat + aoe : Int) = 0
    · refine .inl ⟨by omega, zero, ?_⟩
      simp only [Sema.adjust, if_neg outside, if_pos zero, if_neg raised, append_nil]
    · refine .inr ⟨by omega, zero, ?_⟩
      simp only [Sema.adjust, if_neg outside, if_neg zero, if_neg raised, append_nil]

theorem World.Good.adjust (small : tuning.semvmx ≤ 0xffff) (good : world.Good tuning) {num : Nat}
    {aoe : Int} (inside : num < world.set.nsems) :
    (world.change num ((world.set.sem num).adjust tuning aoe num)).Good tuning := by
  rcases Sema.adjust_cases tuning (world.set.sem num) aoe num with unchanged | ⟨low, high, kind⟩
  · rw [unchanged]
    exact good.change (good.inv.bounded num) (Moved.put good.counted (fun _ => rfl)
      (fun _ _ => rfl) (Nat.le_refl _) fun nonzero => nonzero)
  have value : ((BitVec.ofInt 16 ((world.set.sem num).semval.toNat + aoe)).toNat : Int) =
      (world.set.sem num).semval.toNat + aoe := by
    rw [BitVec.toNat_ofInt]
    omega
  have counts := count_semval (world.set.sem num)
    (BitVec.ofInt 16 ((world.set.sem num).semval.toNat + aoe))
  have nonzero : (world.set.sem num).semval.toNat + aoe ≠ 0 →
      BitVec.ofInt 16 ((world.set.sem num).semval.toNat + aoe) ≠ 0 := by
    intro differs same
    have zero_nat : (0 : BitVec 16).toNat = 0 := rfl
    rw [same, zero_nat] at value
    exact differs value.symm
  have lowered : aoe ≤ 0 → (BitVec.ofInt 16 ((world.set.sem num).semval.toNat + aoe)).toNat + 0 ≤
      (world.set.vals num).toNat := by
    intro sign
    rw [SemSet.vals]
    omega
  rcases kind with ⟨raised, result⟩ | ⟨sign, -, result⟩ | ⟨sign, some_left, result⟩
  · rw [result]
    refine good.change (by rw [Sema.wake_semval]; simp only; omega) ?_
    exact Moved.broadcast good.counted counts (SemSet.num_zero inside) [] (fun _ _ => rfl)
      (fun bad => absurd rfl bad) fun _ => nonzero (by omega)
  · rw [result]
    refine good.change (by rw [Sema.wake_semval]; simp only; omega) ?_
    exact Moved.broadcast good.counted counts (SemSet.num_zero inside) [] (fun _ _ => rfl)
      (fun _ => lowered sign) fun bad => absurd rfl bad
  · rw [result]
    exact good.change (by simp only; omega) (Moved.put good.counted counts (fun _ _ => rfl)
      (lowered sign) fun _ => nonzero some_left)

theorem World.Good.start (good : world.Good tuning) (zeroOk : ZeroOk tuning ops)
    (room : calls world.procs + 1 < 2 ^ 16) (nums : ∀ op ∈ ops, op.num < world.set.nsems) :
    World.Good tuning { world with procs := world.procs ++ [.checking p ops] } := by
  have tokens_eq : tokens (world.procs ++ [.checking p ops]) = tokens world.procs := by
    simp [tokens, Proc.isToken]
  have sleepers_eq : ∀ queue num, sleepers queue num (world.procs ++ [.checking p ops]) =
      sleepers queue num world.procs := by
    intro queue num
    simp [sleepers, Proc.asleepOn]
  have waiting : ∀ {queue num}, Waiting queue num (world.procs ++ [.checking p ops]) →
      Waiting queue num world.procs := by
    intro queue num waiting
    rwa [waiting_iff, sleepers_eq, ← waiting_iff] at waiting
  have asleep : ∀ {p' ops' op queue}, .asleep p' ops' op queue ∈ world.procs ++ [.checking p ops] →
      .asleep p' ops' op queue ∈ world.procs := by
    intro p' ops' op queue member
    simpa using member
  constructor
  · refine ⟨good.inv.bounded, by simpa [calls, Proc.active] using room, fun proc member => ?_,
      fun p' ops' op member => ?_, fun p' ops' op member =>
        good.inv.zero p' ops' op (asleep member),
      fun type p' ops' op member => good.inv.takers type p' ops' op (asleep member),
      fun p' ops' op member => ?_, fun type waits => ?_⟩
    · rcases mem_append.mp member with before | fresh
      · exact good.inv.valid proc before
      · obtain rfl := mem_singleton.mp fresh
        exact ⟨nums, zeroOk, trivial⟩
    · rw [tokens_eq]
      exact good.inv.greater p' ops' op (asleep member)
    · exact good.inv.woken p' ops' op (by simpa using member)
    · rw [tokens_eq]
      exact good.inv.joint type (waiting waits)
  · refine ⟨fun queue num waits => good.counted.count queue num (waiting waits),
      fun queue num => ?_, fun binary => ?_⟩
    · rw [sleepers_eq]
      exact good.counted.upper queue num
    · rw [sleepers_eq]
      exact good.counted.exact binary

theorem World.Good.setall (good : world.Good tuning) {vals : Nat → BitVec 16}
    (bounds : ∀ num < world.set.nsems, (vals num).toNat ≤ tuning.semvmx) :
    ((List.range world.set.nsems).foldl (fun world num =>
      world.change num ((world.set.sem num).assign (vals num) num)) world).Good tuning := by
  have inside : ∀ num ∈ List.range world.set.nsems, num < world.set.nsems :=
    fun num member => mem_range.mp member
  generalize List.range world.set.nsems = nums at inside
  induction nums generalizing world with
  | nil => exact good
  | cons num rest ih =>
    have small := inside num (by simp)
    exact ih (good.assign small (bounds num small)) bounds
      fun other member => inside other (by simp [member])

/-- A careful step keeps the machine in order. -/
theorem World.Good.step (small : tuning.semvmx ≤ 0xffff) {id : Int} (good : world.Good tuning)
    {event : WorldEvent} (careful : Careful tuning id world event) :
    (world.step tuning id event).Good tuning := by
  cases event with
  | start p ops =>
    obtain ⟨zeroOk, room⟩ := careful
    simp only [World.step]
    split
    · rename_i nums
      exact good.start zeroOk room nums
    · exact good
  | check i picks =>
    simp only [World.step]
    simp only [Careful] at careful
    split
    · rename_i p ops here
      rw [here] at careful
      exact good.pass small here rfl (fun _ _ => rfl) rfl careful (by simp [Proc.isToken])
    · rename_i p ops op queue signalled here
      rw [here] at careful
      refine good.pass small here rfl (fun _ _ => rfl) rfl careful.1 fun holds => ?_
      have member := mem_of_getElem? here
      cases queue with
      | semzcnt => simp [Proc.isToken] at holds
      | semncnt =>
        cases signalled with
        | false => simp [Proc.isToken] at holds
        | true =>
          obtain ⟨nsems, takes, drops⟩ := good.inv.woken p ops op member
          have valid := good.inv.valid _ member
          have num_small := valid.nums op valid.atOp
          have num_zero : op.num = 0 := by omega
          have records := careful.2 rfl rfl
          rw [num_zero] at drops records
          exact ⟨nsems, takes, drops, records⟩
    · exact good
  | interrupt i =>
    simp only [World.step]
    simp only [Careful] at careful
    split
    · rename_i p ops op queue here
      have valid := good.inv.valid _ (mem_of_getElem? here)
      refine good.interrupt here valid.atOp (fun queue' num' sleeping => ?_) (fun awake => ?_)
        (by simp [Proc.isToken])
      · simp only [Proc.asleepOn, Bool.and_eq_true, beq_iff_eq] at sleeping
        exact ⟨sleeping.1.symm, sleeping.2.symm⟩
      · simp [Proc.asleepOn] at awake
    · rename_i p ops op queue signalled here
      have valid := good.inv.valid _ (mem_of_getElem? here)
      refine good.interrupt here valid.atOp (by simp [Proc.asleepOn]) (fun _ same holds => ?_)
        (fun holds => ?_)
      · subst same
        rw [here] at careful
        refine careful (holds.imp_right fun token => ?_)
        cases signalled with
        | false => simp [Proc.isToken] at token
        | true => rfl
      · cases queue with
        | semncnt => exact ⟨rfl, rfl⟩
        | semzcnt => simp [Proc.isToken] at holds
    · exact good
  | setval num value =>
    simp only [World.step]
    split
    · rename_i fits
      exact good.assign fits.1 fits.2
    · exact good
  | setall vals =>
    simp only [World.step]
    split
    · rename_i bounds
      exact good.setall bounds
    · exact good
  | adjust num aoe =>
    simp only [World.step]
    split
    · rename_i inside
      exact good.adjust small inside
    · exact good
  | other pool =>
    exact ⟨⟨good.inv.bounded, good.inv.few, good.inv.valid, good.inv.greater, good.inv.zero,
      good.inv.takers, good.inv.woken, good.inv.joint⟩, good.counted⟩

theorem World.initial_good (nsems : Nat) (pool : Pool) :
    (World.initial nsems pool).Good tuning := by
  have nobody : ∀ {queue num}, ¬ Waiting queue num (World.initial nsems pool).procs := by
    rintro queue num ⟨proc, member, -⟩
    simp [World.initial] at member
  refine ⟨⟨fun num => Nat.zero_le _, by simp [World.initial, calls], by simp [World.initial],
    by simp [World.initial], by simp [World.initial], by simp [World.initial],
    by simp [World.initial], fun _ waiting => absurd waiting nobody⟩,
    ⟨fun _ _ waiting => absurd waiting nobody, fun queue num => ?_, fun _ => rfl⟩⟩
  cases queue <;> exact Nat.le_refl _

theorem Reached.good (small : tuning.semvmx ≤ 0xffff) {id : Int} {nsems : Nat}
    (reached : Reached tuning id nsems (Careful tuning id) world) : world.Good tuning := by
  induction reached with
  | initial pool => exact World.initial_good nsems pool
  | step event _ careful ih => exact ih.step small careful

theorem WorldInv.noneLost (inv : WorldInv tuning 0 world)
    (counted : Counted world.set.binaryType world.set world.procs) (quiet : world.Quiet) :
    world.NoneLost tuning := by
  have no_tokens : tokens world.procs = 0 := by
    rw [tokens, countP_eq_zero]
    intro proc member
    have still := quiet proc member
    cases proc with
    | woken p ops op queue signalled => exact still.elim
    | checking p ops => exact still.elim
    | asleep p ops op queue => simp [Proc.isToken]
    | returned errno => simp [Proc.isToken]
  intro p ops op queue member
  cases queue with
  | semncnt =>
    obtain ⟨never, -, held⟩ := inv.greater p ops op member
    refine ⟨?_, fun _ => counted.count .semncnt op.num (waiting_of_mem member)⟩
    rcases held with blocked | ⟨-, bound⟩
    · exact blocked world.set.vals (Nat.le_refl _)
    · apply never
      rw [no_tokens] at bound
      exact BitVec.eq_of_toNat_eq (Nat.le_zero.mp bound)
  | semzcnt =>
    refine ⟨fun succeeds => ?_, by simp⟩
    obtain ⟨zero, nonzero⟩ := inv.zero p ops op member _ succeeds
    exact nonzero zero

end Invariant

/-! ## Runs -/

/-- In every quiet state of a careful run no sleeper could go on. -/
theorem quiet_noneLost (tuning : Tuning) (small : tuning.semvmx ≤ 0xffff) (id : Int) (nsems : Nat)
    (world : World) (reached : Reached tuning id nsems (Careful tuning id) world)
    (quiet : world.Quiet) : world.NoneLost tuning := by
  have good := reached.good small
  exact good.inv.noneLost good.counted quiet

/-- The machine after some events. -/
def World.run (tuning : Tuning) (id : Int) (world : World) (events : List WorldEvent) : World :=
  events.foldl (World.step tuning id) world

/-- The events meet a condition one after the other. -/
def World.Meets (tuning : Tuning) (id : Int) (meets : World → WorldEvent → Prop) :
    World → List WorldEvent → Prop
  | _, [] => True
  | world, event :: rest =>
    meets world event ∧ (world.step tuning id event).Meets tuning id meets rest

theorem Reached.run {tuning : Tuning} {id : Int} {nsems : Nat} {meets : World → WorldEvent → Prop}
    {world : World} (reached : Reached tuning id nsems meets world) {events : List WorldEvent}
    (all : world.Meets tuning id meets events) :
    Reached tuning id nsems meets (world.run tuning id events) := by
  induction events generalizing world with
  | nil => exact reached
  | cons event rest ih => exact ih (reached.step event all.1) all.2

/-- A call that waits for one unit. -/
def Sembuf.takeOne : Sembuf := ⟨0, -1, false, false⟩

def Sembuf.addOne : Sembuf := ⟨0, 1, false, false⟩

/-- Two calls fall asleep on an empty semaphore, and one of them takes the unit that a third one
adds. -/
theorem quiet_noneLost_single :
    ((World.initial 1 (Pool.initial Tuning.default)).run Tuning.default 0
      [.start 0 [Sembuf.takeOne], .check 0 [], .start 1 [Sembuf.takeOne], .check 1 [],
        .start 2 [Sembuf.addOne], .check 2 [1], .check 1 []]).procs =
      [.asleep 0 [Sembuf.takeOne] Sembuf.takeOne .semncnt, .returned none, .returned none] ∧
    ((World.initial 1 (Pool.initial Tuning.default)).run Tuning.default 0
      [.start 0 [Sembuf.takeOne], .check 0 [], .start 1 [Sembuf.takeOne], .check 1 [],
        .start 2 [Sembuf.addOne], .check 2 [1], .check 1 []]).NoneLost Tuning.default := by
  have one_op : ∀ {op' : Sembuf}, op'.op ≠ 0 → ZeroOk Tuning.default [op'] := by
    intro op' nonzero pre op post split zero
    have member : op ∈ [op'] := by rw [split]; simp
    obtain rfl := mem_singleton.mp member
    exact absurd zero nonzero
  have takes : TakesOne Tuning.default [Sembuf.takeOne] := by
    intro vals positive _
    have minus : Sembuf.takeOne.op.toInt = -1 := by decide
    have same : vals Sembuf.takeOne.num = vals 0 := rfl
    refine ⟨?_, trivial⟩
    rw [Sembuf.Fits, if_neg (by omega), same]
    exact ⟨by omega, fun impossible => by cases impossible⟩
  have never : ¬ WaitsForOne Tuning.default [Sembuf.addOne] := by
    rintro ⟨pre, op, post, vals, split, minus, -⟩
    have member : op ∈ [Sembuf.addOne] := by rw [split]; simp
    obtain rfl := mem_singleton.mp member
    cases minus
  have procs : ((World.initial 1 (Pool.initial Tuning.default)).run Tuning.default 0
      [.start 0 [Sembuf.takeOne], .check 0 [], .start 1 [Sembuf.takeOne], .check 1 [],
        .start 2 [Sembuf.addOne], .check 2 [1], .check 1 []]).procs =
      [.asleep 0 [Sembuf.takeOne] Sembuf.takeOne .semncnt, .returned none, .returned none] := by
    decide
  refine ⟨procs, quiet_noneLost Tuning.default (by decide) 0 1 _ ?_ fun proc member => ?_⟩
  · refine Reached.run (.initial _) ⟨⟨one_op (by decide), by decide⟩, fun _ _ => takes,
      ⟨one_op (by decide), by decide⟩, fun _ _ => takes, ⟨one_op (by decide), by decide⟩,
      fun _ waits => absurd waits never, ⟨fun _ _ => takes, fun _ _ _ => ⟨?_, trivial⟩⟩, trivial⟩
    decide
  · rw [procs] at member
    simp only [mem_cons, not_mem_nil, or_false] at member
    rcases member with rfl | rfl | rfl <;> trivial

/-- A wake-up is lost: `cv_signal` wakes a call that needs two units, it goes back to sleep, and the
call that needs only one is left asleep although the unit is there. -/
theorem not_quiet_noneLost :
    ¬ ∀ (tuning : Tuning) (id : Int) (nsems : Nat) (world : World),
      Reached tuning id nsems (fun _ _ => True) world → world.Quiet → world.NoneLost tuning := by
  intro claim
  let world := (World.initial 1 (Pool.initial Tuning.default)).run Tuning.default 0
    [.start 0 [Sembuf.takeOne, Sembuf.takeOne], .check 0 [], .start 1 [Sembuf.takeOne],
      .check 1 [], .start 2 [Sembuf.addOne], .check 2 [0], .check 0 []]
  have procs : world.procs = [.asleep 0 [Sembuf.takeOne, Sembuf.takeOne] Sembuf.takeOne .semncnt,
      .asleep 1 [Sembuf.takeOne] Sembuf.takeOne .semncnt, .returned none] := by decide
  have reached : Reached Tuning.default 0 1 (fun _ _ => True) world :=
    (Reached.initial (Pool.initial Tuning.default)).run (by simp only [World.Meets, and_self])
  have quiet : world.Quiet := by
    intro proc member
    rw [procs] at member
    simp only [mem_cons, not_mem_nil, or_false] at member
    rcases member with rfl | rfl | rfl
    · trivial
    · trivial
    · trivial
  have lost := (claim Tuning.default 0 1 world reached quiet 1 [Sembuf.takeOne] Sembuf.takeOne
    .semncnt (by rw [procs]; simp)).1
  exact lost (by decide)

end Sol25.Sem
