import Sol25.Sem.Sleepers

/-!
# Wake-ups of a pass

What the wake-ups of `semop`, `SETVAL`, `SETALL` and `semexit` do to the sleepers of a set.  A
broadcast leaves nobody asleep on its queue; a set of binary type sends one `cv_signal` for each
unit added to the value, so that the units are spoken for by the calls that were woken.
-/

namespace Sol25.Sem

open List Function

/-! ## Lists of calls -/

/-- The call was woken by `cv_signal` to take a unit of the value. -/
def Proc.isToken : Proc → Bool
  | .woken _ _ _ .semncnt true => true
  | _ => false

/-- The number of calls that are to take a unit of the value. -/
def tokens (procs : List Proc) : Nat := procs.countP Proc.isToken

/-- The call has not returned. -/
def Proc.active : Proc → Bool
  | .returned _ => false
  | _ => true

/-- The number of calls that have not returned. -/
def calls (procs : List Proc) : Nat := procs.countP Proc.active

def sleepers (queue : Queue) (num : Nat) (procs : List Proc) : Nat :=
  procs.countP (Proc.asleepOn queue num)

/-- Some call sleeps on the queue. -/
def Waiting (queue : Queue) (num : Nat) (procs : List Proc) : Prop :=
  ∃ proc ∈ procs, proc.asleepOn queue num = true

variable {proc : Proc} {queue : Queue} {sema : Sema}

theorem waiting_iff {num : Nat} {procs : List Proc} :
    Waiting queue num procs ↔ 0 < sleepers queue num procs := by
  rw [sleepers, countP_pos_iff]
  rfl

/-- Where a call can come from when others are woken: it was there, or it slept. -/
def WokenFrom (procs : List Proc) (signal : Bool) (proc : Proc) : Prop :=
  proc ∈ procs ∨ ∃ p ops op queue signalled, Proc.asleep p ops op queue ∈ procs ∧
    proc = .woken p ops op queue signalled ∧
    (signalled = true → signal = true ∧ queue = .semncnt)

section Lists

variable {procs : List Proc} {queue queue' : Queue} {num num' : Nat}

theorem asleepOn_eq_true :
    proc.asleepOn queue num = true ↔ ∃ p ops op, proc = .asleep p ops op queue ∧ op.num = num := by
  constructor
  · intro sleeping
    match proc with
    | .asleep p ops op queue' =>
      simp only [Proc.asleepOn, Bool.and_eq_true, beq_iff_eq] at sleeping
      obtain ⟨rfl, rfl⟩ := sleeping
      exact ⟨p, ops, op, rfl, rfl⟩
  · rintro ⟨p, ops, op, rfl, rfl⟩
    simp [Proc.asleepOn]

theorem mem_wakeAll (member : proc ∈ wakeAll queue num procs) (signal : Bool) :
    WokenFrom procs signal proc := by
  obtain ⟨before, before_mem, rfl⟩ := List.mem_map.mp member
  split
  · rename_i sleeping
    obtain ⟨p, ops, op, rfl, -⟩ := asleepOn_eq_true.mp sleeping
    exact .inr ⟨p, ops, op, queue, false, before_mem, rfl, by simp⟩
  · exact .inl before_mem

theorem wakeAll_asleepOn (proc : Proc) (signalled : Bool) :
    (proc.wake signalled).asleepOn queue num = false := by
  cases proc <;> rfl

theorem not_waiting_wakeAll : ¬ Waiting queue num (wakeAll queue num procs) := by
  rintro ⟨proc, member, sleeping⟩
  obtain ⟨before, -, rfl⟩ := List.mem_map.mp member
  split at sleeping
  · rw [wakeAll_asleepOn] at sleeping
    cases sleeping
  · contradiction

theorem sleepers_wakeAll (other : ¬ (queue' = queue ∧ num' = num)) :
    sleepers queue' num' (wakeAll queue num procs) = sleepers queue' num' procs := by
  rw [sleepers, wakeAll, countP_map, sleepers]
  apply countP_congr
  intro proc _
  simp only [comp]
  split
  · rename_i sleeping
    obtain ⟨p, ops, op, rfl, rfl⟩ := asleepOn_eq_true.mp sleeping
    simp only [Proc.wake, Proc.asleepOn, Bool.and_eq_true, beq_iff_eq, Bool.false_eq_true,
      false_iff]
    rintro ⟨rfl, rfl⟩
    exact other ⟨rfl, rfl⟩
  · rfl

theorem countP_wakeAll {test : Proc → Bool} (same : ∀ p ops op,
    test (.woken p ops op queue false) = test (.asleep p ops op queue)) :
    (wakeAll queue num procs).countP test = procs.countP test := by
  rw [wakeAll, countP_map]
  apply countP_congr
  intro proc _
  simp only [comp]
  split
  · rename_i sleeping
    obtain ⟨p, ops, op, rfl, rfl⟩ := asleepOn_eq_true.mp sleeping
    rw [Proc.wake, same]
  · rfl

theorem tokens_wakeAll : tokens (wakeAll queue num procs) = tokens procs :=
  countP_wakeAll fun _ _ _ => by cases queue <;> rfl

theorem calls_wakeAll : calls (wakeAll queue num procs) = calls procs :=
  countP_wakeAll fun _ _ _ => rfl

/-- `cv_signal` wakes exactly one sleeper if there is one. -/
theorem wakeOne_cases (pick : Nat) :
    (¬ Waiting queue num procs ∧ wakeOne queue num pick procs = procs) ∨
    ∃ front back p ops op, op.num = num ∧ procs = front ++ .asleep p ops op queue :: back ∧
      wakeOne queue num pick procs = front ++ .woken p ops op queue true :: back := by
  have found : ∀ i proc, procs[i]? = some proc → proc.asleepOn queue num = true →
      ∃ front back p ops op, op.num = num ∧ procs = front ++ .asleep p ops op queue :: back ∧
        procs.set i (proc.wake true) = front ++ .woken p ops op queue true :: back := by
    intro i proc here sleeping
    obtain ⟨p, ops, op, rfl, num_eq⟩ := asleepOn_eq_true.mp sleeping
    obtain ⟨inside, value⟩ := List.getElem?_eq_some_iff.mp here
    refine ⟨procs.take i, procs.drop (i + 1), p, ops, op, num_eq, ?_, ?_⟩
    · rw [← value, cons_getElem_drop_succ, take_append_drop]
    · rw [set_eq_take_append_cons_drop, if_pos inside]
      rfl
  unfold wakeOne
  simp only
  by_cases picked : (procs[pick]?).any (Proc.asleepOn queue num) = true
  · rw [if_pos picked]
    cases here : procs[pick]? with
    | none => simp [here] at picked
    | some proc => exact .inr (found pick proc here (by simpa [here] using picked))
  · rw [if_neg picked]
    by_cases waiting : Waiting queue num procs
    · have inside := findIdx_lt_length_of_exists waiting
      have here := getElem?_eq_getElem inside
      simp only [here]
      exact .inr (found _ _ here (findIdx_getElem))
    · have outside : procs.findIdx (Proc.asleepOn queue num) = procs.length := by
        rw [findIdx_eq_length]
        intro proc member
        by_contra sleeping
        exact waiting ⟨proc, member, by simpa using sleeping⟩
      simp only [outside, getElem?_length]
      exact .inl ⟨waiting, trivial⟩

end Lists

/-! ## Counters -/

/-- The counters of the set are right about its sleepers; for a set of binary type they are
exact. -/
structure Counted (binaryType : Bool) (set : SemSet) (procs : List Proc) : Prop where
  count : ∀ queue num, Waiting queue num procs → 1 ≤ (set.sem num).count queue
  upper : ∀ queue num, (set.sem num).count queue ≤ sleepers queue num procs
  exact : binaryType = true → (set.sem 0).semncnt = sleepers .semncnt 0 procs

/-- What some wake-ups lead to. -/
structure Roused (binaryType : Bool) (procs procs' : List Proc) : Prop where
  calls_eq : calls procs' = calls procs
  source : ∀ proc ∈ procs', WokenFrom procs binaryType proc
  tokens_le : tokens procs ≤ tokens procs'
  tokens_eq : binaryType = false → tokens procs' = tokens procs

/-- What some changes of values with their wake-ups lead to. -/
structure Moved (binaryType : Bool) (set : SemSet) (procs : List Proc) (set' : SemSet)
    (procs' : List Proc) (dropped : Nat → Nat) : Prop
    extends Roused binaryType procs procs' where
  /-- While a call sleeps for a greater value, each increment has gone to a call that was woken. -/
  greater : ∀ num, Waiting .semncnt num procs' →
    (set'.vals num).toNat + dropped num + tokens procs ≤ (set.vals num).toNat + tokens procs'
  /-- While a call sleeps for zero, the value does not become zero. -/
  zero : ∀ num, Waiting .semzcnt num procs' → set.vals num ≠ 0 → set'.vals num ≠ 0

section Moves

variable {binaryType : Bool} {set set' set'' : SemSet} {procs procs' procs'' : List Proc}
  {dropped dropped' : Nat → Nat} {num : Nat}

theorem WokenFrom.waiting {signal : Bool} (source : ∀ proc ∈ procs', WokenFrom procs signal proc)
    (waiting : Waiting queue num procs') : Waiting queue num procs := by
  obtain ⟨proc, member, sleeping⟩ := waiting
  rcases source proc member with before | ⟨p, ops, op, queue', signalled, -, rfl, -⟩
  · exact ⟨proc, before, sleeping⟩
  · simp [Proc.asleepOn] at sleeping

theorem WokenFrom.trans {signal : Bool} (source : ∀ proc ∈ procs', WokenFrom procs signal proc)
    (from' : WokenFrom procs' signal proc) : WokenFrom procs signal proc := by
  rcases from' with member | ⟨p, ops, op, queue, signalled, member, rfl, rule⟩
  · exact source proc member
  · rcases source _ member with before | ⟨p', ops', op', queue', signalled', -, impossible, -⟩
    · exact .inr ⟨p, ops, op, queue, signalled, before, rfl, rule⟩
    · cases impossible

theorem Roused.refl : Roused binaryType procs procs :=
  ⟨rfl, fun _ member => .inl member, Nat.le_refl _, fun _ => rfl⟩

theorem Roused.moved (roused : Roused binaryType procs procs') (same : set'.SameVals set) :
    Moved binaryType set procs set' procs' fun _ => 0 where
  toRoused := roused
  greater num _ := by
    have le := roused.tokens_le
    rw [SemSet.vals, SemSet.vals, same num]
    omega
  zero num _ nonzero := by
    rw [SemSet.vals, same num]
    exact nonzero

theorem Roused.trans (first : Roused binaryType procs procs')
    (second : Roused binaryType procs' procs'') : Roused binaryType procs procs'' where
  calls_eq := second.calls_eq.trans first.calls_eq
  source proc member := WokenFrom.trans first.source (second.source proc member)
  tokens_le := Nat.le_trans first.tokens_le second.tokens_le
  tokens_eq multiple := (second.tokens_eq multiple).trans (first.tokens_eq multiple)

theorem Moved.trans (first : Moved binaryType set procs set' procs' dropped)
    (second : Moved binaryType set' procs' set'' procs'' dropped') :
    Moved binaryType set procs set'' procs'' fun num => dropped num + dropped' num where
  toRoused := first.toRoused.trans second.toRoused
  greater num waiting := by
    have early := first.greater num (WokenFrom.waiting second.source waiting)
    have late := second.greater num waiting
    omega
  zero num waiting nonzero :=
    second.zero num waiting (first.zero num (WokenFrom.waiting second.source waiting) nonzero)

@[simp]
theorem Sema.count_setCount (sema : Sema) (queue : Queue) (count : Nat) :
    (sema.setCount queue count).count queue = count := by
  cases queue <;> rfl

theorem Sema.count_setCount_ne (sema : Sema) {queue' : Queue} (differs : queue' ≠ queue)
    (count : Nat) : (sema.setCount queue count).count queue' = sema.count queue' := by
  cases queue <;> cases queue' <;> first | rfl | exact absurd rfl differs

theorem Counted.put (counted : Counted binaryType set procs)
    (counts : ∀ queue, sema.count queue = (set.sem num).count queue) :
    Counted binaryType (set.put num sema) procs where
  count queue num' waiting := by
    have positive := counted.count queue num' waiting
    rw [SemSet.put_sem]
    split
    · rename_i here
      rw [counts, ← here]
      exact positive
    · exact positive
  upper queue num' := by
    have bound := counted.upper queue num'
    rw [SemSet.put_sem]
    split
    · rename_i here
      rw [counts, ← here]
      exact bound
    · exact bound
  exact binary := by
    rw [SemSet.put_sem, ← counted.exact binary]
    split
    · rename_i here
      rw [here]
      exact counts .semncnt
    · rfl

/-- Change a value and wake all sleepers of one of its queues. -/
theorem Counted.broadcast (counted : Counted binaryType set procs)
    (counts : ∀ queue', sema.count queue' = (set.sem num).count queue')
    (single : binaryType = true → num = 0) (picks : List Nat) :
    Counted binaryType (set.put num (sema.wake queue num false).1)
        (deliver picks (sema.wake queue num false).2 procs) ∧
      ¬ Waiting queue num (deliver picks (sema.wake queue num false).2 procs) ∧
      (∀ proc ∈ deliver picks (sema.wake queue num false).2 procs,
        WokenFrom procs binaryType proc) ∧
      tokens (deliver picks (sema.wake queue num false).2 procs) = tokens procs ∧
      calls (deliver picks (sema.wake queue num false).2 procs) = calls procs := by
  by_cases none : sema.count queue = 0
  · have quiet : ¬ Waiting queue num procs := by
      intro waiting
      have positive := counted.count queue num waiting
      rw [← counts] at positive
      omega
    simp only [Sema.wake, if_pos none, deliver]
    exact ⟨counted.put counts, quiet, fun _ member => .inl member, trivial, trivial⟩
  · simp only [Sema.wake, if_neg none, Bool.false_eq_true, if_false, deliver]
    have kept : ∀ queue' num', ¬ (queue' = queue ∧ num' = num) →
        ((set.put num (sema.setCount queue 0)).sem num').count queue' =
          (set.sem num').count queue' := by
      intro queue' num' other
      rw [SemSet.put_sem]
      split
      · rename_i here
        have differs : queue' ≠ queue := fun same => other ⟨same, here⟩
        rw [Sema.count_setCount_ne sema differs, counts, here]
      · rfl
    refine ⟨⟨fun queue' num' waiting => ?_, fun queue' num' => ?_, fun binary => ?_⟩,
      not_waiting_wakeAll, fun _ member => mem_wakeAll member binaryType,
        tokens_wakeAll, calls_wakeAll⟩
    · have other : ¬ (queue' = queue ∧ num' = num) := by
        rintro ⟨rfl, rfl⟩
        exact not_waiting_wakeAll waiting
      rw [kept queue' num' other]
      refine counted.count queue' num' ?_
      rw [waiting_iff, ← sleepers_wakeAll other, ← waiting_iff]
      exact waiting
    · by_cases here : queue' = queue ∧ num' = num
      · obtain ⟨rfl, rfl⟩ := here
        rw [SemSet.put_sem, if_pos rfl, Sema.count_setCount]
        exact Nat.zero_le _
      · rw [kept queue' num' here, sleepers_wakeAll here]
        exact counted.upper queue' num'
    · have zero := single binary
      subst zero
      cases queue with
      | semncnt =>
        have quiet : ¬ 0 < sleepers .semncnt 0 (wakeAll .semncnt 0 procs) := by
          rw [← waiting_iff]
          exact not_waiting_wakeAll
        rw [SemSet.put_sem, if_pos rfl]
        simp only [Sema.setCount]
        omega
      | semzcnt =>
        rw [sleepers_wakeAll (by simp), ← counted.exact binary]
        exact kept .semncnt 0 (by simp)

/-- Increment a value of a set of binary type by one and wake one sleeper. -/
theorem Counted.signal (counted : Counted true set procs)
    (counts : ∀ queue', sema.count queue' = (set.sem 0).count queue') (picks : List Nat) :
    Counted true (set.put 0 (sema.wake .semncnt 0 true).1)
        (deliver picks (sema.wake .semncnt 0 true).2 procs) ∧
      (∀ proc ∈ deliver picks (sema.wake .semncnt 0 true).2 procs, WokenFrom procs true proc) ∧
      tokens procs ≤ tokens (deliver picks (sema.wake .semncnt 0 true).2 procs) ∧
      (Waiting .semncnt 0 (deliver picks (sema.wake .semncnt 0 true).2 procs) →
        tokens (deliver picks (sema.wake .semncnt 0 true).2 procs) = tokens procs + 1) ∧
      calls (deliver picks (sema.wake .semncnt 0 true).2 procs) = calls procs := by
  have exact := counted.exact rfl
  have count : sema.count .semncnt = sleepers .semncnt 0 procs := (counts .semncnt).trans exact
  by_cases none : sema.count .semncnt = 0
  · have quiet : ¬ Waiting .semncnt 0 procs := by
      rw [waiting_iff]
      omega
    simp only [Sema.wake, if_pos none, deliver]
    exact ⟨counted.put counts, fun _ member => .inl member, Nat.le_refl _,
      fun waiting => absurd waiting quiet, trivial⟩
  · simp only [Sema.wake, if_neg none, if_true, deliver]
    rcases @wakeOne_cases procs .semncnt 0 picks.headI with
      ⟨quiet, -⟩ | ⟨front, back, p, ops, op, num_eq, procs_eq, result⟩
    · rw [waiting_iff] at quiet
      omega
    · rw [result]
      have fewer : sleepers .semncnt 0 (front ++ .woken p ops op .semncnt true :: back) + 1 =
          sleepers .semncnt 0 procs := by
        rw [procs_eq]
        simp [sleepers, countP_append, Proc.asleepOn, num_eq]
        omega
      have zeros : ∀ queue num, ¬ (queue = .semncnt ∧ num = 0) →
          sleepers queue num (front ++ .woken p ops op .semncnt true :: back) =
            sleepers queue num procs := by
        intro queue num other
        rw [procs_eq]
        have not_here : (Proc.asleep p ops op .semncnt).asleepOn queue num = false := by
          by_contra sleeping
          simp only [Proc.asleepOn, Bool.and_eq_true, beq_iff_eq, Bool.not_eq_false] at sleeping
          exact other ⟨sleeping.1.symm, by rw [← sleeping.2, num_eq]⟩
        have not_woken : (Proc.woken p ops op .semncnt true).asleepOn queue num = false := rfl
        simp only [sleepers, countP_append, countP_cons, not_here, not_woken]
      have more : tokens (front ++ .woken p ops op .semncnt true :: back) = tokens procs + 1 := by
        rw [procs_eq]
        simp [tokens, countP_append, countP_cons, Proc.isToken]
        omega
      have kept : ∀ queue num, ¬ (queue = .semncnt ∧ num = 0) →
          ((set.put 0 (sema.setCount .semncnt (sema.count .semncnt - 1))).sem num).count queue =
            (set.sem num).count queue := by
        intro queue num here
        rw [SemSet.put_sem]
        split
        · rename_i num_zero
          have differs : queue ≠ .semncnt := fun same => here ⟨same, num_zero⟩
          rw [Sema.count_setCount_ne sema differs, counts, ← num_zero]
        · rfl
      refine ⟨⟨fun queue num waiting => ?_, fun queue num => ?_, fun _ => ?_⟩,
        fun proc member => ?_, by omega, fun _ => more, ?_⟩
      · by_cases here : queue = .semncnt ∧ num = 0
        · obtain ⟨rfl, rfl⟩ := here
          rw [waiting_iff] at waiting
          rw [SemSet.put_sem, if_pos rfl, Sema.count_setCount]
          omega
        · have before : Waiting queue num procs := by
            rw [waiting_iff, ← zeros queue num here, ← waiting_iff]
            exact waiting
          rw [kept queue num here]
          exact counted.count queue num before
      · by_cases here : queue = .semncnt ∧ num = 0
        · obtain ⟨rfl, rfl⟩ := here
          rw [SemSet.put_sem, if_pos rfl, Sema.count_setCount]
          omega
        · rw [kept queue num here, zeros queue num here]
          exact counted.upper queue num
      · rw [SemSet.put_sem, if_pos rfl]
        simp only [Sema.setCount]
        omega
      · rcases mem_append.mp member with early | late
        · exact .inl (by rw [procs_eq]; simp [early])
        · rcases mem_cons.mp late with rfl | late
          · exact .inr ⟨p, ops, op, .semncnt, true, by rw [procs_eq]; simp, rfl, by simp⟩
          · exact .inl (by rw [procs_eq]; simp [late])
      · rw [procs_eq]
        simp [calls, countP_cons, Proc.active]

theorem SemSet.vals_put (set : SemSet) (num : Nat) (sema : Sema) (num' : Nat) :
    (set.put num sema).vals num' = if num' = num then sema.semval else set.vals num' := by
  rw [SemSet.vals, SemSet.put_sem]
  split
  · rfl
  · rfl

/-- A change of one value with a broadcast to the sleepers that it may concern. -/
theorem Moved.broadcast (counted : Counted binaryType set procs)
    (counts : ∀ queue', sema.count queue' = (set.sem num).count queue')
    (single : binaryType = true → num = 0) (picks : List Nat)
    (other : ∀ num', num' ≠ num → dropped num' = 0)
    (greater : queue ≠ .semncnt → sema.semval.toNat + dropped num ≤ (set.vals num).toNat)
    (zero : queue ≠ .semzcnt → sema.semval ≠ 0) :
    Counted binaryType (set.put num (sema.wake queue num false).1)
        (deliver picks (sema.wake queue num false).2 procs) ∧
      Moved binaryType set procs (set.put num (sema.wake queue num false).1)
        (deliver picks (sema.wake queue num false).2 procs) dropped := by
  obtain ⟨counted', quiet, source, tokens_eq, calls_eq⟩ := counted.broadcast counts single picks
  refine ⟨counted', ⟨calls_eq, source, Nat.le_of_eq tokens_eq.symm, fun _ => tokens_eq⟩,
    fun num' waiting => ?_, fun num' waiting nonzero => ?_⟩
  · rw [SemSet.vals_put, tokens_eq, Sema.wake_semval]
    split
    · rename_i here
      subst here
      have differs : queue ≠ .semncnt := by
        rintro rfl
        exact quiet waiting
      have bound := greater differs
      omega
    · rename_i elsewhere
      rw [other num' elsewhere]
      omega
  · rw [SemSet.vals_put, Sema.wake_semval]
    split
    · rename_i here
      subst here
      apply zero
      rintro rfl
      exact quiet waiting
    · exact nonzero

/-- A change of one value that concerns no sleeper. -/
theorem Moved.put (counted : Counted binaryType set procs)
    (counts : ∀ queue, sema.count queue = (set.sem num).count queue)
    (other : ∀ num', num' ≠ num → dropped num' = 0)
    (greater : sema.semval.toNat + dropped num ≤ (set.vals num).toNat)
    (zero : set.vals num ≠ 0 → sema.semval ≠ 0) :
    Counted binaryType (set.put num sema) procs ∧
      Moved binaryType set procs (set.put num sema) procs dropped := by
  refine ⟨counted.put counts, Roused.refl, fun num' _ => ?_, fun num' _ nonzero => ?_⟩
  · rw [SemSet.vals_put]
    split
    · rename_i here
      subst here
      omega
    · rename_i elsewhere
      rw [other num' elsewhere]
      omega
  · rw [SemSet.vals_put]
    split
    · rename_i here
      subst here
      exact zero nonzero
    · exact nonzero

/-- By how much an operation lowers a value. -/
def Sembuf.drop (op : Sembuf) (num : Nat) : Nat :=
  if num = op.num then (-op.op.toInt).toNat else 0

theorem Sembuf.drop_other (op : Sembuf) {num : Nat} (differs : num ≠ op.num) :
    op.drop num = 0 := by
  rw [Sembuf.drop, if_neg differs]

theorem count_semval (sema : Sema) (value : BitVec 16) (queue : Queue) :
    ({ sema with semval := value } : Sema).count queue = sema.count queue := by
  cases queue <;> rfl

/-- An operation that is done wakes the sleepers it may concern. -/
theorem Moved.apply {tuning : Tuning} {op : Sembuf} (small : tuning.semvmx ≤ 0xffff)
    (ready : Ready tuning set op) (counted : Counted binaryType set procs)
    (single : binaryType = true → op.num = 0) (picks : List Nat) :
    Counted binaryType (set.put op.num (op.apply binaryType (set.sem op.num)).1)
        (deliver picks (op.apply binaryType (set.sem op.num)).2 procs) ∧
      Moved binaryType set procs (set.put op.num (op.apply binaryType (set.sem op.num)).1)
        (deliver picks (op.apply binaryType (set.sem op.num)).2 procs) op.drop := by
  have value := Sembuf.Fits.toNat ready small
  have counts := count_semval (set.sem op.num) ((set.sem op.num).semval + op.op)
  unfold Sembuf.apply
  by_cases positive : 0 < op.op.toInt
  · have nonzero : (set.sem op.num).semval + op.op ≠ 0 := by
      intro zero
      have zero_nat : (0 : BitVec 16).toNat = 0 := rfl
      rw [zero, zero_nat] at value
      omega
    have raise_eq : (set.sem op.num).raise op binaryType =
        ({ set.sem op.num with semval := (set.sem op.num).semval + op.op } : Sema).wake .semncnt
          op.num (op.op == 1 && binaryType) := by
      unfold Sema.raise
      simp only [Sema.wake_semval, if_neg nonzero]
    rw [if_pos positive, raise_eq]
    by_cases signal : (op.op == 1 && binaryType) = true
    · simp only [Bool.and_eq_true, beq_iff_eq] at signal
      obtain ⟨one, rfl⟩ := signal
      have num_zero := single rfl
      rw [one] at value
      simp only [one, num_zero, beq_self_eq_true, Bool.and_true] at value counts ⊢
      obtain ⟨counted', source, more, sharp, calls_eq⟩ := counted.signal counts picks
      refine ⟨counted', ⟨calls_eq, source, more, by simp⟩, fun num waiting => ?_,
        fun num _ nonzero' => ?_⟩
      · rw [SemSet.vals_put, Sema.wake_semval]
        have drop_zero : op.drop num = 0 := by simp [Sembuf.drop, one]
        rw [drop_zero]
        split
        · rename_i here
          subst here
          have tokens_eq := sharp waiting
          simp only [SemSet.vals]
          have one_int : (1 : BitVec 16).toInt = 1 := by decide
          omega
        · omega
      · rw [SemSet.vals_put, Sema.wake_semval]
        split
        · rw [num_zero, one] at nonzero
          exact nonzero
        · exact nonzero'
    · rw [Bool.not_eq_true] at signal
      rw [signal]
      refine Moved.broadcast counted counts single picks (fun num => op.drop_other)
        (fun bad => absurd rfl bad) fun _ => nonzero
  · rw [if_neg positive]
    by_cases negative : op.op.toInt < 0
    · rw [if_pos negative]
      have drop_here : op.drop op.num = (-op.op.toInt).toNat := by rw [Sembuf.drop, if_pos rfl]
      have lowered : ((set.sem op.num).semval + op.op).toNat + op.drop op.num ≤
          (set.vals op.num).toNat := by
        rw [drop_here, SemSet.vals]
        omega
      unfold Sema.lower
      simp only
      by_cases zero : (set.sem op.num).semval + op.op = 0
      · rw [if_pos zero]
        exact Moved.broadcast counted counts single picks (fun num => op.drop_other)
          (fun _ => lowered) fun bad => absurd rfl bad
      · rw [if_neg zero]
        exact Moved.put counted counts (fun num => op.drop_other) lowered fun _ => zero
    · rw [if_neg negative]
      have none := toInt_eq_zero positive negative
      refine Moved.put counted (fun _ => rfl) (fun num => op.drop_other) ?_ fun nonzero => nonzero
      simp [Sembuf.drop, none, SemSet.vals]

/-! ## Passes -/

theorem deliver_append (picks : List Nat) (early late : List Wake) (procs : List Proc) :
    ∃ picks', deliver picks (early ++ late) procs = deliver picks' late
      (deliver picks early procs) := by
  induction early generalizing picks procs with
  | nil => exact ⟨picks, rfl⟩
  | cons wake rest ih =>
    cases wake with
    | signal queue num => exact ih picks.tail (wakeOne queue num picks.headI procs)
    | broadcast queue num => exact ih picks (wakeAll queue num procs)

/-- By how much some operations lower a value, increments left out. -/
def dropAll : List Sembuf → Nat → Nat
  | [], _ => 0
  | op :: rest, num => op.drop num + dropAll rest num

theorem SemSet.vals_apply (set : SemSet) (op : Sembuf) :
    (set.put op.num (op.apply binaryType (set.sem op.num)).1).vals =
      update set.vals op.num (set.vals op.num + op.op) := by
  funext num
  rw [SemSet.vals_put, Sembuf.apply_semval, update_apply]
  rfl

/-- The records that a pass makes all succeed. -/
def Recorded (tuning : Tuning) (p : Nat) (id : Int) : List Sembuf → Pool → Prop
  | [], _ => True
  | op :: rest, pool =>
    (op.semaoe tuning pool p id).1 = none ∧ Recorded tuning p id rest (op.semaoe tuning pool p id).2

section Pass

variable {tuning : Tuning} {p : Nat} {id : Int} {pool pool' : Pool}

/-- `semundo` takes back values and leaves counters alone. -/
theorem semundo_kept (done : List Sembuf) (set : SemSet) (pool : Pool) :
    (∀ num, (semundo tuning p id done set pool).1.vals num = set.vals num - netVal done num) ∧
      (∀ num queue, ((semundo tuning p id done set pool).1.sem num).count queue =
        (set.sem num).count queue) ∧
      (semundo tuning p id done set pool).1.nsems = set.nsems ∧
      (semundo tuning p id done set pool).1.binary = set.binary := by
  induction done generalizing set pool with
  | nil => exact ⟨fun num => by simp [semundo, netVal], fun _ _ => rfl, rfl, rfl⟩
  | cons op rest ih =>
    obtain ⟨vals, counts, nsems, binary⟩ := ih (semundoOne tuning p id set pool op).1
      (semundoOne tuning p id set pool op).2
    have one : (∀ num, (semundoOne tuning p id set pool op).1.vals num =
          set.vals num - if op.num = num then op.op else 0) ∧
        (∀ num queue, ((semundoOne tuning p id set pool op).1.sem num).count queue =
          (set.sem num).count queue) ∧
        (semundoOne tuning p id set pool op).1.nsems = set.nsems ∧
        (semundoOne tuning p id set pool op).1.binary = set.binary := by
      unfold semundoOne
      by_cases zero : op.op = 0
      · rw [if_pos zero]
        exact ⟨fun num => by simp [zero], fun _ _ => rfl, rfl, rfl⟩
      · rw [if_neg zero]
        refine ⟨fun num => ?_, fun num queue => ?_, rfl, rfl⟩
        · rw [SemSet.vals_put]
          by_cases here : num = op.num
          · rw [if_pos here, if_pos here.symm, here]
            rfl
          · rw [if_neg here, if_neg fun same => here same.symm, sub_zero]
        · rw [SemSet.put_sem]
          split
          · rename_i here
            rw [count_semval, here]
          · rfl
    rw [semundo]
    refine ⟨fun num => ?_, fun num queue => ?_, nsems.trans one.2.2.1, binary.trans one.2.2.2⟩
    · rw [vals, one.1, netVal]
      exact (sub_sub _ _ _).trans (congrArg _ (add_comm _ _))
    · rw [counts, one.2.1]

/-- What a pass that completes does to the values and the sleepers. -/
theorem semopLoop_completed_moved (small : tuning.semvmx ≤ 0xffff) {done todo : List Sembuf}
    {wakes wakes' : List Wake} (bounded : set.Bounded tuning)
    (single : binaryType = true → ∀ op ∈ todo, op.num = 0)
    (result : semopLoop tuning p id binaryType done todo set pool wakes =
      .completed set' pool' wakes') :
    ∃ new, wakes' = wakes ++ new ∧ set'.nsems = set.nsems ∧ set'.binary = set.binary ∧
      set'.Bounded tuning ∧
      ∀ procs picks, Counted binaryType set procs →
        Counted binaryType set' (deliver picks new procs) ∧
          Moved binaryType set procs set' (deliver picks new procs) (dropAll todo) := by
  induction todo generalizing done set pool wakes with
  | nil =>
    injection result with set_eq pool_eq wakes_eq
    subst set_eq
    exact ⟨[], by simp [wakes_eq], rfl, rfl, bounded, fun procs picks counted =>
      ⟨counted, Roused.refl.moved fun _ => rfl⟩⟩
  | cons op todo ih =>
    rw [semopLoop] at result
    rcases semopOne_cases tuning p id binaryType set pool op with
      ⟨after, ready, -, outcome⟩ | ⟨errno, after, -, outcome⟩ | ⟨-, outcome⟩
    · rw [outcome] at result
      have bounded' : (set.put op.num (op.apply binaryType (set.sem op.num)).1).Bounded
          tuning := by
        intro num
        rw [SemSet.put_sem]
        split
        · rw [Sembuf.apply_semval]
          exact Sembuf.Fits.toNat_le ready small (bounded op.num)
        · exact bounded num
      obtain ⟨new, wakes_eq, nsems, binary, bounded'', moves⟩ :=
        ih bounded' (fun binary other member => single binary other (by simp [member])) result
      refine ⟨(op.apply binaryType (set.sem op.num)).2 ++ new, by rw [wakes_eq, append_assoc],
        nsems, binary, bounded'', fun procs picks counted => ?_⟩
      obtain ⟨picks', split⟩ := deliver_append picks (op.apply binaryType (set.sem op.num)).2 new
        procs
      obtain ⟨counted', first⟩ := Moved.apply small ready counted
        (fun binary => single binary op (by simp)) picks
      obtain ⟨counted'', rest⟩ := moves (deliver picks (op.apply binaryType
        (set.sem op.num)).2 procs) picks' counted'
      rw [split]
      exact ⟨counted'', first.trans rest⟩
    · simp [outcome] at result
    · simp [outcome] at result

theorem Succeeds.append {pre post : List Sembuf} {vals : Nat → BitVec 16} :
    Succeeds tuning (pre ++ post) vals ↔
      Succeeds tuning pre vals ∧ Succeeds tuning post (applyAll pre vals) := by
  induction pre generalizing vals with
  | nil => simp [Succeeds, applyAll]
  | cons op rest ih =>
    simp only [cons_append, Succeeds, applyAll, ih, and_assoc]

/-- What a pass that stops does to the values and the sleepers. -/
theorem semopLoop_stopped_moved (small : tuning.semvmx ≤ 0xffff) {done todo : List Sembuf}
    {wakes wakes' : List Wake} {reason : Stop} {op : Sembuf}
    (single : binaryType = true → ∀ op ∈ todo, op.num = 0)
    (result : semopLoop tuning p id binaryType done todo set pool wakes =
      .stopped reason op set' pool' wakes') :
    ∃ new pre post, wakes' = wakes ++ new ∧ todo = pre ++ op :: post ∧
      Succeeds tuning pre set.vals ∧
      (∀ queue, reason = .sleep queue →
        ¬ op.Fits tuning (applyAll pre set.vals op.num) ∧ op.refusal = .sleep queue) ∧
      (Succeeds tuning todo set.vals → ¬ Recorded tuning p id todo pool) ∧
      (∀ num, set'.vals num = set.vals num - netVal done num) ∧
      set'.nsems = set.nsems ∧ set'.binary = set.binary ∧
      ∀ procs picks, Counted binaryType set procs →
        Counted binaryType set' (deliver picks new procs) ∧
          Roused binaryType procs (deliver picks new procs) := by
  induction todo generalizing done set pool wakes with
  | nil => simp [semopLoop] at result
  | cons first todo ih =>
    rw [semopLoop] at result
    -- The operation at which the pass stops.
    have stop : ∀ pool'', semopOne tuning p id binaryType set pool first = .stop reason pool'' →
        (semundo tuning p id done set pool'').1 = set' → wakes' = wakes →
        (∀ num, set'.vals num = set.vals num - netVal done num) ∧
          set'.nsems = set.nsems ∧ set'.binary = set.binary ∧
          ∀ procs picks, Counted binaryType set procs →
            Counted binaryType set' (deliver picks [] procs) ∧
              Roused binaryType procs (deliver picks [] procs) := by
      rintro pool'' - rfl -
      obtain ⟨vals, counts, nsems, binary⟩ := @semundo_kept tuning p id done set pool''
      refine ⟨vals, nsems, binary, fun procs picks counted => ⟨⟨fun queue num waiting => ?_,
        fun queue num => ?_, fun binary' => ?_⟩, Roused.refl⟩⟩
      · rw [counts]
        exact counted.count queue num waiting
      · rw [counts]
        exact counted.upper queue num
      · exact (counts 0 .semncnt).trans (counted.exact binary')
    rcases semopOne_cases tuning p id binaryType set pool first with
      ⟨after, ready, call, outcome⟩ | ⟨errno, after, call, outcome⟩ | ⟨unready, outcome⟩
    · rw [outcome] at result
      obtain ⟨new, pre, post, wakes_eq, todo_eq, succeeds, sleeps, refused, vals, nsems, binary,
        moves⟩ := ih (fun binary other member => single binary other (by simp [member])) result
      rw [SemSet.vals_apply] at succeeds sleeps refused vals
      refine ⟨(first.apply binaryType (set.sem first.num)).2 ++ new, first :: pre, post,
        by rw [wakes_eq, append_assoc], by rw [todo_eq]; rfl, ⟨ready, succeeds⟩, sleeps,
        fun success recorded => ?_, fun num => ?_, nsems, binary, fun procs picks counted => ?_⟩
      · have after_eq : (first.semaoe tuning pool p id).2 = after := by rw [call]
        exact refused success.2 (after_eq ▸ recorded.2)
      · rw [vals, netVal, update_apply]
        split
        · rename_i here
          subst here
          rw [if_pos rfl]
          exact add_sub_add_right_eq_sub _ _ _
        · rename_i here
          rw [if_neg fun same => here same.symm, add_zero]
      · obtain ⟨picks', split⟩ := deliver_append picks
          (first.apply binaryType (set.sem first.num)).2 new procs
        obtain ⟨counted', moved⟩ := Moved.apply small ready counted
          (fun binary => single binary first (by simp)) picks
        obtain ⟨counted'', roused⟩ := moves (deliver picks (first.apply binaryType
          (set.sem first.num)).2 procs) picks' counted'
        rw [split]
        exact ⟨counted'', moved.toRoused.trans roused⟩
    · rw [outcome] at result
      injection result with reason_eq op_eq set_eq pool_eq wakes_eq
      subst reason_eq op_eq
      obtain ⟨vals, nsems, binary, moves⟩ := stop after outcome set_eq wakes_eq.symm
      refine ⟨[], [], todo, by simp [wakes_eq], rfl, trivial, by simp, fun _ recorded => ?_, vals,
        nsems, binary, moves⟩
      have none := recorded.1
      rw [call] at none
      cases none
    · rw [outcome] at result
      injection result with reason_eq op_eq set_eq pool_eq wakes_eq
      subst reason_eq op_eq
      obtain ⟨vals, nsems, binary, moves⟩ := stop pool outcome set_eq wakes_eq.symm
      exact ⟨[], [], todo, by simp [wakes_eq], rfl, trivial, fun queue same => ⟨unready, same⟩,
        fun success => absurd success.1 unready, vals, nsems, binary, moves⟩

end Pass

end Moves

end Sol25.Sem
