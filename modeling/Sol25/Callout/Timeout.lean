import Sol25.Callout.Identity

/-!
# The timeout contract

A handler runs at most once, not before its time, and not after its callout was cancelled; no
callout is passed over.  What carries the proof is that every callout nobody runs is at or past
`cs_runtime`, which is never more than one tick ahead of `cs_curtime`, and that a thread inside
`callout_execute` has left nothing behind it in its bucket that is due at its own tick.
-/

namespace Sol25.Callout

open Function List Option Nat

/-! ### The table and what was seen -/

/-- The invariant of the table. -/
structure Core (table : TableId) (history : List Obs) (lbolt : ℤ) (cs : Table)
    (next : ℕ) : Prop where
  counts : ∀ i, ∃ short long, short < idsPerBucket ∧ long < idsPerBucket ∧
    Counts table i short long (cs.bucket i)
  runtime_le : cs.runtime ≤ cs.curtime + 1
  curtime_le : cs.curtime ≤ lbolt
  nodup : ∀ i, ((cs.bucket i).first.map CalloutT.serial).Nodup
  placed : ∀ i, ∀ cp ∈ (cs.bucket i).first, bucketOf cp.runtime = i ∧ bucketOfId cp.id = i
  pending : ∀ i, ∀ cp ∈ (cs.bucket i).first, ¬ cp.Executing →
    cs.runtime ≤ cp.runtime ∧ Obs.started cp.serial ∉ history
  born : ∀ i, ∀ cp ∈ (cs.bucket i).first, ∃ lbolt delta curtime,
    Obs.inserted cp.serial cp.id lbolt delta curtime ∈ history ∧ lbolt + delta ≤ cp.runtime ∧
      curtime < cp.runtime
  inserted_lt : ∀ n id lbolt delta curtime,
    Obs.inserted n id lbolt delta curtime ∈ history → n < next
  started_lt : ∀ n, Obs.started n ∈ history → n < next
  present_lt : ∀ id present left, Obs.untimed id present left ∈ history → ∀ n ∈ present, n < next
  same : ∀ n id lbolt delta curtime id' lbolt' delta' curtime',
    Obs.inserted n id lbolt delta curtime ∈ history →
      Obs.inserted n id' lbolt' delta' curtime' ∈ history →
        Obs.inserted n id lbolt delta curtime = Obs.inserted n id' lbolt' delta' curtime'
  once : ∀ n, history.count (.started n) ≤ 1
  untimed : ∀ i, ∀ cp ∈ (cs.bucket i).first, ∀ left,
    Obs.untimed cp.id [cp.serial] left ∈ history → left < 0

namespace Core

variable {table : TableId} {history : List Obs} {lbolt : ℤ} {cs cs' : Table} {next : ℕ}
variable {cp : CalloutT} {i : Fin 256} {thread : ℕ} {delta runtime : ℤ}

section

variable (core : Core table history lbolt cs next)

include core

theorem serial_lt (member : cp ∈ (cs.bucket i).first) :
    cp.serial < next := by
  obtain ⟨_, _, _, inserted, -⟩ := core.born i cp member
  exact core.inserted_lt _ _ _ _ _ inserted

theorem ext {j : Fin 256} {cp' : CalloutT} (member : cp ∈ (cs.bucket i).first)
    (member' : cp' ∈ (cs.bucket j).first) (serial_eq : cp.serial = cp'.serial) : cp = cp' := by
  obtain ⟨_, _, _, inserted, -⟩ := core.born i cp member
  obtain ⟨_, _, _, inserted', -⟩ := core.born j cp' member'
  rw [serial_eq] at inserted
  have id_eq : cp.id = cp'.id := by
    injection core.same _ _ _ _ _ _ _ _ _ inserted inserted'
  have bucket_eq : i = j := by
    rw [← (core.placed i cp member).2, ← (core.placed j cp' member').2, id_eq]
  subst bucket_eq
  exact inj_on_of_nodup_map (core.nodup i) member member' serial_eq

/-- Callouts may leave the table. -/
theorem sublist (runtime_eq : cs'.runtime = cs.runtime) (curtime_eq : cs'.curtime = cs.curtime)
    (shortId : ∀ i, (cs'.bucket i).shortId = (cs.bucket i).shortId)
    (longId : ∀ i, (cs'.bucket i).longId = (cs.bucket i).longId)
    (fewer : ∀ i, (cs'.bucket i).first.Sublist (cs.bucket i).first) :
    Core table history lbolt cs' next := by
  have mem : ∀ {i cp}, cp ∈ (cs'.bucket i).first → cp ∈ (cs.bucket i).first := fun member =>
    (fewer _).subset member
  refine
    { core with
      counts := ?_
      runtime_le := by rw [runtime_eq, curtime_eq]; exact core.runtime_le
      curtime_le := by rw [curtime_eq]; exact core.curtime_le
      nodup := fun i => (core.nodup i).sublist ((fewer i).map _)
      placed := fun i cp member => core.placed i cp (mem member)
      pending := fun i cp member => by rw [runtime_eq]; exact core.pending i cp (mem member)
      born := fun i cp member => core.born i cp (mem member)
      untimed := fun i cp member => core.untimed i cp (mem member) }
  intro i
  obtain ⟨short, long, short_lt, long_lt, counts⟩ := core.counts i
  exact ⟨short, long, short_lt, long_lt, (shortId i).symm ▸ counts.shortId,
    (longId i).symm ▸ counts.longId⟩

theorem erase (i : Fin 256) (cp : CalloutT) :
    Core table history lbolt (cs.setFirst i ((cs.bucket i).first.erase cp)) next := by
  refine core.sublist rfl rfl ?_ ?_ ?_ <;> intro j <;> by_cases here : j = i
  · subst here
    rw [Table.setFirst_self]
  · rw [Table.setFirst_of_ne _ _ here]
  · subst here
    rw [Table.setFirst_self]
  · rw [Table.setFirst_of_ne _ _ here]
  · subst here
    rw [Table.setFirst_self]
    exact erase_sublist
  · rw [Table.setFirst_of_ne _ _ here]

theorem removed (n : ℕ) :
    Core table (.removed n :: history) lbolt cs next :=
  { core with
    pending := fun i cp member idle => by simpa using core.pending i cp member idle
    born := fun i cp member => by simpa using core.born i cp member
    inserted_lt := fun n id lbolt delta curtime => by
      simpa using core.inserted_lt n id lbolt delta curtime
    started_lt := fun n => by simpa using core.started_lt n
    present_lt := fun id present left => by simpa using core.present_lt id present left
    same := fun n id lbolt delta curtime id' lbolt' delta' curtime' => by
      simpa using core.same n id lbolt delta curtime id' lbolt' delta' curtime'
    once := fun n => by simpa [count_cons] using core.once n
    untimed := fun i cp member => by simpa using core.untimed i cp member }

theorem see_untimed (id : BitVec 32) (present : List ℕ) (left : ℤ) (lt : ∀ n ∈ present, n < next)
    (alone : ∀ i, ∀ cp ∈ (cs.bucket i).first, cp.id = id → present = [cp.serial] → left < 0) :
    Core table (.untimed id present left :: history) lbolt cs next :=
  { core with
    pending := fun i cp member idle => by simpa using core.pending i cp member idle
    born := fun i cp member => by simpa using core.born i cp member
    inserted_lt := fun n id lbolt delta curtime => by
      simpa using core.inserted_lt n id lbolt delta curtime
    started_lt := fun n => by simpa using core.started_lt n
    present_lt := by
      intro id' present' left' member
      rcases mem_cons.1 member with new | old
      · injection new with id_eq present_eq left_eq
        rw [present_eq]
        exact lt
      · exact core.present_lt id' present' left' old
    same := fun n id lbolt delta curtime id' lbolt' delta' curtime' => by
      simpa using core.same n id lbolt delta curtime id' lbolt' delta' curtime'
    once := fun n => by simpa [count_cons] using core.once n
    untimed := by
      intro i cp member left' seen
      rcases mem_cons.1 seen with new | old
      · injection new with id_eq present_eq left_eq
        rw [left_eq]
        exact alone i cp member id_eq present_eq.symm
      · exact core.untimed i cp member left' old }

/-- `cs_runtime` moves over ticks at which nothing is due. -/
theorem move (le : runtime ≤ cs.curtime + 1)
    (skipped : ∀ t, cs.runtime ≤ t → t < runtime →
      ∀ cp ∈ (cs.bucket (bucketOf t)).first, ¬ cp.Due t) :
    Core table history lbolt { cs with runtime := runtime } next := by
  refine
    { core with
      runtime_le := le
      pending := ?_ }
  intro i cp member idle
  obtain ⟨ge, fresh⟩ := core.pending i cp member idle
  refine ⟨?_, fresh⟩
  by_contra passed
  refine skipped cp.runtime ge (not_le.1 passed) cp ?_ ⟨rfl, idle⟩
  rw [(core.placed i cp member).1]
  exact member

theorem clock {lbolt' curtime : ℤ} (mono : cs.curtime ≤ curtime) (le : curtime ≤ lbolt') :
    Core table history lbolt' { cs with curtime := curtime } next :=
  { core with
    runtime_le := core.runtime_le.trans (by simpa using mono)
    curtime_le := le }

/-- What `begin` leaves of a table: the callouts are the same, one of them is marked. -/
theorem mem_begin {other : CalloutT} (member : other ∈ ((cs.begin thread cp).bucket i).first) :
    ∃ old ∈ (cs.bucket i).first, old.serial = other.serial ∧ old.id = other.id ∧
      old.runtime = other.runtime ∧ (¬ other.Executing → other = old ∧ old ≠ cp) := by
  by_cases here : i = bucketOf cp.runtime
  · subst here
    rw [Table.begin, Table.setFirst_self] at member
    obtain ⟨old, old_mem, rfl⟩ := List.mem_map.1 member
    refine ⟨old, old_mem, ?_⟩
    by_cases taken : old = cp
    · rw [if_pos taken, taken]
      refine ⟨rfl, (CalloutT.begin_id cp thread).symm, rfl, ?_⟩
      exact fun idle => absurd (CalloutT.begin_executing cp thread) idle
    · simp [taken]
  · rw [Table.begin, Table.setFirst_of_ne _ _ here] at member
    refine ⟨other, member, rfl, rfl, rfl, fun idle => ⟨rfl, ?_⟩⟩
    rintro rfl
    exact here (core.placed i other member).1.symm

end

theorem begin_serials (cs : Table) (thread : ℕ) (cp : CalloutT) (i : Fin 256) :
    ((cs.begin thread cp).bucket i).first.map CalloutT.serial =
      (cs.bucket i).first.map CalloutT.serial := by
  by_cases here : i = bucketOf cp.runtime
  · subst here
    rw [Table.begin, Table.setFirst_self, List.map_map]
    refine map_congr_left fun other _ => ?_
    by_cases taken : other = cp
    · rw [Function.comp_apply, if_pos taken, taken]
      rfl
    · simp [taken]
  · rw [Table.begin, Table.setFirst_of_ne _ _ here]

/-- A thread takes a callout that nobody runs. -/
theorem begin (core : Core table history lbolt cs next) (thread : ℕ)
    (member : cp ∈ (cs.bucket (bucketOf cp.runtime)).first) (idle : ¬ cp.Executing) :
    Core table (.started cp.serial :: history) lbolt (cs.begin thread cp) next := by
  have fresh := (core.pending _ cp member idle).2
  refine
    { counts := ?_
      runtime_le := core.runtime_le
      curtime_le := core.curtime_le
      nodup := fun i => by rw [begin_serials]; exact core.nodup i
      placed := ?_
      pending := ?_
      born := ?_
      inserted_lt := fun n id lbolt delta curtime => by
        simpa using core.inserted_lt n id lbolt delta curtime
      started_lt := ?_
      present_lt := fun id present left => by simpa using core.present_lt id present left
      same := fun n id lbolt delta curtime id' lbolt' delta' curtime' => by
        simpa using core.same n id lbolt delta curtime id' lbolt' delta' curtime'
      once := ?_
      untimed := ?_ }
  · intro i
    obtain ⟨short, long, short_lt, long_lt, counts⟩ := core.counts i
    have thinned := thinned_begin cs thread cp
    exact ⟨short, long, short_lt, long_lt, thinned.counts.2 counts⟩
  · intro i other other_mem
    obtain ⟨old, old_mem, -, id_eq, runtime_eq, -⟩ := core.mem_begin other_mem
    rw [← id_eq, ← runtime_eq]
    exact core.placed i old old_mem
  · intro i other other_mem other_idle
    obtain ⟨old, old_mem, -, -, -, kept⟩ := core.mem_begin other_mem
    obtain ⟨rfl, ne⟩ := kept other_idle
    obtain ⟨ge, not_started⟩ := core.pending i other old_mem other_idle
    refine ⟨ge, ?_⟩
    simp only [mem_cons, Obs.started.injEq, not_or]
    exact ⟨fun serial_eq => ne (core.ext old_mem member serial_eq), not_started⟩
  · intro i other other_mem
    obtain ⟨old, old_mem, serial_eq, id_eq, runtime_eq, -⟩ := core.mem_begin other_mem
    rw [← serial_eq, ← id_eq, ← runtime_eq]
    simpa using core.born i old old_mem
  · intro n started
    rcases mem_cons.1 started with new | old
    · injection new with n_eq
      rw [n_eq]
      exact core.serial_lt member
    · exact core.started_lt n old
  · intro n
    rw [count_cons]
    by_cases this : n = cp.serial
    · subst this
      simp [count_eq_zero_of_not_mem fresh]
    · have ne : ¬ cp.serial = n := fun same => this same.symm
      simpa [ne] using core.once n
  · intro i other other_mem left
    obtain ⟨old, old_mem, serial_eq, id_eq, -⟩ := core.mem_begin other_mem
    rw [← serial_eq, ← id_eq]
    simpa using core.untimed i old old_mem left

theorem runtimeAt_spec (core : Core table history lbolt cs next)
    (answer : cs.runtimeAt lbolt delta = some runtime) :
    lbolt + delta ≤ runtime ∧ cs.curtime < runtime := by
  obtain ⟨sum, sum_eq, rest⟩ := bind_eq_some_iff.1 answer
  obtain rfl := Table.addLong_eq sum_eq
  have le := core.curtime_le
  split at rest
  · split at rest
    · obtain rfl := Table.addLong_eq rest
      omega
    · omega
  · obtain rfl := some.inj rest
    omega

/-- A new callout. -/
theorem insert (core : Core table history lbolt cs next) (driverLock : Bool)
    (late : lbolt + delta ≤ runtime) (future : cs.curtime < runtime) :
    Core table (.inserted next
      (cs.insert next runtime driverLock).1 lbolt delta cs.curtime :: history)
        lbolt (cs.insert next runtime driverLock).2 (next + 1) ∧
      ∃ cp, cp.serial = next ∧ cp.runtime = runtime ∧
        ((cs.insert next runtime driverLock).2.bucket (bucketOf runtime)).first =
          cp :: (cs.bucket (bucketOf runtime)).first ∧
        ∀ j ≠ bucketOf runtime, (cs.insert next runtime driverLock).2.bucket j = cs.bucket j := by
  obtain ⟨short, long, short_lt, long_lt, counts⟩ := core.counts (bucketOf runtime)
  obtain ⟨cp, isLong, -, serial_eq, runtime_eq, idle, id_eq, id_toNat, first_eq, counts', others⟩ :=
    Table.insert_spec next runtime driverLock counts short_lt long_lt
  have into : bucketOfId cp.id = bucketOf runtime := bucketOfId_eq id_toNat
  have members : ∀ {i other},
      other ∈ ((cs.insert next runtime driverLock).2.bucket i).first →
        i = bucketOf runtime ∧ other = cp ∨ other ∈ (cs.bucket i).first := by
    intro i other member
    by_cases here : i = bucketOf runtime
    · subst here
      rw [first_eq] at member
      simpa using member
    · rw [others i here] at member
      exact .inr member
  have new_started : Obs.started next ∉ history := fun started =>
    absurd (core.started_lt next started) (lt_irrefl _)
  refine ⟨?_, cp, serial_eq, runtime_eq, first_eq, others⟩
  rw [← id_eq]
  refine
    { counts := ?_
      runtime_le := core.runtime_le
      curtime_le := core.curtime_le
      nodup := ?_
      placed := ?_
      pending := ?_
      born := ?_
      inserted_lt := ?_
      started_lt := fun n started => (core.started_lt n (by simpa using started)).trans
        (lt_succ_self _)
      present_lt := fun id present left seen n member =>
        (core.present_lt id present left (by simpa using seen) n member).trans (lt_succ_self _)
      same := ?_
      once := fun n => by simpa [count_cons] using core.once n
      untimed := ?_ }
  · intro i
    by_cases here : i = bucketOf runtime
    · subst here
      refine ⟨_, _, ?_, ?_, counts'⟩
      · cases isLong
        · exact mod_lt _ (by decide)
        · exact short_lt
      · cases isLong
        · exact long_lt
        · exact mod_lt _ (by decide)
    · rw [others i here]
      exact core.counts i
  · intro i
    by_cases here : i = bucketOf runtime
    · subst here
      rw [first_eq, map_cons, nodup_cons, serial_eq]
      refine ⟨?_, core.nodup _⟩
      intro used
      obtain ⟨other, member, same⟩ := List.mem_map.1 used
      have := core.serial_lt member
      omega
    · rw [others i here]
      exact core.nodup i
  · intro i other member
    rcases members member with ⟨rfl, rfl⟩ | old
    · exact ⟨by rw [runtime_eq], into⟩
    · exact core.placed i other old
  · intro i other member other_idle
    rcases members member with ⟨rfl, rfl⟩ | old
    · refine ⟨?_, by simpa [serial_eq] using new_started⟩
      have le := core.runtime_le
      rw [runtime_eq]
      exact le.trans (by omega)
    · obtain ⟨ge, fresh⟩ := core.pending i other old other_idle
      exact ⟨ge, by simpa using fresh⟩
  · intro i other member
    rcases members member with ⟨rfl, rfl⟩ | old
    · rw [serial_eq, runtime_eq]
      exact ⟨lbolt, delta, cs.curtime, mem_cons_self, late, future⟩
    · obtain ⟨lbolt', delta', curtime', inserted, rest⟩ := core.born i other old
      exact ⟨lbolt', delta', curtime', mem_cons_of_mem _ inserted, rest⟩
  · intro n id lbolt' delta' curtime' inserted
    rcases inserted_cons inserted with ⟨rfl, -⟩ | old
    · exact lt_succ_self _
    · exact (core.inserted_lt _ _ _ _ _ old).trans (lt_succ_self _)
  · intro n id lbolt' delta' curtime' id' lbolt'' delta'' curtime'' first second
    rcases mem_cons.1 first with new | old
    · rcases mem_cons.1 second with new' | old'
      · exact new.trans new'.symm
      · injection new with n_eq
        have := core.inserted_lt _ _ _ _ _ old'
        omega
    · rcases mem_cons.1 second with new' | old'
      · injection new' with n_eq
        have := core.inserted_lt _ _ _ _ _ old
        omega
      · exact core.same _ _ _ _ _ _ _ _ _ old old'
  · intro i other member left seen
    have seen_old : Obs.untimed other.id [other.serial] left ∈ history := by simpa using seen
    rcases members member with ⟨rfl, rfl⟩ | old
    · have := core.present_lt _ _ _ seen_old other.serial (by simp)
      omega
    · exact core.untimed i other old left seen_old

end Core

/-! ### The threads inside `callout_execute` -/

/-- A thread runs the handler of callout `n` at the tick `runtime`: the callout is marked, and what
is in front of it in the bucket is not due at that tick. -/
structure At (cs : Table) (n : ℕ) (runtime : ℤ) : Prop where
  le : runtime ≤ cs.curtime
  split : ∃ before cp rest, (cs.bucket (bucketOf runtime)).first = before ++ cp :: rest ∧
    cp.serial = n ∧ cp.runtime = runtime ∧ cp.Executing ∧ ∀ other ∈ before, ¬ other.Due runtime

/-- Every running handler has its place, and no two threads run the same one. -/
structure Threads (cs : Table) (running : ℕ → Option (ℕ × ℤ)) : Prop where
  place : ∀ thread n runtime, running thread = some (n, runtime) → At cs n runtime
  alone : ∀ thread thread' n runtime runtime', running thread = some (n, runtime) →
    running thread' = some (n, runtime') → thread = thread'

namespace At

variable {cs cs' : Table} {n : ℕ} {runtime : ℤ}

theorem of_bucket (at_n : At cs n runtime) (mono : cs.curtime ≤ cs'.curtime)
    (bucket_eq : (cs'.bucket (bucketOf runtime)).first = (cs.bucket (bucketOf runtime)).first) :
    At cs' n runtime :=
  ⟨at_n.le.trans mono, by rw [bucket_eq]; exact at_n.split⟩

theorem mem (at_n : At cs n runtime) : ∃ cp ∈ (cs.bucket (bucketOf runtime)).first,
    cp.serial = n ∧ cp.runtime = runtime ∧ cp.Executing := by
  obtain ⟨before, cp, rest, first_eq, serial_eq, runtime_eq, executing, -⟩ := at_n.split
  exact ⟨cp, by rw [first_eq]; simp, serial_eq, runtime_eq, executing⟩

/-- New callouts go to the front and are for a later tick. -/
theorem insert (at_n : At cs n runtime) {new : CalloutT} {j : Fin 256}
    (curtime_eq : cs'.curtime = cs.curtime)
    (first_eq : (cs'.bucket j).first = new :: (cs.bucket j).first)
    (others : ∀ i ≠ j, cs'.bucket i = cs.bucket i) (future : cs.curtime < new.runtime) :
    At cs' n runtime := by
  have le := at_n.le
  by_cases here : bucketOf runtime = j
  · obtain ⟨before, cp, rest, split, found⟩ := at_n.split
    refine ⟨by rw [curtime_eq]; exact le, new :: before, cp, rest, ?_, found.1, found.2.1,
      found.2.2.1, ?_⟩
    · rw [here, first_eq, ← here, split, cons_append]
    · intro other member
      rcases mem_cons.1 member with rfl | old
      · exact fun due => by have := due.1; omega
      · exact found.2.2.2 other old
  · exact at_n.of_bucket (le_of_eq curtime_eq.symm) (by rw [others _ here])

/-- Another callout leaves the table. -/
theorem erase (at_n : At cs n runtime) {gone : CalloutT} (ne : gone.serial ≠ n) :
    At (cs.setFirst i ((cs.bucket i).first.erase gone)) n runtime := by
  by_cases here : bucketOf runtime = i
  · subst here
    obtain ⟨before, cp, rest, split, serial_eq, runtime_eq, executing, idle⟩ := at_n.split
    have cp_ne : (cp == gone) = false := by
      simp only [beq_eq_false_iff_ne]
      rintro rfl
      exact ne serial_eq
    refine ⟨at_n.le, ?_⟩
    rw [Table.setFirst_self]
    simp only [split]
    by_cases front : gone ∈ before
    · refine ⟨before.erase gone, cp, rest, erase_append_left _ front, serial_eq, runtime_eq,
        executing, fun other member => idle other (mem_of_mem_erase member)⟩
    · refine ⟨before, cp, rest.erase gone, ?_, serial_eq, runtime_eq, executing, idle⟩
      rw [erase_append_right _ front, erase_cons, cp_ne]
      rfl
  · exact at_n.of_bucket (le_refl _) (by rw [Table.setFirst_of_ne _ _ here])

/-- Another callout is taken by a thread. -/
theorem begin (at_n : At cs n runtime) (thread : ℕ) {taken : CalloutT} (idle : ¬ taken.Executing) :
    At (cs.begin thread taken) n runtime := by
  by_cases here : bucketOf runtime = bucketOf taken.runtime
  · obtain ⟨before, cp, rest, split, serial_eq, runtime_eq, executing, passed⟩ := at_n.split
    have cp_ne : cp ≠ taken := by
      rintro rfl
      exact idle executing
    refine ⟨at_n.le, before.map fun other => if other = taken then taken.begin thread
      else other, cp,
      rest.map fun other => if other = taken then taken.begin thread else other, ?_, serial_eq,
      runtime_eq, executing, ?_⟩
    · rw [Table.begin, here, Table.setFirst_self, ← here]
      simp only [split, map_append, map_cons, cp_ne, if_false]
    · intro other member
      obtain ⟨old, old_mem, rfl⟩ := List.mem_map.1 member
      split
      · exact fun due => due.2 (CalloutT.begin_executing taken thread)
      · exact passed old old_mem
  · refine at_n.of_bucket (le_refl _) ?_
    rw [Table.begin, Table.setFirst_of_ne _ _ here]

/-- A thread that takes the first due callout of its bucket. -/
theorem taken {cs : Table} (thread : ℕ) (le : runtime ≤ cs.curtime)
    (nodup : ((cs.bucket (bucketOf runtime)).first.map CalloutT.serial).Nodup)
    (firstDue : Table.FirstDue (cs.bucket (bucketOf runtime)).first runtime cp) :
    At (cs.begin thread cp) cp.serial runtime := by
  obtain ⟨before, rest, split, passed⟩ := firstDue.split
  have runtime_eq := firstDue.due.1
  refine ⟨le, before, cp.begin thread, rest, ?_, rfl, runtime_eq,
    CalloutT.begin_executing _ _, passed⟩
  rw [Table.begin, runtime_eq, Table.setFirst_self]
  rw [split] at nodup ⊢
  rw [map_append, map_cons, nodup_append] at nodup
  obtain ⟨-, behind, apart⟩ := nodup
  have unmarked : ∀ other, other.serial ≠ cp.serial →
      (if other = cp then cp.begin thread else other) = other := by
    intro other ne
    rw [if_neg]
    rintro rfl
    exact ne rfl
  simp only [map_append, map_cons, if_true]
  congr 1
  · refine (map_congr_left fun other member => ?_).trans (List.map_id _)
    exact unmarked other (apart _ (List.mem_map_of_mem member) _ mem_cons_self)
  · refine congrArg _ ((map_congr_left fun other member => ?_).trans (List.map_id _))
    refine unmarked other fun same => (nodup_cons.1 behind).1 ?_
    rw [← same]
    exact List.mem_map_of_mem member

end At

namespace Threads

variable {cs cs' : Table} {running : ℕ → Option (ℕ × ℤ)}

theorem keep (threads : Threads cs running)
    (place : ∀ thread n runtime, running thread = some (n, runtime) → At cs n runtime →
      At cs' n runtime) : Threads cs' running :=
  ⟨fun thread n runtime runs => place thread n runtime runs (threads.place thread n runtime runs),
    threads.alone⟩

theorem leave (threads : Threads cs running) (thread : ℕ) :
    Threads cs (update running thread none) := by
  have others : ∀ {other result}, update running thread none other = some result →
      running other = some result := by
    intro other result runs
    by_cases same : other = thread
    · simp [same] at runs
    · simpa [same] using runs
  exact ⟨fun other n runtime runs => threads.place other n runtime (others runs),
    fun a b n runtime runtime' a_runs b_runs =>
      threads.alone a b n runtime runtime' (others a_runs) (others b_runs)⟩

theorem enter (threads : Threads cs running) {n : ℕ} (place : At cs n runtime)
    (nobody : ∀ other runtime', running other ≠ some (n, runtime')) :
    Threads cs (update running thread (some (n, runtime))) := by
  constructor
  · intro other m runtime' runs
    by_cases same : other = thread
    · subst same
      obtain ⟨rfl, rfl⟩ : n = m ∧ runtime = runtime' := by simpa using runs
      exact place
    · exact threads.place other m runtime' (by simpa [same] using runs)
  · intro a b m runtime' runtime'' a_runs b_runs
    by_cases a_eq : a = thread <;> by_cases b_eq : b = thread
    · exact a_eq.trans b_eq.symm
    · subst a_eq
      obtain ⟨rfl, rfl⟩ : n = m ∧ runtime = runtime' := by simpa using a_runs
      exact absurd (by simpa [b_eq] using b_runs) (nobody b runtime'')
    · subst b_eq
      obtain ⟨rfl, rfl⟩ : n = m ∧ runtime = runtime'' := by simpa using b_runs
      exact absurd (by simpa [a_eq] using a_runs) (nobody a runtime')
    · exact threads.alone a b m runtime' runtime'' (by simpa [a_eq] using a_runs)
        (by simpa [b_eq] using b_runs)

end Threads

/-! ### The steps -/

section Steps

variable {table : TableId} {history : List Obs} {lbolt : ℤ} {cs : Table} {next : ℕ}
  {running : ℕ → Option (ℕ × ℤ)}

/-- A thread takes the first callout of a bucket that is due. -/
theorem Core.take (core : Core table history lbolt cs next) (threads : Threads cs running)
    (thread : ℕ) (le : runtime ≤ cs.curtime)
    (firstDue : Table.FirstDue (cs.bucket (bucketOf runtime)).first runtime cp) :
    Core table (.started cp.serial :: history) lbolt (cs.begin thread cp) next ∧
      Threads (cs.begin thread cp)
        (update running thread (some (cp.serial, cp.runtime))) := by
  obtain ⟨runtime_eq, idle⟩ := firstDue.due
  have member : cp ∈ (cs.bucket (bucketOf cp.runtime)).first := by
    rw [runtime_eq]
    exact firstDue.mem
  refine ⟨core.begin thread member idle, Threads.enter ?_ ?_ ?_⟩
  · exact threads.keep fun _ _ _ _ at_n => at_n.begin thread idle
  · rw [runtime_eq]
    exact At.taken thread le (core.nodup _) firstDue
  · intro other runtime' runs
    obtain ⟨cp', member', serial_eq, -, executing⟩ := (threads.place other _ _ runs).mem
    rw [core.ext member' member serial_eq] at executing
    exact idle executing

/-- What the thread sees when it goes on: the start of a handler, or nothing. -/
def startedBy (found : Option CalloutT) : List Obs := found.toList.map fun cp => .started cp.serial

/-- What a thread runs after it has gone on. -/
def runBy (running : ℕ → Option (ℕ × ℤ)) (thread : ℕ) (found : Option CalloutT) :
    ℕ → Option (ℕ × ℤ) :=
  update running thread (found.map fun cp => (cp.serial, cp.runtime))

theorem Core.execute (core : Core table history lbolt cs next) (threads : Threads cs running)
    {found : Option CalloutT × Table} (executed : cs.execute thread = some found) :
    Core table (startedBy found.1 ++ history) lbolt found.2 next ∧
      Threads found.2 (runBy running thread found.1) ∧
      ∀ cp ∈ found.1, found.2.runtime = cp.runtime := by
  obtain ⟨⟨first, cs'⟩, sought, rfl⟩ := map_eq_some_iff.1 executed
  obtain ⟨runtime, rfl, moved⟩ := Table.seek_spec sought
  have le := moved.le
  have runtime_le := core.runtime_le
  have moved_core : Core table history lbolt { cs with runtime := runtime } next :=
    core.move (by omega) moved.skipped
  have moved_threads : Threads { cs with runtime := runtime } running :=
    threads.keep fun _ _ _ _ at_n => at_n.of_bucket (le_refl _) rfl
  cases first with
  | none => exact ⟨moved_core, moved_threads.leave thread, by simp⟩
  | some cp =>
    obtain ⟨firstDue, due_le⟩ := moved.stopped cp rfl
    obtain ⟨core', threads'⟩ := moved_core.take moved_threads thread due_le firstDue
    refine ⟨core', threads', ?_⟩
    rintro _ ⟨⟩
    exact firstDue.due.1.symm

/-- The callout whose handler has returned is found where its thread left it. -/
theorem Core.unique_split (core : Core table history lbolt cs next)
    {before before' rest rest' : List CalloutT} {cp' : CalloutT}
    (split : (cs.bucket i).first = before ++ cp :: rest)
    (split' : (cs.bucket i).first = before' ++ cp' :: rest') (same : cp.serial = cp'.serial) :
    before = before' ∧ cp = cp' ∧ rest = rest' := by
  have cp_mem : cp ∈ (cs.bucket i).first := by
    rw [split]
    simp
  have cp'_mem : cp' ∈ (cs.bucket i).first := by
    rw [split']
    simp
  obtain rfl := core.ext cp_mem cp'_mem same
  have nodup : (cs.bucket i).first.Nodup := Nodup.of_map _ (core.nodup i)
  have outside : ∀ {front back : List CalloutT}, (cs.bucket i).first = front ++ cp :: back →
      cp ∉ front := by
    intro front back eq member
    rw [eq, nodup_append] at nodup
    exact nodup.2.2 cp member cp mem_cons_self rfl
  have behind : ∀ {front back : List CalloutT}, (cs.bucket i).first = front ++ cp :: back →
      cp ∉ back := by
    intro front back eq member
    rw [eq, nodup_append] at nodup
    exact (nodup_cons.1 nodup.2.1).1 member
  have eq := split.symm.trans split'
  exact (append_cons_inj_of_notMem (outside split) (behind split)).1 eq

/-- A handler has returned. -/
theorem Core.executed (core : Core table history lbolt cs next) (threads : Threads cs running)
    {n : ℕ} (runs : running thread = some (n, runtime)) {found : Option CalloutT × Table}
    (executed : cs.executed thread n runtime = some found) :
    Core table (startedBy found.1 ++ .removed n :: history) lbolt found.2 next ∧
      Threads found.2 (runBy running thread found.1) := by
  obtain ⟨before, cp, rest, cs1, split, serial_eq, cs1_eq, outcome⟩ := Table.executed_cases executed
  have place := threads.place thread n runtime runs
  have le := place.le
  obtain ⟨front, cp', back, split', serial_eq', -, -, passed⟩ := place.split
  obtain ⟨rfl, rfl, rfl⟩ := core.unique_split split split' (serial_eq.trans serial_eq'.symm)
  have outside : cp ∉ before := by
    have nodup : (cs.bucket (bucketOf runtime)).first.Nodup := Nodup.of_map _ (core.nodup _)
    rw [split, nodup_append] at nodup
    exact fun member => nodup.2.2 cp member cp mem_cons_self rfl
  have first_eq : (cs1.bucket (bucketOf runtime)).first = before ++ rest := by
    rw [cs1_eq, Table.setFirst_self, split, erase_append_right _ outside, erase_cons_head]
  have core1 : Core table (.removed n :: history) lbolt cs1 next := by
    rw [cs1_eq]
    exact (core.erase _ cp).removed n
  -- the other threads run other callouts
  have threads1 : Threads cs1 (update running thread none) := by
    refine ⟨?_, (threads.leave thread).alone⟩
    intro other m runtime' other_runs
    have other_ne : other ≠ thread := by
      rintro rfl
      simp at other_runs
    have other_runs' : running other = some (m, runtime') := by simpa [other_ne] using other_runs
    rw [cs1_eq]
    refine (threads.place other m runtime' other_runs').erase ?_
    rintro rfl
    rw [serial_eq] at other_runs'
    exact other_ne (threads.alone other thread n runtime' runtime other_runs' runs)
  have run_eq : ∀ result, runBy (update running thread none) thread result =
      runBy running thread result := fun result => by
    simp [runBy]
  rcases outcome with ⟨other, firstDue, rfl⟩ | ⟨none_due, later, later_eq, more⟩
  · have due : Table.FirstDue (cs1.bucket (bucketOf runtime)).first runtime other := by
      obtain ⟨middle, last, rest_eq, skipped⟩ := firstDue.split
      refine ⟨firstDue.due, before ++ middle, last, ?_, ?_⟩
      · rw [first_eq, rest_eq, append_assoc]
      · intro earlier member
        rcases mem_append.1 member with front | inside
        · exact passed earlier front
        · exact skipped earlier inside
    have curtime_le : runtime ≤ cs1.curtime := by
      rw [cs1_eq]
      exact le
    obtain ⟨core2, threads2⟩ := core1.take threads1 thread curtime_le due
    refine ⟨core2, ?_⟩
    rw [← run_eq]
    exact threads2
  · have none_left : ∀ other ∈ (cs1.bucket (bucketOf runtime)).first, ¬ other.Due runtime := by
      rw [first_eq]
      intro other member
      rcases mem_append.1 member with front | behind
      · exact passed other front
      · exact none_due other behind
    have core2 : Core table (.removed n :: history) lbolt { cs1 with runtime := later } next := by
      have runtime_eq : cs1.runtime = cs.runtime := by rw [cs1_eq]; rfl
      have curtime_eq : cs1.curtime = cs.curtime := by rw [cs1_eq]; rfl
      have runtime_le := core1.runtime_le
      refine core1.move ?_ ?_
      · rw [later_eq]
        split <;> omega
      · intro t t_ge t_lt other member
        have : t = runtime := by
          rw [later_eq] at t_lt
          split at t_lt <;> omega
        subst this
        exact none_left other member
    have threads2 : Threads { cs1 with runtime := later } (update running thread none) :=
      threads1.keep fun _ _ _ _ at_n => at_n.of_bucket (le_refl _) rfl
    obtain ⟨core3, threads3, -⟩ := core2.execute threads2 more
    refine ⟨core3, ?_⟩
    rw [← run_eq]
    exact threads3

end Steps

/-- The table is neither saved nor restored. -/
def Timely (_ : State) (event : Event) : Prop := event ≠ .save ∧ event ≠ .restore

/-- The invariant of the runs. -/
structure TimeInv (table : TableId) (history : List Obs) (s : State) : Prop where
  core : Core table history s.lbolt s.cs s.next
  threads : Threads s.cs s.running

theorem TimeInv.init (table : TableId) : TimeInv table [] (State.init table) := by
  refine ⟨⟨?_, ?_, ?_, ?_, ?_, ?_, ?_, ?_, ?_, ?_, ?_, ?_, ?_⟩, ⟨?_, ?_⟩⟩
  · exact fun i => ⟨0, 0, by decide, by decide, setup_counts table i⟩
  · simp [State.init, Table.setup]
  · simp [State.init, Table.setup]
  · exact fun i => nodup_nil
  · exact fun i cp member => absurd member not_mem_nil
  · exact fun i cp member => absurd member not_mem_nil
  · exact fun i cp member => absurd member not_mem_nil
  · exact fun n id lbolt delta curtime seen => absurd seen not_mem_nil
  · exact fun n seen => absurd seen not_mem_nil
  · exact fun id present left seen => absurd seen not_mem_nil
  · exact fun n id lbolt delta curtime id' lbolt' delta' curtime' seen => absurd seen not_mem_nil
  · exact fun n => by simp
  · exact fun i cp member => absurd member not_mem_nil
  · exact fun thread n runtime runs => absurd runs (by simp [State.init])
  · exact fun thread thread' n runtime runtime' runs => absurd runs (by simp [State.init])

section Step

variable {table : TableId} {history seen : List Obs} {s s' : State}

section

variable (inv : TimeInv table history s)

include inv

theorem TimeInv.timeout {driverLock : Bool}
    (next : s.step (.timeout delta driverLock) = some (seen, s')) :
    TimeInv table (seen ++ history) s' := by
  obtain ⟨runtime, answer, result⟩ := map_eq_some_iff.1 next
  obtain ⟨rfl, rfl⟩ := Prod.mk.inj result
  obtain ⟨late, future⟩ := inv.core.runtimeAt_spec answer
  obtain ⟨core, cp, -, runtime_eq, first_eq, others⟩ := inv.core.insert driverLock late future
  refine ⟨core, inv.threads.keep fun _ _ _ _ at_n => ?_⟩
  exact at_n.insert rfl first_eq others (by rw [runtime_eq]; exact future)

theorem TimeInv.untimeout {id : BitVec 32} (next : s.step (.untimeout id) = some (seen, s')) :
    TimeInv table (seen ++ history) s' := by
  obtain ⟨rfl, rfl⟩ := Prod.mk.inj (some.inj next)
  have lt : ∀ n ∈ s.present id, n < s.next := by
    intro n member
    obtain ⟨cp, cp_mem, rfl⟩ := List.mem_map.1 member
    exact inv.core.serial_lt (mem_of_mem_filter cp_mem)
  rcases s.cs.delete_cases id with missed | ⟨cp, member, id_eq, idle, deleted⟩
  · rw [missed]
    exact ⟨inv.core.see_untimed id _ (-1) lt fun _ _ _ _ _ => by omega, inv.threads⟩
  · rw [deleted]
    have erased := (inv.core.erase (bucketOfId id) cp).removed cp.serial
    refine ⟨erased.see_untimed id _ _ lt ?_, ?_⟩
    · -- the only callout with the id is the one that is gone
      intro i other other_mem other_id only
      have here : cp.serial ∈ s.present id :=
        List.mem_map_of_mem (mem_filter.2 ⟨member, by simpa using id_eq⟩)
      rw [only, mem_singleton] at here
      have old_mem : other ∈ (s.cs.bucket i).first := by
        by_cases in_place : i = bucketOfId id
        · subst in_place
          rw [Table.setFirst_self] at other_mem
          exact mem_of_mem_erase other_mem
        · rwa [Table.setFirst_of_ne _ _ in_place] at other_mem
      obtain rfl := inv.core.ext member old_mem here
      have i_eq : i = bucketOfId id := by rw [← (inv.core.placed i cp old_mem).2, id_eq]
      subst i_eq
      rw [Table.setFirst_self] at other_mem
      have nodup : (s.cs.bucket (bucketOfId id)).first.Nodup := Nodup.of_map _ (inv.core.nodup _)
      exact absurd other_mem nodup.not_mem_erase
    · refine inv.threads.keep fun thread n runtime runs at_n => at_n.erase ?_
      rintro rfl
      obtain ⟨cp', member', serial_eq, -, executing⟩ := at_n.mem
      rw [inv.core.ext member' member serial_eq] at executing
      exact idle executing

theorem TimeInv.tick (next : s.step .tick = some (seen, s')) :
    TimeInv table (seen ++ history) s' := by
  obtain ⟨lbolt, answer, result⟩ := map_eq_some_iff.1 next
  obtain ⟨rfl, rfl⟩ := Prod.mk.inj result
  obtain rfl := Table.addLong_eq answer
  have le := inv.core.curtime_le
  exact ⟨inv.core.clock (le_refl _) (show s.cs.curtime ≤ s.lbolt + 1 by omega), inv.threads⟩

theorem TimeInv.schedule (next : s.step .schedule = some (seen, s')) :
    TimeInv table (seen ++ history) s' := by
  obtain ⟨cs', scheduled, result⟩ := map_eq_some_iff.1 next
  obtain ⟨rfl, rfl⟩ := Prod.mk.inj result
  obtain ⟨⟨found, cs1⟩, sought, rfl⟩ := map_eq_some_iff.1 scheduled
  obtain ⟨runtime, rfl, moved⟩ := Table.seek_spec sought
  have core := inv.core.clock inv.core.curtime_le (le_refl s.lbolt)
  have runtime_le := core.runtime_le
  have le := moved.le
  have core' := core.move (by omega) moved.skipped
  have place : ∀ cs2 : Table, cs2.bucket = s.cs.bucket → cs2.curtime = s.lbolt →
      Threads cs2 s.running := by
    intro cs2 bucket_eq curtime_eq
    refine inv.threads.keep fun _ _ _ _ at_n => at_n.of_bucket ?_ (by rw [bucket_eq])
    rw [curtime_eq]
    exact inv.core.curtime_le
  simp only
  split
  · exact ⟨{ core' with }, place _ rfl rfl⟩
  · exact ⟨core', place _ rfl rfl⟩

theorem TimeInv.execute (next : s.step (.execute thread) = some (seen, s')) :
    TimeInv table (seen ++ history) s' := by
  simp only [State.step] at next
  split at next
  · obtain ⟨⟨found, cs'⟩, executed, result⟩ := map_eq_some_iff.1 next
    obtain ⟨core, threads, runtime_eq⟩ := inv.core.execute inv.threads executed
    cases found with
    | none =>
      obtain ⟨rfl, rfl⟩ := Prod.mk.inj result
      exact ⟨core, threads⟩
    | some cp =>
      obtain ⟨rfl, rfl⟩ := Prod.mk.inj result
      refine ⟨core, ?_⟩
      have eq := runtime_eq cp rfl
      simp only at eq ⊢
      rw [eq]
      exact threads
  · exact absurd next (by simp)

theorem TimeInv.done (next : s.step (.done thread) = some (seen, s')) :
    TimeInv table (seen ++ history) s' := by
  obtain ⟨⟨n, runtime⟩, runs, rest⟩ := bind_eq_some_iff.1 next
  obtain ⟨⟨found, cs'⟩, executed, result⟩ := map_eq_some_iff.1 rest
  obtain ⟨core, threads⟩ := inv.core.executed inv.threads runs executed
  cases found with
  | none =>
    obtain ⟨rfl, rfl⟩ := Prod.mk.inj result
    exact ⟨core, threads⟩
  | some cp =>
    obtain ⟨rfl, rfl⟩ := Prod.mk.inj result
    exact ⟨core, threads⟩

theorem TimeInv.step {event : Event} (timely : Timely s event)
    (next : s.step event = some (seen, s')) : TimeInv table (seen ++ history) s' := by
  cases event with
  | timeout delta driverLock => exact inv.timeout next
  | untimeout id => exact inv.untimeout next
  | tick => exact inv.tick next
  | schedule => exact inv.schedule next
  | execute thread => exact inv.execute next
  | done thread => exact inv.done next
  | save => exact absurd rfl timely.1
  | restore => exact absurd rfl timely.2

end

end Step

theorem Run.timeInv {table : TableId} {history : List Obs} {s : State}
    (run : Run table Timely history s) : TimeInv table history s := by
  induction run with
  | init => exact TimeInv.init table
  | step run event meet next ih => exact ih.step meet next

/-! ### The contract -/

/-- What `timeout` and `untimeout` promise. -/
structure Contract (history : List Obs) (s : State) : Prop where
  /-- a handler is started at most once -/
  once : ∀ n, history.count (.started n) ≤ 1
  /-- a handler that runs belongs to a callout that was inserted, and runs late enough -/
  timely : ∀ thread n runtime, s.running thread = some (n, runtime) →
    (∃ id lbolt delta curtime, Obs.inserted n id lbolt delta curtime ∈ history) ∧
      ∀ id lbolt delta curtime, Obs.inserted n id lbolt delta curtime ∈ history →
        lbolt + delta ≤ s.lbolt ∧ curtime < s.cs.curtime
  /-- a handler does not run once its callout was cancelled while it was the only one with its id -/
  cancelled : ∀ thread n runtime id lbolt delta curtime left,
    s.running thread = some (n, runtime) → Obs.inserted n id lbolt delta curtime ∈ history →
      Obs.untimed id [n] left ∈ history → left < 0
  /-- no callout is left behind -/
  passed : ∀ i, ∀ cp ∈ (s.cs.bucket i).first, ¬ cp.Executing → s.cs.runtime ≤ cp.runtime

theorem timeout_contract {table : TableId} {history : List Obs} {s : State}
    (run : Run table Timely history s) : Contract history s := by
  obtain ⟨core, threads⟩ := run.timeInv
  refine ⟨core.once, ?_, ?_, fun i cp member idle => (core.pending i cp member idle).1⟩
  · intro thread n runtime runs
    have place := threads.place thread n runtime runs
    obtain ⟨cp, member, rfl, runtime_eq, -⟩ := place.mem
    obtain ⟨lbolt, delta, curtime, inserted, late, future⟩ := core.born _ cp member
    have le := place.le
    have curtime_le := core.curtime_le
    refine ⟨⟨cp.id, lbolt, delta, curtime, inserted⟩, ?_⟩
    intro id' lbolt' delta' curtime' inserted'
    injection core.same _ _ _ _ _ _ _ _ _ inserted inserted' with _ _ lbolt_eq delta_eq curtime_eq
    omega
  · intro thread n runtime id lbolt delta curtime left runs inserted untimed
    obtain ⟨cp, member, rfl, -⟩ := (threads.place thread n runtime runs).mem
    obtain ⟨lbolt', delta', curtime', inserted', -⟩ := core.born _ cp member
    have id_eq : id = cp.id := by
      injection core.same _ _ _ _ _ _ _ _ _ inserted inserted'
    rw [id_eq] at untimed
    exact core.untimed _ cp member left untimed

theorem timeout_contract_run : ∃ history s, Run .normal Timely history s ∧
    s.running 7 = some (0, 1) ∧ Contract history s := by
  have first : Run .normal Timely _ _ := Run.step Run.init (.timeout 1 false) (by simp [Timely]) rfl
  have second := Run.step first .tick (by simp [Timely]) rfl
  have third := Run.step second .schedule (by simp [Timely]) rfl
  have fourth := Run.step third (.execute 7) (by simp [Timely]) rfl
  exact ⟨_, _, fourth, rfl, timeout_contract fourth⟩

/-! ### Ids that come round again -/

/-- No time has passed, the callouts for the first tick are `waiting`, and the counter of their
bucket stands at `k`. -/
structure Waiting (waiting : List CalloutT) (k : ℕ) (s : State) : Prop where
  lbolt : s.lbolt = 0
  curtime : s.cs.curtime = 0
  runtime : s.cs.runtime = 0
  idle : s.running = fun _ => none
  counts : Counts .normal 1 k 0 (s.cs.bucket 1)
  first : (s.cs.bucket 1).first = waiting
  empty : (s.cs.bucket 0).first = []

/-- A callout that waits for the first tick under the `k`th id. -/
structure Waits (k : ℕ) (cp : CalloutT) : Prop where
  id_toNat : cp.id.toNat = idOf .normal 1 false k
  idle : ¬ cp.Executing
  runtime : cp.runtime = 1

theorem Waiting.init : Waiting [] 0 (State.init .normal) :=
  ⟨rfl, rfl, rfl, rfl, setup_counts .normal 1, rfl, rfl⟩

section Reuse

variable {waiting : List CalloutT} {k : ℕ} {s : State} {history : List Obs}

theorem Waiting.timeout (before : Waiting waiting k s) (small : k < idsPerBucket)
    (run : Run .normal Timely history s) : ∃ cp s',
      Run .normal Timely (.inserted cp.serial cp.id 0 1 0 :: history) s' ∧
        Waits ((k + 1) % idsPerBucket) cp ∧
        Waiting (cp :: waiting) ((k + 1) % idsPerBucket) s' := by
  have bucket_eq : bucketOf 1 = 1 := by decide
  have time : s.cs.runtimeAt s.lbolt 1 = some 1 := by
    rw [Table.runtimeAt, before.lbolt, before.curtime]
    decide
  obtain ⟨cp, isLong, isLong_eq, serial_eq, runtime_eq, idle, id_eq, id_toNat, first_eq, counts,
    others⟩ := Table.insert_spec s.next 1 false (bucket_eq ▸ before.counts) small (by decide)
  obtain rfl : isLong = false := by
    rw [isLong_eq, before.curtime]
    decide
  have stepped : s.step (.timeout 1 false) = some ([.inserted cp.serial cp.id 0 1 0],
      { s with
        cs := (s.cs.insert s.next 1 false).2
        next := s.next + 1 }) := by
    simp only [State.step]
    rw [time]
    simp only [map_some, id_eq, serial_eq, before.lbolt, before.curtime]
  rw [bucket_eq] at id_toNat first_eq counts others
  refine ⟨cp, _, Run.step run _ ⟨by decide, by decide⟩ stepped, ⟨id_toNat, idle, runtime_eq⟩,
    before.lbolt, before.curtime, before.runtime, before.idle, counts, ?_, ?_⟩
  · rw [first_eq, before.first]
  · rw [others 0 (by decide)]
    exact before.empty

/-- `untimeout` cancels the callout that was inserted last. -/
theorem Waiting.untimeout {j : ℕ} (before : Waiting (cp :: waiting) k s) (waits : Waits j cp)
    (run : Run .normal Timely history s) : ∃ present s',
      Run .normal Timely ([.untimed cp.id present 1, .removed cp.serial] ++ history) s' ∧
        Waiting waiting k s' := by
  have bucket_eq : bucketOfId cp.id = 1 := bucketOfId_eq waits.id_toNat
  have stepped : s.step (.untimeout cp.id) = some ([.untimed cp.id (s.present cp.id) 1,
      .removed cp.serial], { s with cs := s.cs.setFirst 1 waiting }) := by
    simp [State.step, Table.delete, bucket_eq, before.first, waits.idle, waits.runtime,
      before.curtime]
  have counts := before.counts
  refine ⟨_, _, Run.step run _ ⟨by simp, by simp⟩ stepped, before.lbolt, before.curtime,
    before.runtime, before.idle, ?_, ?_, ?_⟩
  · rw [Table.setFirst_self]
    exact ⟨counts.shortId, counts.longId⟩
  · rw [Table.setFirst_self]
  · rw [Table.setFirst_of_ne _ _ (by decide)]
    exact before.empty

/-- Pairs of a timeout and its untimeout move the counter on. -/
theorem Waiting.pairs (before : Waiting waiting k s) (small : k < idsPerBucket)
    (run : Run .normal Timely history s) (j : ℕ) : ∃ seen s',
      Run .normal Timely (seen ++ history) s' ∧ Waiting waiting ((k + j) % idsPerBucket) s' := by
  induction j with
  | zero =>
    refine ⟨[], s, run, ?_⟩
    rw [Nat.add_zero, mod_eq_of_lt small]
    exact before
  | succ j ih =>
    obtain ⟨seen, s1, run1, waiting1⟩ := ih
    obtain ⟨cp, s2, run2, waits, waiting2⟩ := waiting1.timeout (mod_lt _ (by decide)) run1
    obtain ⟨present, s3, run3, waiting3⟩ := waiting2.untimeout waits run2
    refine ⟨_ :: _ :: _ :: seen, s3, run3, ?_⟩
    rw [mod_add_mod] at waiting3
    exact waiting3

/-- The handler of the callout that waits is run at the first tick. -/
theorem Waiting.fire {x : CalloutT} {j : ℕ} (before : Waiting [x] k s) (waits : Waits j x)
    (run : Run .normal Timely history s) :
    ∃ s', Run .normal Timely (.started x.serial :: history) s' ∧
      s'.running 7 = some (x.serial, 1) := by
  obtain ⟨lbolt, curtime, runtime, idle, -, first, empty⟩ := before
  have due : x.Due 1 := ⟨waits.runtime, waits.idle⟩
  have tick : s.step .tick = some ([], { s with lbolt := 1 }) := by
    simp [State.step, lbolt, addLong, longMin, longMax]
  have schedule : State.step { s with lbolt := 1 } .schedule = some ([], { s with
      lbolt := 1
      cs := { s.cs with
        curtime := 1
        runtime := 1
        busyticks := s.cs.busyticks + 1 } }) := by
    have zero : bucketOf 0 = 0 := by decide
    have one : bucketOf 1 = 1 := by decide
    simp [State.step, Table.schedule, Table.rounds, Table.seek, runtime, zero, one, empty, first,
      due, addLong, longMin, longMax]
  have run1 := Run.step (Run.step run .tick ⟨by decide, by decide⟩ tick) .schedule
    ⟨by decide, by decide⟩ schedule
  have one : bucketOf 1 = 1 := by decide
  have execute : State.step { s with
      lbolt := 1
      cs := { s.cs with
        curtime := 1
        runtime := 1
        busyticks := s.cs.busyticks + 1 } } (.execute 7) = some ([.started x.serial], { s with
      lbolt := 1
      cs := Table.begin { s.cs with
        curtime := 1
        runtime := 1
        busyticks := s.cs.busyticks + 1 } 7 x
      running := update s.running 7 (some (x.serial, 1)) }) := by
    simp [State.step, Table.execute, Table.seek, one, first, due, State.run, idle,
      Table.begin, Table.setFirst]
  exact ⟨_, Run.step run1 (.execute 7) ⟨by decide, by decide⟩ execute, by simp⟩

end Reuse

/-- After `CALLOUT_LONGTERM / CALLOUT_BUCKETS` insertions into a bucket an id comes round again.  An
`untimeout` of it cancels the later callout, and the handler of the earlier one still runs. -/
theorem untimeout_of_reused_id : ∃ history s later earlier n runtime id lbolt delta curtime present
    left, Run .normal Timely history s ∧ s.running 7 = some (n, runtime) ∧
      history = later ++ Obs.inserted n id lbolt delta curtime :: earlier ∧
      Obs.untimed id present left ∈ later ∧ 0 ≤ left := by
  obtain ⟨x, s1, run1, x_waits, waiting1⟩ := Waiting.init.timeout (by decide) Run.init
  obtain ⟨seen, s2, run2, waiting2⟩ := waiting1.pairs (mod_lt _ (by decide)) run1
    (idsPerBucket - 1)
  obtain ⟨y, s3, run3, y_waits, waiting3⟩ := waiting2.timeout (mod_lt _ (by decide)) run2
  have id_eq : y.id = x.id := by
    apply BitVec.eq_of_toNat_eq
    rw [y_waits.id_toNat, x_waits.id_toNat]
    decide
  obtain ⟨present, s4, run4, waiting4⟩ := waiting3.untimeout y_waits run3
  rw [id_eq] at run4
  obtain ⟨s5, run5, running⟩ := waiting4.fire x_waits run4
  refine ⟨_, s5, .started x.serial :: .untimed x.id present 1 :: .removed y.serial ::
    .inserted y.serial x.id 0 1 0 :: seen, [], x.serial, 1, x.id, 0, 1, 0, present, 1,
      run5, running,
    rfl, by simp, by decide⟩

end Sol25.Callout
