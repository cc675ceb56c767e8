import Mathlib.Data.List.Nodup
import Mathlib.Tactic.IntervalCases
import Sol25.Callout.Model

/-!
# Operations on a callout table

One specification for each operation of a table: the ids that the counters of a bucket give out,
what taking a callout out or marking it leaves of the others, and where the search for due callouts
stops.
-/

namespace Sol25.Callout

open List Option Nat BitVec

/-! ### Ids -/

theorem and_not_longterm {n : ℕ} (bound : n < 2 ^ 32) :
    n &&& 0xF7FFFFFF = n / 2 ^ 28 * 2 ^ 28 + n % 2 ^ 27 := by
  have high : (n &&& 0xF7FFFFFF) / 2 ^ 27 = n / 2 ^ 28 * 2 := by
    rw [and_div_two_pow]
    have small : n / 2 ^ 27 < 32 := by omega
    have split : n / 2 ^ 28 = n / 2 ^ 27 / 2 := by omega
    rw [split]
    generalize n / 2 ^ 27 = q at small
    revert q
    decide
  have low : (n &&& 0xF7FFFFFF) % 2 ^ 27 = n % 2 ^ 27 := by
    rw [and_mod_two_pow]
    exact (and_two_pow_sub_one_eq_mod (n % 2 ^ 27) 27).trans (mod_mod _ _)
  omega

theorem or_longterm {n : ℕ} (bound : n < 2 ^ 32) :
    n ||| 2 ^ 27 = n / 2 ^ 28 * 2 ^ 28 + 2 ^ 27 + n % 2 ^ 27 := by
  have high : (n ||| 2 ^ 27) / 2 ^ 27 = n / 2 ^ 28 * 2 + 1 := by
    rw [or_div_two_pow]
    have small : n / 2 ^ 27 < 32 := by omega
    have split : n / 2 ^ 28 = n / 2 ^ 27 / 2 := by omega
    rw [split]
    generalize n / 2 ^ 27 = q at small
    revert q
    decide
  have low : (n ||| 2 ^ 27) % 2 ^ 27 = n % 2 ^ 27 := by
    rw [or_mod_two_pow]
    simp
  omega

/-- The number of ids a bucket has in each of the two spaces, `CALLOUT_LONGTERM /
CALLOUT_BUCKETS`. -/
def idsPerBucket : ℕ := 2 ^ 19

/-- The id of the `k`th callout of a bucket in the short-term or the long-term space. -/
def idOf (table : TableId) (i : Fin 256) (isLong : Bool) (k : ℕ) : ℕ :=
  table.bit.toNat + (if isLong then 2 ^ 27 else 0) + i + 256 * k

theorem bit_cases (table : TableId) :
    table.bit.toNat = 2 ^ 28 ∨ table.bit.toNat = 2 ^ 29 := by
  cases table
  · exact .inl rfl
  · exact .inr rfl

variable {id : BitVec 32} {i : Fin 256} {cs : Table} {table : TableId} {k : ℕ} {runtime : ℤ}

theorem idOf_lt (table : TableId) (i : Fin 256) (isLong : Bool) (small : k < idsPerBucket) :
    idOf table i isLong k < 2 ^ 30 := by
  have := i.isLt
  simp only [idOf, idsPerBucket] at *
  rcases bit_cases table with bit | bit <;> rw [bit] <;> split <;> omega

theorem idOf_inj {isLong isLong' : Bool} {k' : ℕ} (small : k < idsPerBucket)
    (small' : k' < idsPerBucket) (same : idOf table i isLong k = idOf table i isLong' k') :
    isLong = isLong' ∧ k = k' := by
  have := i.isLt
  simp only [idOf, idsPerBucket] at *
  cases isLong <;> cases isLong' <;> simp at same ⊢ <;> omega

theorem bucketOfId_eq {isLong : Bool} (id_eq : id.toNat = idOf table i isLong k) :
    bucketOfId id = i := by
  have := i.isLt
  apply Fin.ext
  have low : (id &&& 255).toNat = id.toNat % 256 := by
    rw [toNat_and]
    exact and_two_pow_sub_one_eq_mod _ 8
  simp only [bucketOfId, Fin.ofNat, low, id_eq, idOf]
  rcases bit_cases table with bit | bit <;> rw [bit] <;> split <;> omega

/-- The counters of a bucket stand at `short` and `long`. -/
structure Counts (table : TableId) (i : Fin 256) (short long : ℕ) (bucket : Bucket) : Prop where
  shortId : bucket.shortId.toNat = idOf table i false short
  longId : bucket.longId.toNat = idOf table i true long

/-- The next value of a counter. -/
def bump (short long : ℕ) (isLong : Bool) : ℕ × ℕ :=
  if isLong then (short, (long + 1) % idsPerBucket) else ((short + 1) % idsPerBucket, long)

/-- The counter that a bump moves. -/
def bumped (short long : ℕ) (isLong : Bool) : ℕ :=
  if isLong then (long + 1) % idsPerBucket else (short + 1) % idsPerBucket

theorem shortId_next (small : k < idsPerBucket) (id_eq : id.toNat = idOf table i false k) :
    ((id + 256) &&& ~~~longterm).toNat = idOf table i false ((k + 1) % idsPerBucket) := by
  have := i.isLt
  have mask : (~~~longterm).toNat = 0xF7FFFFFF := by decide
  have sum : (id + 256).toNat = id.toNat + 256 := by
    have := idOf_lt table i false small
    rw [toNat_add]
    simp only [reduceToNat]
    omega
  rw [toNat_and, mask, and_not_longterm (by omega), sum, id_eq]
  simp only [idOf, idsPerBucket] at *
  rcases bit_cases table with bit | bit <;> rw [bit] <;> simp <;> omega

theorem longId_next (small : k < idsPerBucket) (id_eq : id.toNat = idOf table i true k) :
    ((id - longterm + 256) ||| longterm).toNat = idOf table i true ((k + 1) % idsPerBucket) := by
  have := i.isLt
  have bit27 : longterm.toNat = 2 ^ 27 := rfl
  have sum : (id - longterm + 256).toNat = id.toNat - 2 ^ 27 + 256 := by
    have := idOf_lt table i true small
    have : 2 ^ 27 ≤ id.toNat := by
      rw [id_eq]
      simp only [idOf, if_true]
      omega
    rw [toNat_add, toNat_sub, bit27]
    simp only [reduceToNat]
    omega
  rw [toNat_or, bit27, or_longterm (by omega), sum, id_eq]
  simp only [idOf, idsPerBucket] at *
  rcases bit_cases table with bit | bit <;> rw [bit] <;> simp <;> omega

theorem assignId_counts {short long : ℕ} {bucket : Bucket}
    (counts : Counts table i short long bucket) (short_lt : short < idsPerBucket)
    (long_lt : long < idsPerBucket) (isLong : Bool) :
    (Table.assignId bucket isLong).1.toNat = idOf table i isLong (bumped short long isLong) ∧
      Counts table i (bump short long isLong).1 (bump short long isLong).2
        (Table.assignId bucket isLong).2 ∧
      (Table.assignId bucket isLong).2.first = bucket.first := by
  cases isLong with
  | false =>
    have next := shortId_next short_lt counts.shortId
    exact ⟨next, ⟨next, counts.longId⟩, rfl⟩
  | true =>
    have next := longId_next long_lt counts.longId
    exact ⟨next, ⟨counts.shortId, next⟩, rfl⟩

theorem setup_counts (table : TableId) (i : Fin 256) :
    Counts table i 0 0 ((Table.setup table).bucket i) := by
  have := i.isLt
  have short : (BitVec.ofNat 32 i ||| table.bit).toNat = i + table.bit.toNat := by
    rw [toNat_or, toNat_ofNat]
    have disjoint : (i : ℕ) % 2 ^ 32 = i := by omega
    rw [disjoint]
    rcases bit_cases table with bit | bit <;> rw [bit]
    · have sum := two_pow_add_eq_or_of_lt (show (i : ℕ) < 2 ^ 28 by omega) 1
      rw [Nat.mul_one] at sum
      rw [Nat.or_comm, Nat.add_comm, ← sum]
    · have sum := two_pow_add_eq_or_of_lt (show (i : ℕ) < 2 ^ 29 by omega) 1
      rw [Nat.mul_one] at sum
      rw [Nat.or_comm, Nat.add_comm, ← sum]
  constructor
  · simp only [Table.setup, short, idOf, Bool.false_eq_true, if_false]
    omega
  · have bit27 : longterm.toNat = 2 ^ 27 := rfl
    simp only [Table.setup]
    rw [toNat_or, short, bit27, or_longterm (by rcases bit_cases table with bit | bit <;> omega)]
    simp only [idOf, if_true]
    rcases bit_cases table with bit | bit <;> rw [bit] <;> omega

/-! ### Callouts -/

theorem and_idMask (small : id.toNat < 2 ^ 30) : id &&& idMask = id := by
  apply eq_of_toNat_eq
  have mask : idMask.toNat = 2 ^ 30 - 1 := by decide
  rw [toNat_and, mask, and_two_pow_sub_one_eq_mod, mod_eq_of_lt small]

/-- The `c_xid` of a new callout has the id and no handler is running. -/
theorem new_xid (small : id.toNat < 2 ^ 30) (driverLock : Bool) :
    (if driverLock then id ||| unsafeDriverBit else id) &&& idMask = id ∧
      (if driverLock then id ||| unsafeDriverBit else id) &&& executingBit = 0 := by
  have masked := and_idMask small
  have outside : idMask &&& executingBit = 0#32 := by decide
  have none_set : id &&& executingBit = 0#32 := by
    rw [← masked, BitVec.and_assoc, outside, BitVec.and_zero]
  have driver : unsafeDriverBit &&& idMask = 0#32 := by decide
  have driver' : unsafeDriverBit &&& executingBit = 0#32 := by decide
  cases driverLock with
  | false => exact ⟨masked, none_set⟩
  | true =>
    simp only [if_true]
    rw [BitVec.and_comm, BitVec.and_or_distrib_left, BitVec.and_comm idMask id,
      BitVec.and_comm idMask, driver, masked, BitVec.or_zero, BitVec.and_comm _ executingBit,
      BitVec.and_or_distrib_left, BitVec.and_comm executingBit id,
      BitVec.and_comm executingBit unsafeDriverBit, none_set, driver', BitVec.or_zero]
    exact ⟨rfl, rfl⟩

namespace CalloutT

@[simp] theorem begin_id (cp : CalloutT) (thread : ℕ) : (cp.begin thread).id = cp.id := by
  have outside : executingBit &&& idMask = 0#32 := by decide
  simp only [CalloutT.begin, CalloutT.id]
  rw [BitVec.and_comm, BitVec.and_or_distrib_left, BitVec.and_comm idMask executingBit, outside,
    BitVec.or_zero, BitVec.and_comm]

@[simp] theorem begin_executing (cp : CalloutT) (thread : ℕ) : (cp.begin thread).Executing := by
  intro clear
  have set : (cp.begin thread).xid.getLsbD 31 = true := by
    simp [CalloutT.begin, executingBit]
  have bit : ((cp.begin thread).xid &&& executingBit).getLsbD 31 = true := by
    rw [BitVec.getLsbD_and, set]
    decide
  rw [clear] at bit
  simp at bit

end CalloutT

/-! ### The table -/

namespace Table

@[simp] theorem setFirst_runtime (cs : Table) (i : Fin 256) (first : List CalloutT) :
    (cs.setFirst i first).runtime = cs.runtime := rfl

theorem setFirst_self (cs : Table) (i : Fin 256) (first : List CalloutT) :
    (cs.setFirst i first).bucket i = { cs.bucket i with first := first } := by
  simp [setFirst]

theorem setFirst_of_ne (cs : Table) {j : Fin 256} (first : List CalloutT) (ne : j ≠ i) :
    (cs.setFirst i first).bucket j = cs.bucket j := by
  simp [setFirst, ne]

/-- An insertion puts a callout of the next id in front of the bucket of its run time. -/
theorem insert_spec {short long : ℕ} (serial : ℕ) (runtime : ℤ) (driverLock : Bool)
    (counts : Counts table (bucketOf runtime) short long (cs.bucket (bucketOf runtime)))
    (short_lt : short < idsPerBucket) (long_lt : long < idsPerBucket) :
    ∃ cp isLong, isLong = decide (longtermTicks < runtime - cs.curtime) ∧
      cp.serial = serial ∧ cp.runtime = runtime ∧ ¬ cp.Executing ∧
      cp.id = (cs.insert serial runtime driverLock).1 ∧
      cp.id.toNat = idOf table (bucketOf runtime) isLong (bumped short long isLong) ∧
      ((cs.insert serial runtime driverLock).2.bucket (bucketOf runtime)).first =
        cp :: (cs.bucket (bucketOf runtime)).first ∧
      Counts table (bucketOf runtime) (bump short long isLong).1 (bump short long isLong).2
        ((cs.insert serial runtime driverLock).2.bucket (bucketOf runtime)) ∧
      ∀ j ≠ bucketOf runtime, (cs.insert serial runtime driverLock).2.bucket j = cs.bucket j := by
  let isLong := decide (longtermTicks < runtime - cs.curtime)
  obtain ⟨id_eq, counts', first_eq⟩ := assignId_counts counts short_lt long_lt isLong
  have bumped_lt : bumped short long isLong < idsPerBucket := by
    simp only [bumped]
    split <;> exact mod_lt _ (by decide)
  have small : (assignId (cs.bucket (bucketOf runtime)) isLong).1.toNat < 2 ^ 30 := by
    rw [id_eq]
    exact idOf_lt _ _ _ bumped_lt
  obtain ⟨masked, clear⟩ := new_xid small driverLock
  refine ⟨⟨serial, if driverLock then _ ||| unsafeDriverBit else _, runtime, none⟩,
    isLong, rfl, rfl,
    rfl, not_not.2 clear, masked, ?_, ?_, ?_, ?_⟩
  · rw [CalloutT.id, masked, id_eq]
  · simp [insert, isLong, first_eq]
  · simp only [insert, Function.update_self]
    exact ⟨counts'.shortId, counts'.longId⟩
  · intro j ne
    simp [insert, ne]

theorem delete_cases (cs : Table) (id : BitVec 32) :
    cs.delete id = (-1, none, cs) ∨
      ∃ cp ∈ (cs.bucket (bucketOfId id)).first, cp.id = id ∧ ¬ cp.Executing ∧
        cs.delete id = (max (cp.runtime - cs.curtime) 0, some cp,
          cs.setFirst (bucketOfId id) ((cs.bucket (bucketOfId id)).first.erase cp)) := by
  simp only [delete]
  cases found : (cs.bucket (bucketOfId id)).first.find? fun cp => cp.id = id with
  | none => exact .inl rfl
  | some cp =>
    by_cases executing : cp.Executing
    · simp [executing]
    · refine .inr ⟨cp, mem_of_find?_eq_some found, ?_, executing, by simp [executing]⟩
      simpa using find?_some found

/-- A callout is the first of a bucket that is due. -/
structure FirstDue (first : List CalloutT) (runtime : ℤ) (cp : CalloutT) : Prop where
  due : cp.Due runtime
  split : ∃ before rest, first = before ++ cp :: rest ∧ ∀ other ∈ before, ¬ other.Due runtime

theorem FirstDue.mem {first : List CalloutT} {cp : CalloutT}
    (firstDue : FirstDue first runtime cp) : cp ∈ first := by
  obtain ⟨before, rest, rfl, -⟩ := firstDue.split
  simp

theorem find_due {first : List CalloutT} {cp : CalloutT}
    (found : (first.find? fun cp => cp.Due runtime) = some cp) : FirstDue first runtime cp := by
  obtain ⟨due, before, rest, split, others⟩ := find?_eq_some_iff_append.1 found
  exact ⟨by simpa using due, before, rest, split, fun other member => by
    simpa using others other member⟩

/-- The search for due callouts moves `cs_runtime` over ticks at which nothing is due, and stops
where something is, or behind `cs_curtime`. -/
structure Sought (cs : Table) (found : Option CalloutT) (runtime : ℤ) : Prop where
  mono : cs.runtime ≤ runtime
  le : runtime ≤ max cs.runtime (cs.curtime + 1)
  skipped : ∀ t, cs.runtime ≤ t → t < runtime → ∀ cp ∈ (cs.bucket (bucketOf t)).first, ¬ cp.Due t
  stopped : ∀ cp ∈ found, FirstDue (cs.bucket (bucketOf runtime)).first runtime cp ∧
    runtime ≤ cs.curtime

theorem addLong_eq {x y z : ℤ} (sum : addLong x y = some z) : z = x + y := by
  simp only [addLong] at sum
  split at sum
  · exact (some.inj sum).symm
  · exact absurd sum (by simp)

theorem seek_spec {fuel : ℕ} {cs' : Table} {found : Option CalloutT}
    (sought : cs.seek fuel = some (found, cs')) :
    ∃ runtime, cs' = { cs with runtime := runtime } ∧ Sought cs found runtime := by
  induction fuel generalizing cs with
  | zero =>
    obtain ⟨rfl, rfl⟩ : none = found ∧ cs = cs' := by simpa [seek] using sought
    exact ⟨cs.runtime, rfl, le_refl _, le_max_left _ _, fun t le lt => by omega, by simp⟩
  | succ fuel ih =>
    rw [seek] at sought
    by_cases behind : cs.runtime ≤ cs.curtime
    · rw [if_pos behind] at sought
      cases here : (cs.bucket (bucketOf cs.runtime)).first.find? fun cp => cp.Due cs.runtime with
      | some cp =>
        obtain ⟨rfl, rfl⟩ : some cp = found ∧ cs = cs' := by simpa [here] using sought
        refine ⟨cs.runtime, rfl, le_refl _, le_max_left _ _, fun t le lt => by omega, ?_⟩
        rintro _ ⟨⟩
        exact ⟨find_due here, behind⟩
      | none =>
        simp only [here] at sought
        obtain ⟨later, later_eq, rest⟩ := bind_eq_some_iff.1 sought
        obtain rfl := addLong_eq later_eq
        obtain ⟨runtime, cs'_eq, inner⟩ := ih rest
        have mono := inner.mono
        have le := inner.le
        simp only at mono le
        refine ⟨runtime, cs'_eq, by omega, by omega, ?_, inner.stopped⟩
        intro t t_ge t_lt cp member
        by_cases first : t = cs.runtime
        · subst first
          simpa using find?_eq_none.1 here cp member
        · exact inner.skipped t (by simp only; omega) t_lt cp member
    · rw [if_neg behind] at sought
      obtain ⟨rfl, rfl⟩ : none = found ∧ cs = cs' := by simpa using sought
      exact ⟨cs.runtime, rfl, le_refl _, le_max_left _ _, fun t le lt => by omega, by simp⟩

/-- After a handler has returned, its callout is taken out, and the thread goes on to the next due
callout behind it, or to later ticks. -/
theorem executed_cases {thread serial : ℕ} {result : Option CalloutT × Table}
    (executed : cs.executed thread serial runtime = some result) :
    ∃ before cp rest cs1, (cs.bucket (bucketOf runtime)).first = before ++ cp :: rest ∧
      cp.serial = serial ∧
      cs1 = cs.setFirst (bucketOf runtime) ((cs.bucket (bucketOf runtime)).first.erase cp) ∧
      ((∃ other, FirstDue rest runtime other ∧ result = (some other, cs1.begin thread other)) ∨
        (∀ other ∈ rest, ¬ other.Due runtime) ∧ ∃ later,
          later = (if cs.runtime = runtime then runtime + 1 else cs.runtime) ∧
            Table.execute { cs1 with runtime := later } thread = some result) := by
  have whole := takeWhile_append_dropWhile
    (p := fun cp : CalloutT => decide (cp.serial ≠ serial))
    (l := (cs.bucket (bucketOf runtime)).first)
  have first_kept := @head_dropWhile_not CalloutT (fun cp => decide (cp.serial ≠ serial))
    (cs.bucket (bucketOf runtime)).first
  simp only [Table.executed] at executed
  generalize List.takeWhile (fun cp : CalloutT => decide (cp.serial ≠ serial))
    (cs.bucket (bucketOf runtime)).first = before at whole
  generalize List.dropWhile (fun cp : CalloutT => decide (cp.serial ≠ serial))
    (cs.bucket (bucketOf runtime)).first = behind at whole first_kept executed
  cases behind with
  | nil => exact absurd executed (by simp)
  | cons cp rest =>
    have serial_eq : cp.serial = serial := not_not.1 (of_decide_eq_false (first_kept (by simp)))
    refine ⟨before, cp, rest, _, whole.symm, serial_eq, rfl, ?_⟩
    cases more : rest.find? fun other => other.Due runtime with
    | some other =>
      simp only [more, some.injEq] at executed
      exact .inl ⟨other, find_due more, executed.symm⟩
    | none =>
      simp only [more] at executed
      refine .inr ⟨fun other member => by simpa using find?_eq_none.1 more other member, _, rfl, ?_⟩
      obtain ⟨cs2, moved, rest_eq⟩ := bind_eq_some_iff.1 executed
      by_cases current : cs.runtime = runtime
      · simp only [setFirst_runtime, current, if_true] at moved ⊢
        obtain ⟨later, later_eq, rfl⟩ := map_eq_some_iff.1 moved
        obtain rfl := addLong_eq later_eq
        exact rest_eq
      · simp only [setFirst_runtime, current, if_false, some.injEq] at moved ⊢
        rw [← moved] at rest_eq
        exact rest_eq

end Table

end Sol25.Callout
