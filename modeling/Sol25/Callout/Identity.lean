import Sol25.Callout.Table

/-!
# Callout ids across checkpoint and resume

Every callout of a table is in the bucket that its id names, and is there once.  The ids of a table
stay distinct as long as a table is restored only when no callout inserted since the checkpoint is
left: `callout_restore` also restores the counters, so that it hands out the ids of such callouts
again.
-/

namespace Sol25.Callout

open List Option

/-! ### What the steps other than insertion, checkpoint and resume do to the buckets -/

/-- What names a callout. -/
def CalloutT.key (cp : CalloutT) : ℕ × BitVec 32 := (cp.serial, cp.id)

/-- The counters are kept, and the callouts in their order, but for some that are gone. -/
structure Thinned (gone : List ℕ) (cs cs' : Table) : Prop where
  shortId : ∀ i, (cs'.bucket i).shortId = (cs.bucket i).shortId
  longId : ∀ i, (cs'.bucket i).longId = (cs.bucket i).longId
  sublist : ∀ i, ((cs'.bucket i).first.map CalloutT.key).Sublist
    ((cs.bucket i).first.map CalloutT.key)
  kept : ∀ i, ∀ cp ∈ (cs.bucket i).first, cp.serial ∉ gone →
    ∃ cp' ∈ (cs'.bucket i).first, cp'.serial = cp.serial

theorem Thinned.refl (cs : Table) : Thinned [] cs cs :=
  ⟨fun _ => rfl, fun _ => rfl, fun _ => Sublist.refl _, fun _ cp member _ => ⟨cp, member, rfl⟩⟩

variable {seen : List Obs} {gone : List ℕ} {cs cs' : Table} {table : TableId}

theorem Thinned.trans {gone' : List ℕ} {cs'' : Table} (first : Thinned gone cs cs')
    (second : Thinned gone' cs' cs'') : Thinned (gone ++ gone') cs cs'' := by
  refine ⟨fun i => (second.shortId i).trans (first.shortId i),
    fun i => (second.longId i).trans (first.longId i),
    fun i => (second.sublist i).trans (first.sublist i), ?_⟩
  intro i cp member stays
  simp only [mem_append, not_or] at stays
  obtain ⟨cp', member', serial_eq⟩ := first.kept i cp member stays.1
  obtain ⟨cp'', member'', serial_eq'⟩ :=
    second.kept i cp' member' (by rw [serial_eq]; exact stays.2)
  exact ⟨cp'', member'', serial_eq'.trans serial_eq⟩

theorem Thinned.of_bucket_eq (same : cs'.bucket = cs.bucket) : Thinned [] cs cs' := by
  have refl := Thinned.refl cs
  refine ⟨?_, ?_, ?_, ?_⟩ <;> rw [same]
  · exact refl.shortId
  · exact refl.longId
  · exact refl.sublist
  · exact refl.kept

theorem Thinned.setFirst {i : Fin 256} {first : List CalloutT}
    (sublist : (first.map CalloutT.key).Sublist ((cs.bucket i).first.map CalloutT.key))
    (kept : ∀ cp ∈ (cs.bucket i).first, cp.serial ∉ gone → ∃ cp' ∈ first, cp'.serial = cp.serial) :
    Thinned gone cs (cs.setFirst i first) := by
  refine ⟨?_, ?_, ?_, ?_⟩ <;> intro j <;> by_cases here : j = i
  · subst here
    rw [Table.setFirst_self]
  · rw [Table.setFirst_of_ne _ _ here]
  · subst here
    rw [Table.setFirst_self]
  · rw [Table.setFirst_of_ne _ _ here]
  · subst here
    rw [Table.setFirst_self]
    exact sublist
  · rw [Table.setFirst_of_ne _ _ here]
  · subst here
    rw [Table.setFirst_self]
    exact kept
  · rw [Table.setFirst_of_ne _ _ here]
    exact fun cp member _ => ⟨cp, member, rfl⟩

theorem thinned_erase (cs : Table) (i : Fin 256) (cp : CalloutT) :
    Thinned [cp.serial] cs (cs.setFirst i ((cs.bucket i).first.erase cp)) := by
  refine Thinned.setFirst (List.Sublist.map _ erase_sublist) ?_
  intro other member stays
  have ne : other ≠ cp := fun same => stays (by simp [same])
  exact ⟨other, (mem_erase_of_ne ne).2 member, rfl⟩

theorem thinned_begin (cs : Table) (thread : ℕ) (cp : CalloutT) :
    Thinned [] cs (cs.begin thread cp) := by
  have key_eq : ∀ other : CalloutT,
      CalloutT.key (if other = cp then cp.begin thread else other) = CalloutT.key other := by
    intro other
    split
    · next same =>
        rw [same]
        exact congrArg (Prod.mk cp.serial) (CalloutT.begin_id cp thread)
    · rfl
  refine Thinned.setFirst ?_ ?_
  · rw [List.map_map]
    exact (map_congr_left fun other _ => key_eq other) ▸ Sublist.refl _
  · intro other member _
    exact ⟨_, List.mem_map_of_mem member, congrArg Prod.fst (key_eq other)⟩

theorem thinned_seek {fuel : ℕ} {found : Option CalloutT}
    (sought : cs.seek fuel = some (found, cs')) : Thinned [] cs cs' := by
  obtain ⟨runtime, rfl, -⟩ := Table.seek_spec sought
  exact Thinned.of_bucket_eq rfl

theorem thinned_execute {thread : ℕ} {result : Option CalloutT × Table}
    (executed : cs.execute thread = some result) : Thinned [] cs result.2 := by
  obtain ⟨⟨found, cs'⟩, sought, rfl⟩ := map_eq_some_iff.1 executed
  have thinned := thinned_seek sought
  cases found with
  | none => exact thinned
  | some cp => exact thinned.trans (thinned_begin cs' thread cp)

theorem thinned_executed {thread serial : ℕ} {runtime : ℤ} {result : Option CalloutT × Table}
    (executed : cs.executed thread serial runtime = some result) :
    Thinned [serial] cs result.2 := by
  obtain ⟨before, cp, rest, cs1, -, rfl, rfl, outcome⟩ := Table.executed_cases executed
  have erased := thinned_erase cs (bucketOf runtime) cp
  rcases outcome with ⟨other, -, rfl⟩ | ⟨-, later, -, more⟩
  · exact erased.trans (thinned_begin _ thread other)
  · have moved : Thinned [] (cs.setFirst (bucketOf runtime)
        ((cs.bucket (bucketOf runtime)).first.erase cp)) { cs.setFirst (bucketOf runtime)
        ((cs.bucket (bucketOf runtime)).first.erase cp) with runtime := later } :=
      Thinned.of_bucket_eq rfl
    exact (erased.trans moved).trans (thinned_execute more)

/-- The observations that `untimeout`, the clock and the threads give. -/
def Obs.Neutral : Obs → Prop
  | .inserted _ _ _ _ _ => False
  | .saved => False
  | .restored _ => False
  | _ => True

/-- The steps that neither insert nor save nor restore. -/
def Event.Thins : Event → Prop
  | .timeout _ _ => False
  | .save => False
  | .restore => False
  | _ => True

theorem run_neutral (s : State) (thread : ℕ) (runtime : ℤ) (found : Option CalloutT × Table) :
    (∀ o ∈ (s.run thread runtime found).1, o.Neutral) ∧
      (s.run thread runtime found).2.cs = found.2 ∧
      (s.run thread runtime found).2.next = s.next ∧
      (s.run thread runtime found).2.saved = s.saved := by
  simp only [State.run]
  split <;> simp [Obs.Neutral]

theorem step_thinned {s s' : State} {event : Event} (next : s.step event = some (seen, s'))
    (thins : event.Thins) :
    ∃ gone, Thinned gone s.cs s'.cs ∧ (∀ n ∈ gone, Obs.removed n ∈ seen) ∧
      (∀ o ∈ seen, o.Neutral) ∧ s'.next = s.next ∧ s'.saved = s.saved := by
  cases event with
  | timeout delta driverLock => exact absurd thins id
  | save => exact absurd thins id
  | restore => exact absurd thins id
  | untimeout id =>
    simp only [State.step, some.injEq, Prod.mk.injEq] at next
    obtain ⟨rfl, rfl⟩ := next
    rcases s.cs.delete_cases id with missed | ⟨cp, -, -, -, deleted⟩
    · rw [missed]
      exact ⟨[], Thinned.refl _, by simp, by simp [Obs.Neutral], rfl, rfl⟩
    · rw [deleted]
      exact ⟨[cp.serial], thinned_erase _ _ cp, by simp, by simp [Obs.Neutral], rfl, rfl⟩
  | tick =>
    obtain ⟨lbolt, -, result⟩ := map_eq_some_iff.1 next
    obtain ⟨rfl, rfl⟩ := Prod.mk.inj result
    exact ⟨[], Thinned.refl _, by simp, by simp, rfl, rfl⟩
  | schedule =>
    obtain ⟨cs', scheduled, result⟩ := map_eq_some_iff.1 next
    obtain ⟨rfl, rfl⟩ := Prod.mk.inj result
    obtain ⟨⟨found, cs1⟩, sought, rfl⟩ := map_eq_some_iff.1 scheduled
    obtain ⟨runtime, rfl, -⟩ := Table.seek_spec sought
    refine ⟨[], Thinned.of_bucket_eq ?_, by simp, by simp, rfl, rfl⟩
    simp only
    split <;> rfl
  | execute thread =>
    simp only [State.step] at next
    split at next
    · obtain ⟨found, executed, result⟩ := map_eq_some_iff.1 next
      obtain ⟨neutral, cs_eq, next_eq, saved_eq⟩ := run_neutral s thread found.2.runtime found
      rw [result] at neutral cs_eq next_eq saved_eq
      refine ⟨[], ?_, by simp, neutral, next_eq, saved_eq⟩
      rw [cs_eq]
      exact thinned_execute executed
    · exact absurd next (by simp)
  | done thread =>
    obtain ⟨⟨serial, runtime⟩, -, rest⟩ := bind_eq_some_iff.1 next
    obtain ⟨found, executed, result⟩ := map_eq_some_iff.1 rest
    obtain ⟨rfl, rfl⟩ := Prod.mk.inj result
    obtain ⟨neutral, cs_eq, next_eq, saved_eq⟩ :=
      run_neutral s thread ((found.1.map CalloutT.runtime).getD runtime) found
    refine ⟨[serial], ?_, by simp, ?_, next_eq, saved_eq⟩
    · rw [cs_eq]
      exact thinned_executed executed
    · intro o member
      rcases mem_append.1 member with started | removed
      · exact neutral o started
      · obtain rfl := mem_singleton.1 removed
        trivial

/-! ### Where the callouts are -/

def Obs.into (i : Fin 256) : Obs → Bool
  | .inserted _ id _ _ _ => bucketOfId id = i
  | _ => false

def insertions (i : Fin 256) (history : List Obs) : ℕ := history.countP (Obs.into i)

theorem insertions_append (i : Fin 256) (seen history : List Obs) :
    insertions i (seen ++ history) = insertions i seen + insertions i history :=
  countP_append

theorem insertions_le (i : Fin 256) (seen history : List Obs) :
    insertions i history ≤ insertions i (seen ++ history) := by
  rw [insertions_append]
  exact Nat.le_add_left _ _

/-- The counters of the buckets have moved by insertions only, and the callouts have ids of their
bucket. -/
structure Shaped (table : TableId) (history : List Obs) (cs : Table) : Prop where
  counts : ∀ i, ∃ short long, short + long ≤ insertions i history ∧
    Counts table i short long (cs.bucket i)
  ids : ∀ i, ∀ cp ∈ (cs.bucket i).first, ∃ isLong k, k < idsPerBucket ∧
    cp.id.toNat = idOf table i isLong k
  born : ∀ i, ∀ cp ∈ (cs.bucket i).first, ∃ lbolt delta curtime,
    Obs.inserted cp.serial cp.id lbolt delta curtime ∈ history

/-- The ids of the callouts of a bucket are distinct, and its counters are past them. -/
structure Fresh (table : TableId) (cs : Table) : Prop where
  below : ∀ i short long, short < idsPerBucket → long < idsPerBucket →
    Counts table i short long (cs.bucket i) → ∀ cp ∈ (cs.bucket i).first,
      ∃ isLong k, k ≤ (if isLong then long else short) ∧ cp.id.toNat = idOf table i isLong k
  nodup : ∀ i, ((cs.bucket i).first.map CalloutT.id).Nodup

section Thinning

variable {table : TableId} {history seen : List Obs} {gone : List ℕ} {cs cs' : Table}

theorem Thinned.origin (thinned : Thinned gone cs cs') {i : Fin 256} {cp : CalloutT}
    (member : cp ∈ (cs'.bucket i).first) :
    ∃ old ∈ (cs.bucket i).first, old.serial = cp.serial ∧ old.id = cp.id := by
  have key_mem := (thinned.sublist i).subset (List.mem_map_of_mem member)
  obtain ⟨old, old_mem, key_eq⟩ := List.mem_map.1 key_mem
  exact ⟨old, old_mem, congrArg Prod.fst key_eq, congrArg Prod.snd key_eq⟩

theorem Thinned.counts (thinned : Thinned gone cs cs') {i : Fin 256} {short long : ℕ} :
    Counts table i short long (cs'.bucket i) ↔ Counts table i short long (cs.bucket i) := by
  constructor
  · rintro ⟨shortId, longId⟩
    exact ⟨thinned.shortId i ▸ shortId, thinned.longId i ▸ longId⟩
  · rintro ⟨shortId, longId⟩
    exact ⟨(thinned.shortId i).symm ▸ shortId, (thinned.longId i).symm ▸ longId⟩

theorem Shaped.mono (shaped : Shaped table history cs) : Shaped table (seen ++ history) cs := by
  refine ⟨?_, shaped.ids, ?_⟩
  · intro i
    obtain ⟨short, long, le, counts⟩ := shaped.counts i
    exact ⟨short, long, le.trans (insertions_le i seen history), counts⟩
  · intro i cp member
    obtain ⟨lbolt, delta, curtime, inserted⟩ := shaped.born i cp member
    exact ⟨lbolt, delta, curtime, mem_append_right _ inserted⟩

theorem Shaped.thinned (shaped : Shaped table history cs) (thinned : Thinned gone cs cs') :
    Shaped table history cs' := by
  refine ⟨?_, ?_, ?_⟩
  · intro i
    obtain ⟨short, long, le, counts⟩ := shaped.counts i
    exact ⟨short, long, le, thinned.counts.2 counts⟩
  · intro i cp member
    obtain ⟨old, old_mem, -, id_eq⟩ := thinned.origin member
    exact id_eq ▸ shaped.ids i old old_mem
  · intro i cp member
    obtain ⟨old, old_mem, serial_eq, id_eq⟩ := thinned.origin member
    exact serial_eq ▸ id_eq ▸ shaped.born i old old_mem

theorem Fresh.thinned (fresh : Fresh table cs) (thinned : Thinned gone cs cs') :
    Fresh table cs' := by
  refine ⟨?_, ?_⟩
  · intro i short long short_lt long_lt counts cp member
    obtain ⟨old, old_mem, -, id_eq⟩ := thinned.origin member
    exact id_eq ▸ fresh.below i short long short_lt long_lt (thinned.counts.1 counts) old old_mem
  · intro i
    have sublist := (thinned.sublist i).map Prod.snd
    simp only [List.map_map] at sublist
    exact Nodup.sublist sublist (fresh.nodup i)

theorem Shaped.placed (shaped : Shaped table history cs) {i : Fin 256} {cp : CalloutT}
    (member : cp ∈ (cs.bucket i).first) : bucketOfId cp.id = i := by
  obtain ⟨isLong, k, -, id_eq⟩ := shaped.ids i cp member
  exact bucketOfId_eq id_eq

end Thinning

/-! ### Insertion -/

theorem bumped_eq {short long : ℕ} {isLong : Bool} (few : short + long + 1 < idsPerBucket) :
    bumped short long isLong = (if isLong then long else short) + 1 := by
  cases isLong
  · exact Nat.mod_eq_of_lt (by omega)
  · exact Nat.mod_eq_of_lt (by omega)

theorem bump_add {short long : ℕ} {isLong : Bool} (few : short + long + 1 < idsPerBucket) :
    (bump short long isLong).1 + (bump short long isLong).2 = short + long + 1 := by
  cases isLong
  · have := Nat.mod_eq_of_lt (show short + 1 < idsPerBucket by omega)
    simp only [bump, Bool.false_eq_true, if_false]
    omega
  · have := Nat.mod_eq_of_lt (show long + 1 < idsPerBucket by omega)
    simp only [bump, if_true]
    omega

/-- What an insertion does as long as the counters of the bucket have not gone round. -/
structure Inserted (table : TableId) (history : List Obs) (cs cs' : Table) (cp : CalloutT)
    (i : Fin 256) (isLong : Bool) (short long : ℕ) : Prop where
  few : short + long + 1 < idsPerBucket
  le : short + long ≤ insertions i history
  counts : Counts table i short long (cs.bucket i)
  counts' : Counts table i (bump short long isLong).1 (bump short long isLong).2 (cs'.bucket i)
  id_eq : cp.id.toNat = idOf table i isLong ((if isLong then long else short) + 1)
  first_eq : (cs'.bucket i).first = cp :: (cs.bucket i).first
  others : ∀ j ≠ i, cs'.bucket j = cs.bucket j

section Insertion

variable {table : TableId} {history : List Obs} {cs : Table} {serial : ℕ} {runtime : ℤ}
  {driverLock : Bool} {lbolt delta curtime : ℤ}

theorem Shaped.inserted (shaped : Shaped table history cs)
    (few : ∀ i, insertions i (.inserted serial (cs.insert serial runtime driverLock).1 lbolt delta
      curtime :: history) < idsPerBucket) :
    ∃ cp isLong short long, cp.serial = serial ∧ cp.id = (cs.insert serial runtime driverLock).1 ∧
      Inserted table history cs (cs.insert serial runtime driverLock).2 cp (bucketOf runtime) isLong
        short long := by
  obtain ⟨short, long, le, counts⟩ := shaped.counts (bucketOf runtime)
  have few_i := few (bucketOf runtime)
  have old_le := insertions_le (bucketOf runtime)
    [.inserted serial (cs.insert serial runtime driverLock).1 lbolt delta curtime] history
  simp only [singleton_append] at old_le
  obtain ⟨cp, isLong, -, serial_eq, -, -, id_eq, id_toNat, first_eq, counts', others⟩ :=
    Table.insert_spec serial runtime driverLock counts (by omega) (by omega)
  have into : bucketOfId cp.id = bucketOf runtime := bucketOfId_eq id_toNat
  have new_le : insertions (bucketOf runtime) history + 1 < idsPerBucket := by
    rw [← id_eq] at few_i
    simpa [insertions, Obs.into, into] using few_i
  have room : short + long + 1 < idsPerBucket := by omega
  rw [bumped_eq room] at id_toNat
  exact ⟨cp, isLong, short, long, serial_eq, id_eq, room, le, counts, counts', id_toNat, first_eq,
    others⟩

section Outcome

variable {cs' : Table} {cp : CalloutT} {i : Fin 256} {isLong : Bool} {short long : ℕ}

theorem Inserted.members (inserted : Inserted table history cs cs' cp i isLong short long)
    {j : Fin 256} {other : CalloutT} (member : other ∈ (cs'.bucket j).first) :
    j = i ∧ other = cp ∨ other ∈ (cs.bucket j).first := by
  by_cases here : j = i
  · subst here
    rw [inserted.first_eq] at member
    rcases mem_cons.1 member with rfl | old
    · exact .inl ⟨rfl, rfl⟩
    · exact .inr old
  · rw [inserted.others j here] at member
    exact .inr member

theorem Inserted.shaped (inserted : Inserted table history cs cs' cp i isLong short long)
    (shaped : Shaped table history cs) :
    Shaped table (.inserted cp.serial cp.id lbolt delta curtime :: history) cs' := by
  have into : bucketOfId cp.id = i := bucketOfId_eq inserted.id_eq
  have grown : Shaped table ([.inserted cp.serial cp.id lbolt delta curtime] ++ history) cs :=
    shaped.mono
  have few := inserted.few
  refine ⟨?_, ?_, ?_⟩
  · intro j
    by_cases here : j = i
    · subst here
      refine ⟨_, _, ?_, inserted.counts'⟩
      rw [bump_add few]
      have le := inserted.le
      simp only [insertions, countP_cons, Obs.into, into, decide_true, if_true] at le ⊢
      omega
    · rw [inserted.others j here]
      exact grown.counts j
  · intro j other member
    rcases inserted.members member with ⟨rfl, rfl⟩ | old
    · refine ⟨isLong, _, ?_, inserted.id_eq⟩
      split <;> omega
    · exact grown.ids j other old
  · intro j other member
    rcases inserted.members member with ⟨rfl, rfl⟩ | old
    · exact ⟨lbolt, delta, curtime, mem_cons_self⟩
    · exact grown.born j other old

theorem Inserted.fresh (inserted : Inserted table history cs cs' cp i isLong short long)
    (fresh : Fresh table cs) : Fresh table cs' := by
  have few := inserted.few
  have below := fresh.below i short long (by omega) (by omega) inserted.counts
  refine ⟨?_, ?_⟩
  · intro j short' long' short_lt long_lt counts other member
    by_cases here : j = i
    · subst here
      -- the counters of the bucket are those after the insertion
      have counts' := inserted.counts'
      have sum := @bump_add short long isLong few
      have short_eq := (idOf_inj short_lt (by omega) (counts.shortId.symm.trans counts'.shortId)).2
      have long_eq := (idOf_inj long_lt (by omega) (counts.longId.symm.trans counts'.longId)).2
      have grown : ∀ kind : Bool, (if kind then long else short) ≤ if kind then long' else
          short' := by
        rw [short_eq, long_eq]
        simp only [bump]
        intro kind
        cases isLong
        · have := Nat.mod_eq_of_lt (show short + 1 < idsPerBucket by omega)
          simp only [Bool.false_eq_true, if_false]
          split <;> omega
        · have := Nat.mod_eq_of_lt (show long + 1 < idsPerBucket by omega)
          simp only [if_true]
          split <;> omega
      rw [inserted.first_eq] at member
      rcases mem_cons.1 member with rfl | old
      · refine ⟨isLong, _, ?_, inserted.id_eq⟩
        rw [short_eq, long_eq, ← bumped_eq few]
        cases isLong <;> exact le_refl _
      · obtain ⟨kind, k, k_le, id_eq⟩ := below other old
        exact ⟨kind, k, k_le.trans (grown kind), id_eq⟩
    · rw [inserted.others j here] at counts member
      exact fresh.below j short' long' short_lt long_lt counts other member
  · intro j
    by_cases here : j = i
    · subst here
      rw [inserted.first_eq, map_cons, nodup_cons]
      refine ⟨?_, fresh.nodup j⟩
      rintro used
      obtain ⟨other, old, same⟩ := List.mem_map.1 used
      obtain ⟨kind, k, k_le, id_eq⟩ := below other old
      rw [same, inserted.id_eq] at id_eq
      have limit : k < idsPerBucket := by
        refine lt_of_le_of_lt k_le ?_
        split <;> omega
      obtain ⟨rfl, k_eq⟩ := idOf_inj (by split <;> omega) limit id_eq
      omega
    · rw [inserted.others j here]
      exact fresh.nodup j

end Outcome

end Insertion

/-! ### Runs -/

/-- The callouts put aside by a checkpoint. -/
def State.savedFirst (s : State) (i : Fin 256) : List CalloutT :=
  (s.saved.map fun old => (old.bucket i).first).getD []

/-- Every callout that was inserted and has not been taken out is in the bucket of its id, in the
live table or among those put aside, and no callout is in two places. -/
structure Kept (history : List Obs) (s : State) : Prop where
  nodup : ∀ i, (((s.cs.bucket i).first ++ s.savedFirst i).map CalloutT.serial).Nodup
  kept : ∀ n id lbolt delta curtime, Obs.inserted n id lbolt delta curtime ∈ history →
    Obs.removed n ∉ history →
      ∃ cp ∈ (s.cs.bucket (bucketOfId id)).first ++ s.savedFirst (bucketOfId id), cp.serial = n
  lt : ∀ n id lbolt delta curtime, Obs.inserted n id lbolt delta curtime ∈ history → n < s.next
  once : ∀ n id lbolt delta curtime id' lbolt' delta' curtime',
    Obs.inserted n id lbolt delta curtime ∈ history →
      Obs.inserted n id' lbolt' delta' curtime' ∈ history → id' = id

theorem Kept.thinned {history : List Obs} {s s' : State} (kept : Kept history s)
    (thinned : Thinned gone s.cs s'.cs) (removed : ∀ n ∈ gone, Obs.removed n ∈ seen)
    (neutral : ∀ o ∈ seen, o.Neutral) (next_eq : s'.next = s.next) (saved_eq : s'.saved = s.saved) :
    Kept (seen ++ history) s' := by
  have earlier : ∀ n id lbolt delta curtime,
      Obs.inserted n id lbolt delta curtime ∈ seen ++ history →
        Obs.inserted n id lbolt delta curtime ∈ history := by
    intro n id lbolt delta curtime member
    rcases mem_append.1 member with new | old
    · exact absurd (neutral _ new) not_false
    · exact old
  have aside : ∀ i, s'.savedFirst i = s.savedFirst i := fun i => by
    simp only [State.savedFirst, saved_eq]
  refine ⟨?_, ?_, ?_, ?_⟩
  · intro i
    have sublist := ((thinned.sublist i).map Prod.fst).append
      (Sublist.refl ((s.savedFirst i).map CalloutT.serial))
    simp only [List.map_map] at sublist
    have nodup := kept.nodup i
    rw [map_append] at nodup ⊢
    rw [aside]
    exact nodup.sublist sublist
  · intro n id lbolt delta curtime inserted alive
    have alive_seen : Obs.removed n ∉ seen := fun new => alive (mem_append_left _ new)
    have alive_old : Obs.removed n ∉ history := fun old => alive (mem_append_right _ old)
    obtain ⟨cp, member, serial_eq⟩ :=
      kept.kept n id lbolt delta curtime (earlier _ _ _ _ _ inserted)
      alive_old
    rcases mem_append.1 member with live | old
    · obtain ⟨cp', member', serial_eq'⟩ := thinned.kept _ cp live fun lost =>
        alive_seen (serial_eq ▸ removed _ lost)
      exact ⟨cp', mem_append_left _ member', serial_eq'.trans serial_eq⟩
    · exact ⟨cp, mem_append_right _ (by rw [aside]; exact old), serial_eq⟩
  · intro n id lbolt delta curtime inserted
    rw [next_eq]
    exact kept.lt n id lbolt delta curtime (earlier _ _ _ _ _ inserted)
  · intro n id lbolt delta curtime id' lbolt' delta' curtime' inserted inserted'
    exact kept.once n id lbolt delta curtime id' lbolt' delta' curtime' (earlier _ _ _ _ _ inserted)
      (earlier _ _ _ _ _ inserted')

/-- The invariant of the runs: the live table and the one put aside are well shaped, and they hold
all the callouts. -/
structure IdInv (table : TableId) (history : List Obs) (s : State) : Prop where
  live : Shaped table history s.cs
  saved : ∀ old ∈ s.saved, Shaped table history old
  kept : Kept history s

theorem IdInv.init (table : TableId) : IdInv table [] (State.init table) := by
  refine ⟨⟨?_, ?_, ?_⟩, ?_, ⟨?_, ?_, ?_, ?_⟩⟩
  · exact fun i => ⟨0, 0, Nat.zero_le _, setup_counts table i⟩
  · exact fun i cp member => absurd member not_mem_nil
  · exact fun i cp member => absurd member not_mem_nil
  · exact fun old member => absurd member (by simp [State.init])
  · exact fun i => nodup_nil
  · exact fun n id lbolt delta curtime inserted => absurd inserted not_mem_nil
  · exact fun n id lbolt delta curtime inserted => absurd inserted not_mem_nil
  · exact fun n id lbolt delta curtime id' lbolt' delta' curtime' inserted =>
      absurd inserted not_mem_nil

theorem IdInv.serial_lt {history : List Obs} {s : State} (inv : IdInv table history s) {i : Fin 256}
    {cp : CalloutT} (member : cp ∈ (s.cs.bucket i).first ++ s.savedFirst i) :
    cp.serial < s.next := by
  rcases mem_append.1 member with live | aside
  · obtain ⟨lbolt, delta, curtime, inserted⟩ := inv.live.born i cp live
    exact inv.kept.lt _ _ _ _ _ inserted
  · cases saved : s.saved with
    | none => simp [State.savedFirst, saved] at aside
    | some old =>
      obtain ⟨lbolt, delta, curtime, inserted⟩ := (inv.saved old saved).born i cp
        (by simpa [State.savedFirst, saved] using aside)
      exact inv.kept.lt _ _ _ _ _ inserted

theorem inserted_cons {history : List Obs} {next n : ℕ} {id id' : BitVec 32}
    {lbolt delta curtime lbolt' delta' curtime' : ℤ}
    (member : Obs.inserted n id lbolt delta curtime ∈
      Obs.inserted next id' lbolt' delta' curtime' :: history) :
    n = next ∧ id = id' ∨ Obs.inserted n id lbolt delta curtime ∈ history := by
  rcases mem_cons.1 member with new | old
  · injection new with n_eq id_eq
    exact .inl ⟨n_eq, id_eq⟩
  · exact .inr old

theorem IdInv.kept_inserted {history : List Obs} {s s' : State} {cp : CalloutT} {i : Fin 256}
    {isLong : Bool} {short long : ℕ} {lbolt delta curtime : ℤ} (inv : IdInv table history s)
    (inserted : Inserted table history s.cs s'.cs cp i isLong short long)
    (serial_eq : cp.serial = s.next) (next_eq : s'.next = s.next + 1)
    (saved_eq : s'.saved = s.saved) :
    Kept (.inserted s.next cp.id lbolt delta curtime :: history) s' := by
  have into : bucketOfId cp.id = i := bucketOfId_eq inserted.id_eq
  have aside : ∀ j, s'.savedFirst j = s.savedFirst j := fun j => by
    simp only [State.savedFirst, saved_eq]
  refine ⟨?_, ?_, ?_, ?_⟩
  · intro j
    rw [aside]
    by_cases here : j = i
    · subst here
      rw [inserted.first_eq, cons_append, map_cons, nodup_cons]
      refine ⟨?_, inv.kept.nodup _⟩
      intro used
      obtain ⟨other, member, same⟩ := List.mem_map.1 used
      have := inv.serial_lt member
      omega
    · rw [inserted.others j here]
      exact inv.kept.nodup j
  · intro n id lbolt' delta' curtime' member alive
    have alive_old : Obs.removed n ∉ history := fun old => alive (mem_cons_of_mem _ old)
    rcases inserted_cons member with ⟨rfl, rfl⟩ | old
    · refine ⟨cp, mem_append_left _ ?_, serial_eq⟩
      rw [into, inserted.first_eq]
      exact mem_cons_self
    · obtain ⟨other, other_mem, other_eq⟩ := inv.kept.kept n id lbolt' delta' curtime' old alive_old
      refine ⟨other, ?_, other_eq⟩
      rw [aside]
      rcases mem_append.1 other_mem with live | saved
      · refine mem_append_left _ ?_
        by_cases here : bucketOfId id = i
        · rw [here] at live ⊢
          rw [inserted.first_eq]
          exact mem_cons_of_mem _ live
        · rw [inserted.others _ here]
          exact live
      · exact mem_append_right _ saved
  · intro n id lbolt' delta' curtime' member
    rw [next_eq]
    rcases inserted_cons member with ⟨rfl, rfl⟩ | old
    · exact Nat.lt_succ_self _
    · exact (inv.kept.lt n id lbolt' delta' curtime' old).trans (Nat.lt_succ_self _)
  · intro n id lbolt' delta' curtime' id' lbolt'' delta'' curtime'' member member'
    rcases inserted_cons member with ⟨rfl, rfl⟩ | old
    · rcases inserted_cons member' with ⟨-, rfl⟩ | old'
      · rfl
      · have := inv.kept.lt _ _ _ _ _ old'
        omega
    · rcases inserted_cons member' with ⟨rfl, -⟩ | old'
      · have := inv.kept.lt _ _ _ _ _ old
        omega
      · exact inv.kept.once n id lbolt' delta' curtime' id' lbolt'' delta'' curtime'' old old'

theorem IdInv.timeout {history : List Obs} {s s' : State} {delta : ℤ} {driverLock : Bool}
    (inv : IdInv table history s) (next : s.step (.timeout delta driverLock) = some (seen, s'))
    (few : ∀ i, insertions i (seen ++ history) < idsPerBucket) :
    IdInv table (seen ++ history) s' ∧ (Fresh table s.cs → Fresh table s'.cs) ∧
      s'.saved = s.saved := by
  obtain ⟨runtime, -, result⟩ := map_eq_some_iff.1 next
  obtain ⟨rfl, rfl⟩ := Prod.mk.inj result
  rw [singleton_append] at few ⊢
  obtain ⟨cp, isLong, short, long, serial_eq, id_eq, inserted⟩ := inv.live.inserted few
  have shaped := @Inserted.shaped table history s.cs s.lbolt delta s.cs.curtime _ cp _ isLong short
    long inserted inv.live
  rw [serial_eq, id_eq] at shaped
  have kept := @IdInv.kept_inserted table history s { s with
      cs := (s.cs.insert s.next runtime driverLock).2
      next := s.next + 1 } cp _ isLong short long s.lbolt delta s.cs.curtime inv inserted serial_eq
    rfl rfl
  rw [id_eq] at kept
  refine ⟨⟨shaped, ?_, kept⟩, inserted.fresh, rfl⟩
  intro old saved
  rw [← singleton_append]
  exact (inv.saved old saved).mono

/-- The checkpoint puts the callouts of the table aside. -/
theorem IdInv.save {history : List Obs} {s s' : State} (inv : IdInv table history s)
    (next : s.step .save = some (seen, s')) :
    IdInv table (seen ++ history) s' ∧ Fresh table s'.cs ∧ s'.saved = some s.cs := by
  simp only [State.step] at next
  split at next
  · next none_saved =>
      obtain ⟨rfl, rfl⟩ := Prod.mk.inj (some.inj next)
      have grown : Shaped table ([.saved] ++ history) s.cs := inv.live.mono
      refine ⟨⟨⟨?_, ?_, ?_⟩, ?_, ⟨?_, ?_, ?_, ?_⟩⟩, ⟨?_, ?_⟩, rfl⟩
      · intro i
        obtain ⟨short, long, le, counts⟩ := grown.counts i
        exact ⟨short, long, le, counts.shortId, counts.longId⟩
      · exact fun i cp member => absurd member not_mem_nil
      · exact fun i cp member => absurd member not_mem_nil
      · rintro old ⟨⟩
        exact grown
      · intro i
        have nodup := inv.kept.nodup i
        simpa [State.savedFirst, none_saved, Table.save] using nodup
      · intro n id lbolt delta curtime inserted alive
        have found := inv.kept.kept n id lbolt delta curtime (by simpa using inserted)
          (by simpa using alive)
        simpa [State.savedFirst, none_saved, Table.save] using found
      · simpa using inv.kept.lt
      · simpa using inv.kept.once
      · exact fun i short long _ _ _ cp member => absurd member not_mem_nil
      · exact fun i => nodup_nil
  · exact absurd next (by simp)

/-- Resume brings the callouts put aside together with those inserted since. -/
theorem IdInv.restore {history : List Obs} {s s' : State} (inv : IdInv table history s)
    (next : s.step .restore = some (seen, s')) :
    ∃ old, s.saved = some old ∧ IdInv table (seen ++ history) s' ∧ s'.cs = s.cs.restore old ∧
      seen = [.restored (s.cs.callouts.map CalloutT.serial)] ∧ s'.saved = none := by
  obtain ⟨old, saved, result⟩ := map_eq_some_iff.1 next
  obtain ⟨rfl, rfl⟩ := Prod.mk.inj result
  have live : Shaped table ([.restored (s.cs.callouts.map CalloutT.serial)] ++ history) s.cs :=
    inv.live.mono
  have aside : Shaped table ([.restored (s.cs.callouts.map CalloutT.serial)] ++ history) old :=
    (inv.saved old saved).mono
  have together : ∀ i cp, cp ∈ ((s.cs.restore old).bucket i).first →
      cp ∈ (s.cs.bucket i).first ∨ cp ∈ (old.bucket i).first := by
    intro i cp member
    simpa [Table.restore] using member
  refine ⟨old, saved, ⟨⟨?_, ?_, ?_⟩, ?_, ⟨?_, ?_, ?_, ?_⟩⟩, rfl, rfl, rfl⟩
  · intro i
    obtain ⟨short, long, le, counts⟩ := aside.counts i
    exact ⟨short, long, le, counts.shortId, counts.longId⟩
  · intro i cp member
    rcases together i cp member with new | old
    · exact live.ids i cp new
    · exact aside.ids i cp old
  · intro i cp member
    rcases together i cp member with new | old
    · exact live.born i cp new
    · exact aside.born i cp old
  · exact fun old member => absurd member (by simp)
  · intro i
    have nodup := inv.kept.nodup i
    have perm : ((s.cs.restore old).bucket i).first.Perm
        ((s.cs.bucket i).first ++ (old.bucket i).first) :=
      (reverse_perm _).append_right _
    have nodup' := (perm.map CalloutT.serial).nodup_iff.2 (by
      simpa [State.savedFirst, saved] using nodup)
    simpa [State.savedFirst] using nodup'
  · intro n id lbolt delta curtime inserted alive
    obtain ⟨cp, member, serial_eq⟩ := inv.kept.kept n id lbolt delta curtime
      (by simpa using inserted) (by simpa using alive)
    refine ⟨cp, ?_, serial_eq⟩
    simpa [State.savedFirst, saved, Table.restore] using member
  · simpa using inv.kept.lt
  · simpa using inv.kept.once

/-- Every restored table had no callout left that was inserted since it was saved. -/
def Settled (history : List Obs) : Prop := ∀ since, Obs.restored since ∈ history → since = []

/-- The live table and the one put aside have counters past their ids. -/
def FreshInv (table : TableId) (s : State) : Prop :=
  Fresh table s.cs ∧ ∀ old ∈ s.saved, Fresh table old

theorem callouts_eq_nil (empty : cs.callouts = []) (i : Fin 256) : (cs.bucket i).first = [] :=
  flatMap_eq_nil_iff.1 empty i (mem_finRange i)

theorem IdInv.step {history : List Obs} {s s' : State} {event : Event} (inv : IdInv table history s)
    (next : s.step event = some (seen, s'))
    (few : ∀ i, insertions i (seen ++ history) < idsPerBucket) :
    IdInv table (seen ++ history) s' ∧
      (Settled (seen ++ history) → FreshInv table s → FreshInv table s') := by
  by_cases thins : event.Thins
  · obtain ⟨gone, thinned, removed, neutral, next_eq, saved_eq⟩ := step_thinned next thins
    refine ⟨⟨(inv.live.thinned thinned).mono, ?_, ?_⟩, ?_⟩
    · rw [saved_eq]
      exact fun old saved => (inv.saved old saved).mono
    · exact inv.kept.thinned thinned removed neutral next_eq saved_eq
    · rintro - ⟨live, aside⟩
      refine ⟨live.thinned thinned, ?_⟩
      rw [saved_eq]
      exact aside
  · cases event with
    | timeout delta driverLock =>
      obtain ⟨inv', fresh, saved_eq⟩ := inv.timeout next few
      refine ⟨inv', ?_⟩
      rintro - ⟨live, aside⟩
      refine ⟨fresh live, ?_⟩
      rw [saved_eq]
      exact aside
    | save =>
      obtain ⟨inv', fresh, saved_eq⟩ := inv.save next
      refine ⟨inv', ?_⟩
      rintro - ⟨live, -⟩
      refine ⟨fresh, ?_⟩
      rw [saved_eq]
      rintro old ⟨⟩
      exact live
    | restore =>
      obtain ⟨old, saved, inv', cs_eq, rfl, none_saved⟩ := inv.restore next
      refine ⟨inv', ?_⟩
      rintro settled ⟨-, aside⟩
      have left : s.cs.callouts = [] :=
        map_eq_nil_iff.1 (settled _ (mem_append_left _ mem_cons_self))
      have bucket_eq : ∀ i, s'.cs.bucket i = old.bucket i := by
        intro i
        rw [cs_eq]
        simp [Table.restore, callouts_eq_nil left i]
      have fresh := aside old saved
      refine ⟨⟨?_, ?_⟩, ?_⟩
      · intro i
        rw [bucket_eq i]
        exact fresh.below i
      · intro i
        rw [bucket_eq i]
        exact fresh.nodup i
      · rw [none_saved]
        exact fun old member => absurd member (by simp)
    | untimeout id => exact absurd trivial thins
    | tick => exact absurd trivial thins
    | schedule => exact absurd trivial thins
    | execute thread => exact absurd trivial thins
    | done thread => exact absurd trivial thins

theorem Run.idInv {meets : State → Event → Prop} {history : List Obs} {s : State}
    (run : Run table meets history s) (few : ∀ i, insertions i history < idsPerBucket) :
    IdInv table history s ∧ (Settled history → FreshInv table s) := by
  induction run with
  | init =>
    refine ⟨IdInv.init table, fun _ => ⟨⟨?_, ?_⟩, ?_⟩⟩
    · exact fun i short long _ _ _ cp member => absurd member not_mem_nil
    · exact fun i => nodup_nil
    · exact fun old member => absurd member (by simp [State.init])
  | @step history seen s s' run event meet next ih =>
    have few_before : ∀ i, insertions i history < idsPerBucket := fun i =>
      (insertions_le i seen history).trans_lt (few i)
    obtain ⟨inv, fresh⟩ := ih few_before
    obtain ⟨inv', fresh'⟩ := inv.step next few
    refine ⟨inv', fun settled => fresh' settled (fresh ?_)⟩
    exact fun since restored => settled since (mem_append_right _ restored)

/-! ### The ids of a table -/

/-- No two callouts of a table have the same id. -/
def Distinct (cs : Table) : Prop := (cs.callouts.map CalloutT.id).Nodup

/-- Every callout is in the bucket of its id. -/
def Placed (cs : Table) : Prop := ∀ i, ∀ cp ∈ (cs.bucket i).first, bucketOfId cp.id = i

/-- Outside a checkpoint, every callout that was inserted and has not been taken out since is in the
bucket of its id, and is in the table once. -/
def Whole (history : List Obs) (s : State) : Prop :=
  s.saved = none → ∀ n id lbolt delta curtime, Obs.inserted n id lbolt delta curtime ∈ history →
    Obs.removed n ∉ history →
      (∃ cp ∈ (s.cs.bucket (bucketOfId id)).first, cp.serial = n ∧ cp.id = id) ∧
        s.cs.callouts.countP (fun cp => cp.serial = n) = 1

/-- No handler is running when the table is saved. -/
def QuietSave (s : State) (event : Event) : Prop :=
  event = .save → ∀ thread, s.running thread = none

theorem callouts_map_nodup {α : Type} (f : CalloutT → α)
    (each : ∀ i, ((cs.bucket i).first.map f).Nodup)
    (apart : ∀ i j cp cp', cp ∈ (cs.bucket i).first → cp' ∈ (cs.bucket j).first → f cp = f cp' →
      i = j) :
    (cs.callouts.map f).Nodup := by
  rw [Table.callouts, map_flatMap, nodup_flatMap]
  refine ⟨fun i _ => each i, (nodup_finRange 256).imp ?_⟩
  intro i j ne value here there
  obtain ⟨cp, member, rfl⟩ := List.mem_map.1 here
  obtain ⟨cp', member', same⟩ := List.mem_map.1 there
  exact ne (apart i j cp cp' member member' same.symm)

/-- In every run of insertions, deletions, handlers, checkpoints and resumes in which no bucket runs
out of ids, the callouts are in the buckets of their ids and none is lost or doubled.  Their ids are
distinct when every resume found no callout inserted since the checkpoint. -/
theorem callouts_identified {table : TableId} {history : List Obs} {s : State}
    (run : Run table QuietSave history s) (few : ∀ i, insertions i history < idsPerBucket) :
    Placed s.cs ∧ Whole history s ∧ (Settled history → Distinct s.cs) := by
  obtain ⟨inv, fresh⟩ := run.idInv few
  have placed : Placed s.cs := fun i cp member => inv.live.placed member
  refine ⟨placed, ?_, ?_⟩
  · intro none_saved n id lbolt delta curtime inserted alive
    obtain ⟨cp, member, serial_eq⟩ := inv.kept.kept n id lbolt delta curtime inserted alive
    have live : cp ∈ (s.cs.bucket (bucketOfId id)).first := by
      simpa [State.savedFirst, none_saved] using member
    obtain ⟨lbolt', delta', curtime', inserted'⟩ := inv.live.born _ cp live
    rw [serial_eq] at inserted'
    have id_eq := inv.kept.once n id lbolt delta curtime _ lbolt' delta' curtime' inserted inserted'
    refine ⟨⟨cp, live, serial_eq, id_eq⟩, ?_⟩
    have nodup : (s.cs.callouts.map CalloutT.serial).Nodup := by
      refine callouts_map_nodup _ ?_ ?_
      · intro i
        have nodup := inv.kept.nodup i
        simpa [State.savedFirst, none_saved] using nodup
      · intro i j a b a_mem b_mem same
        obtain ⟨_, _, _, a_born⟩ := inv.live.born i a a_mem
        obtain ⟨_, _, _, b_born⟩ := inv.live.born j b b_mem
        rw [← same] at b_born
        have same_id := inv.kept.once _ _ _ _ _ _ _ _ _ a_born b_born
        rw [← placed i a a_mem, ← placed j b b_mem, same_id]
    have there : n ∈ s.cs.callouts.map CalloutT.serial := by
      rw [← serial_eq]
      exact List.mem_map_of_mem (mem_flatMap.2 ⟨_, mem_finRange _, live⟩)
    have count := count_eq_one_of_mem nodup there
    rw [List.count, countP_map] at count
    rw [← count]
    exact countP_congr fun other _ => by simp
  · intro settled
    obtain ⟨live, -⟩ := fresh settled
    refine callouts_map_nodup _ live.nodup ?_
    intro i j a b a_mem b_mem same
    rw [← placed i a a_mem, ← placed j b b_mem, same]

theorem insertions_lt {history : List Obs} (short : history.length < idsPerBucket) (i : Fin 256) :
    insertions i history < idsPerBucket :=
  countP_le_length.trans_lt short

theorem save_callouts (cs : Table) : cs.save.callouts = [] := flatMap_eq_nil_iff.2 fun _ _ => rfl

theorem callouts_identified_resume : ∃ history s, Run .normal QuietSave history s ∧
    Settled history ∧ (s.cs.bucket 1).first.length = 1 ∧
      (Placed s.cs ∧ Whole history s ∧ (Settled history → Distinct s.cs)) := by
  have first : Run .normal QuietSave _ _ :=
    Run.step Run.init (.timeout 1 false) (by simp [QuietSave])
    rfl
  have second := Run.step first .save (fun _ _ => rfl) rfl
  have third := Run.step second .restore (by simp [QuietSave]) rfl
  refine ⟨_, _, third, ?_, by decide, callouts_identified third (insertions_lt (by decide))⟩
  intro since restored
  rw [save_callouts] at restored
  simpa using restored

theorem Distinct.bucket (distinct : Distinct cs) (i : Fin 256) :
    ((cs.bucket i).first.map CalloutT.id).Nodup := by
  rw [Distinct, Table.callouts, map_flatMap, nodup_flatMap] at distinct
  exact distinct.1 i (mem_finRange i)

/-- The ids are not distinct after a resume that found a callout: its id is given out again. -/
theorem restored_ids_not_distinct : ∃ history s, Run .normal QuietSave history s ∧
    (∀ i, insertions i history < idsPerBucket) ∧
      ¬ (Placed s.cs ∧ Whole history s ∧ Distinct s.cs) := by
  have first : Run .normal QuietSave _ _ := Run.step Run.init .save (fun _ _ => rfl) rfl
  have second := Run.step first (.timeout 1 false) (by simp [QuietSave]) rfl
  have third := Run.step second .restore (by simp [QuietSave]) rfl
  have fourth := Run.step third (.timeout 1 false) (by simp [QuietSave]) rfl
  refine ⟨_, _, fourth, insertions_lt (by decide), ?_⟩
  rintro ⟨-, -, distinct⟩
  exact absurd (distinct.bucket 1) (by decide)

end Sol25.Callout
