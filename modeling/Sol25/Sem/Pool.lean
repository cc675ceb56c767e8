import Sol25.Sem.Undo

/-!
# The pool of undo structures

Every structure is on the free chain, or belongs to one process; it is on the chain `semunp` exactly
while it has entries.  `semaoe` and `semunrm` keep this, and their effect on what the processes have
recorded is stated once, in terms of `record`.
-/

namespace Sol25.Sem

open Function List Option BitVec

/-- The undo entries of process `p`. -/
def Pool.table (pool : Pool) (p : Nat) : List Undo :=
  match pool.slot p with
  | none => []
  | some up => pool.ents up

/-- What process `p` has recorded for semaphore `num` of `id`. -/
def record (pool : Pool) (p : Nat) (id : Int) (num : Nat) : Int := aoeOf (pool.table p) id num

/-- The consistency of the structures, their owners and the two chains. -/
structure PoolInv (tuning : Tuning) (pool : Pool) : Prop where
  valid : ∀ up, Valid tuning (pool.ents up)
  inject : ∀ p q up, pool.slot p = some up → pool.slot q = some up → p = q
  unp_nodup : pool.semunp.Nodup
  fup_nodup : pool.semfup.Nodup
  mem_unp : ∀ up, up ∈ pool.semunp ↔ pool.ents up ≠ []
  mem_fup : ∀ up, up ∈ pool.semfup ↔ up < tuning.semmnu ∧ ∀ p, pool.slot p ≠ some up
  owned : ∀ p up, pool.slot p = some up → up < tuning.semmnu
  free_empty : ∀ up, (∀ p, pool.slot p ≠ some up) → pool.ents up = []

/-- The pool as `_init` links it. -/
def Pool.initial (tuning : Tuning) : Pool :=
  ⟨fun _ => none, fun _ => [], [], List.range tuning.semmnu⟩

theorem Pool.initial_inv (tuning : Tuning) : PoolInv tuning (Pool.initial tuning) where
  valid _ := Valid.nil tuning
  inject := by simp [Pool.initial]
  unp_nodup := .nil
  fup_nodup := nodup_range
  mem_unp := by simp [Pool.initial]
  mem_fup := by simp [Pool.initial]
  owned := by simp [Pool.initial]
  free_empty := by simp [Pool.initial]

variable {entries : List Undo} {up : Nat} {pool : Pool} {tuning : Tuning}

theorem Pool.table_of_slot {p : Nat} (slot : pool.slot p = some up) :
    pool.table p = pool.ents up := by
  simp [Pool.table, slot]

theorem PoolInv.table_valid (inv : PoolInv tuning pool) (p : Nat) :
    Valid tuning (pool.table p) := by
  cases slot : pool.slot p with
  | none =>
    rw [Pool.table, slot]
    exact Valid.nil tuning
  | some up =>
    rw [Pool.table_of_slot slot]
    exact inv.valid up

theorem PoolInv.short_record (inv : PoolInv tuning pool) (p : Nat) (id : Int) (num : Nat) :
    short (record pool p id num) = record pool p id num :=
  (inv.table_valid p).short_aoeOf id num

theorem PoolInv.record_bounds (inv : PoolInv tuning pool) (p : Nat) (id : Int) (num : Nat) :
    -(tuning.semaem : Int) ≤ record pool p id num ∧ record pool p id num ≤ tuning.semaem :=
  (inv.table_valid p).aoeOf_bounds id num

/-! ## Claiming and storing -/

section Claim

variable {tuning : Tuning} {pool claimed : Pool} {p up : Nat}

/-- Taking a structure keeps the pool consistent and every table as it was. -/
theorem PoolInv.claim (inv : PoolInv tuning pool) (result : pool.claim p = some (up, claimed)) :
    PoolInv tuning claimed ∧ claimed.slot p = some up ∧
      (∀ q, pool.slot q ≠ none → claimed.slot q = pool.slot q) ∧
      ∀ q, claimed.table q = pool.table q := by
  unfold Pool.claim at result
  cases slot : pool.slot p with
  | some held =>
    simp only [slot, some.injEq, Prod.mk.injEq] at result
    obtain ⟨rfl, rfl⟩ := result
    exact ⟨inv, slot, fun _ _ => rfl, fun _ => rfl⟩
  | none =>
    rw [slot] at result
    cases chain : pool.semfup with
    | nil => simp [chain] at result
    | cons head rest =>
      simp only [chain, some.injEq, Prod.mk.injEq] at result
      obtain ⟨rfl, rfl⟩ := result
      have head_free := (inv.mem_fup head).mp (by simp [chain])
      have head_empty := inv.free_empty head head_free.2
      have rest_nodup := inv.fup_nodup
      rw [chain, nodup_cons] at rest_nodup
      have slot_ne : ∀ q, q ≠ p → update pool.slot p (some head) q = pool.slot q :=
        fun q differs => update_of_ne differs _ _
      refine ⟨?_, by simp, ?_, ?_⟩
      · refine ⟨inv.valid, ?_, inv.unp_nodup, rest_nodup.2, inv.mem_unp, ?_, ?_, ?_⟩
        · intro q r up first second
          by_cases first_p : q = p <;> by_cases second_p : r = p
          · rw [first_p, second_p]
          · subst first_p
            simp only [update_self, some.injEq] at first
            simp only [slot_ne r second_p] at second
            exact absurd (first ▸ second) (head_free.2 r)
          · subst second_p
            simp only [update_self, some.injEq] at second
            simp only [slot_ne q first_p] at first
            exact absurd (second ▸ first) (head_free.2 q)
          · simp only [slot_ne q first_p] at first
            simp only [slot_ne r second_p] at second
            exact inv.inject q r up first second
        · intro up
          have member := inv.mem_fup up
          rw [chain, mem_cons] at member
          constructor
          · intro in_rest
            have free := member.mp (.inr in_rest)
            refine ⟨free.1, fun q => ?_⟩
            by_cases q_eq : q = p
            · subst q_eq
              simp only [update_self, ne_eq, some.injEq]
              rintro rfl
              exact rest_nodup.1 in_rest
            · simp only [slot_ne q q_eq]
              exact free.2 q
          · rintro ⟨small, unowned⟩
            have distinct : up ≠ head := by
              rintro rfl
              exact unowned p (by simp)
            refine (member.mpr ⟨small, fun q owns => ?_⟩).resolve_left distinct
            by_cases q_eq : q = p
            · rw [q_eq, slot] at owns
              cases owns
            · exact unowned q (by simp only [slot_ne q q_eq]; exact owns)
        · intro q up owns
          by_cases q_eq : q = p
          · subst q_eq
            simp only [update_self, some.injEq] at owns
            exact owns ▸ head_free.1
          · simp only [slot_ne q q_eq] at owns
            exact inv.owned q up owns
        · intro up unowned
          refine inv.free_empty up fun q owns => ?_
          by_cases q_eq : q = p
          · rw [q_eq, slot] at owns
            cases owns
          · exact unowned q (by simp only [slot_ne q q_eq]; exact owns)
      · intro q held
        refine slot_ne q ?_
        rintro rfl
        exact held slot
      · intro q
        by_cases q_eq : q = p
        · subst q_eq
          simp [Pool.table, slot, head_empty]
        · simp [Pool.table, slot_ne q q_eq]

/-- Storing a well-formed table for its owner keeps the pool consistent. -/
theorem PoolInv.store (inv : PoolInv tuning pool) (slot : pool.slot p = some up)
    (valid : Valid tuning entries) (grows : pool.ents up = [] → entries ≠ []) :
    PoolInv tuning (pool.store up entries) where
  valid other := by
    by_cases same : other = up
    · subst same
      simpa [Pool.store] using valid
    · simpa [Pool.store, update_of_ne same] using inv.valid other
  inject := inv.inject
  unp_nodup := by
    simp only [Pool.store]
    split
    · rename_i empty
      refine nodup_cons.mpr ⟨fun member => ?_, inv.unp_nodup⟩
      exact (inv.mem_unp up).mp member empty
    · split
      · exact inv.unp_nodup.erase up
      · exact inv.unp_nodup
  fup_nodup := inv.fup_nodup
  mem_unp other := by
    have old := inv.mem_unp other
    simp only [Pool.store]
    by_cases same : other = up
    · subst same
      rw [update_self]
      split
      · rename_i empty
        simpa using grows empty
      · rename_i occupied
        split
        · rename_i emptied
          simp [emptied, inv.unp_nodup.mem_erase_iff]
        · rename_i kept
          simpa [kept] using old.mpr occupied
    · rw [update_of_ne same]
      split
      · simpa [same] using old
      · split
        · rw [inv.unp_nodup.mem_erase_iff, old]
          simp [same]
        · exact old
  mem_fup := inv.mem_fup
  owned := inv.owned
  free_empty other unowned := by
    have distinct : other ≠ up := by
      rintro rfl
      exact unowned p slot
    simpa [Pool.store, update_of_ne distinct] using inv.free_empty other unowned

end Claim

/-! ## The effect of `semaoe` -/

section Semaoe

variable {tuning : Tuning} {pool : Pool} {p : Nat} {val id : Int} {num : Nat}

theorem Adjusted.ne_nil {count : Nat} {after : List Undo}
    (adjusted : Adjusted tuning val id num count [] after) : after ≠ [] := by
  generalize empty : ([] : List Undo) = entries at adjusted
  cases adjusted with
  | insert front back => simp
  | change front entry back => simp at empty
  | delete front entry back => simp at empty

/-- The cases of `semaoe`: nothing to record, an error that leaves the tables alone, or an
adjusted table. -/
theorem semaoe_cases (tuning : Tuning) (pool : Pool) (p : Nat) (val id : Int) (num : Nat) :
    (val = 0 ∧ semaoe tuning pool p val id num = (none, pool)) ∨
    (∃ errno, semaoe tuning pool p val id num = (some errno, pool)) ∨
    (∃ up claimed errno, pool.claim p = some (up, claimed) ∧
      semaoe tuning pool p val id num = (some errno, claimed)) ∨
    ∃ up claimed after, val ≠ 0 ∧ -(tuning.semaem : Int) ≤ val ∧ val ≤ tuning.semaem ∧
      pool.claim p = some (up, claimed) ∧
      adjust tuning val id num (claimed.ents up).length (claimed.ents up) = .ok after ∧
      semaoe tuning pool p val id num = (none, claimed.store up after) := by
  unfold semaoe
  split
  · rename_i zero
    exact .inl ⟨zero, rfl⟩
  rename_i nonzero
  split
  · exact .inr (.inl ⟨_, rfl⟩)
  rename_i range
  split
  · exact .inr (.inl ⟨_, rfl⟩)
  rename_i up claimed found
  simp only
  split
  · exact .inr (.inr (.inl ⟨up, claimed, _, found, rfl⟩))
  · rename_i after result
    exact .inr (.inr (.inr ⟨up, claimed, after, nonzero, by omega, by omega, found, result, rfl⟩))

/-- Storing a table changes that of its owner only. -/
theorem Pool.table_store (inv : PoolInv tuning pool) (slot : pool.slot p = some up)
    (entries : List Undo) (q : Nat) :
    (pool.store up entries).table q = if q = p then entries else pool.table q := by
  have slots : (pool.store up entries).slot = pool.slot := rfl
  split
  · rename_i owner
    subst owner
    rw [Pool.table_of_slot (slots ▸ slot)]
    simp [Pool.store]
  · rename_i other
    cases held : pool.slot q with
    | none => simp [Pool.table, slots, held]
    | some up' =>
      have distinct : up' ≠ up := by
        rintro rfl
        exact other (inv.inject q p up' held slot)
      rw [Pool.table_of_slot (slots ▸ held), Pool.table_of_slot held]
      simp [Pool.store, update_of_ne distinct]

/-- `semaoe` keeps the pool consistent, and owners keep their structures.  It adjusts the table of
its process, or leaves all tables alone. -/
theorem semaoe_tables (inv : PoolInv tuning pool) (isShort : short val = val) :
    PoolInv tuning (semaoe tuning pool p val id num).2 ∧
      (∀ q, pool.slot q ≠ none → (semaoe tuning pool p val id num).2.slot q = pool.slot q) ∧
      ((val = 0 ∨ (semaoe tuning pool p val id num).1 ≠ none) ∧
          (∀ q, (semaoe tuning pool p val id num).2.table q = pool.table q) ∨
        (semaoe tuning pool p val id num).1 = none ∧
          (semaoe tuning pool p val id num).2.slot p ≠ none ∧
          -(tuning.semaem : Int) ≤ val ∧ val ≤ tuning.semaem ∧
          ∃ after, Adjusted tuning val id num (pool.table p).length (pool.table p) after ∧
            ∀ q, (semaoe tuning pool p val id num).2.table q =
              if q = p then after else pool.table q) := by
  rcases semaoe_cases tuning pool p val id num with ⟨zero, result⟩ | ⟨errno, result⟩ |
    ⟨up, claimed, errno, found, result⟩ |
    ⟨up, claimed, after, nonzero, low, high, found, table, result⟩
  · rw [result]
    exact ⟨inv, fun _ _ => rfl, .inl ⟨.inl zero, fun _ => rfl⟩⟩
  · rw [result]
    exact ⟨inv, fun _ _ => rfl, .inl ⟨.inr (by simp), fun _ => rfl⟩⟩
  · rw [result]
    obtain ⟨claimed_inv, -, slots_kept, tables_kept⟩ := inv.claim found
    exact ⟨claimed_inv, slots_kept, .inl ⟨.inr (by simp), tables_kept⟩⟩
  · rw [result]
    obtain ⟨claimed_inv, slot, slots_kept, tables_kept⟩ := inv.claim found
    have table_valid := claimed_inv.valid up
    have adjusted := adjusted_of_adjust table_valid.sorted table
    have after_valid : Valid tuning after := adjusted.valid table_valid nonzero low high isShort
    have grows : claimed.ents up = [] → after ≠ [] := by
      intro empty
      rw [empty] at adjusted
      exact adjusted.ne_nil
    have slot' : (claimed.store up after).slot p = some up := slot
    refine ⟨claimed_inv.store slot after_valid grows, slots_kept,
      .inr ⟨rfl, by simp [slot'], low, high, after, ?_, fun q => ?_⟩⟩
    · rwa [← tables_kept, Pool.table_of_slot slot]
    · rw [Pool.table_store claimed_inv slot, tables_kept]

/-- `semaoe` keeps the pool consistent and subtracts `val` from one record, or changes no record
and reports an error. -/
theorem semaoe_spec (inv : PoolInv tuning pool) (isShort : short val = val) :
    PoolInv tuning (semaoe tuning pool p val id num).2 ∧
      (∀ q, pool.slot q ≠ none → (semaoe tuning pool p val id num).2.slot q = pool.slot q) ∧
      ∀ q id' num', record (semaoe tuning pool p val id num).2 q id' num' =
        if (semaoe tuning pool p val id num).1 = none ∧ q = p ∧ id' = id ∧ num' = num then
          short (record pool p id num - val)
        else record pool q id' num' := by
  obtain ⟨inv', slots, ⟨failed, tables⟩ | ⟨done, -, -, -, after, adjusted, tables⟩⟩ :=
    @semaoe_tables tuning pool p val id num inv isShort
  · refine ⟨inv', slots, fun q id' num' => ?_⟩
    simp only [record, tables]
    split
    · rename_i here
      obtain ⟨done, rfl, rfl, rfl⟩ := here
      have zero := failed.resolve_right (not_not_intro done)
      rw [zero, Int.sub_zero]
      exact (inv.short_record q id' num').symm
    · rfl
  · refine ⟨inv', slots, fun q id' num' => ?_⟩
    simp only [record, tables, done, true_and]
    by_cases owner : q = p
    · subst owner
      simp only [if_true, true_and]
      split
      · rename_i here
        obtain ⟨rfl, rfl⟩ := here
        exact adjusted.aoeOf_self (inv.table_valid q).sorted
      · rename_i elsewhere
        exact adjusted.aoeOf_other elsewhere
    · simp [owner]

/-- A recorded operation is within the tunable range, and its process holds a structure. -/
theorem semaoe_success (inv : PoolInv tuning pool) (isShort : short val = val)
    (done : (semaoe tuning pool p val id num).1 = none) (nonzero : val ≠ 0) :
    (semaoe tuning pool p val id num).2.slot p ≠ none ∧
      -(tuning.semaem : Int) ≤ val ∧ val ≤ tuning.semaem := by
  obtain ⟨-, -, ⟨failed, -⟩ | ⟨-, slot, low, high, -⟩⟩ :=
    @semaoe_tables tuning pool p val id num inv isShort
  · exact absurd done (failed.resolve_left nonzero)
  · exact ⟨slot, low, high⟩

/-- When `semaoe` of a process that holds a structure succeeds. -/
theorem semaoe_eq_none (slot : pool.slot p = some up) (valid : Valid tuning (pool.ents up))
    (low : -(tuning.semaem : Int) ≤ val) (high : val ≤ tuning.semaem)
    (range : -(tuning.semaem : Int) ≤ short (aoeOf (pool.ents up) id num - val) ∧
      short (aoeOf (pool.ents up) id num - val) ≤ tuning.semaem)
    (room : (∃ entry ∈ pool.ents up, entry.Matches id num) ∨
      (pool.ents up).length < tuning.semume) :
    (semaoe tuning pool p val id num).1 = none := by
  unfold semaoe
  by_cases zero : val = 0
  · rw [if_pos zero]
  rw [if_neg zero, if_neg (by omega)]
  have claimed : pool.claim p = some (up, pool) := by simp [Pool.claim, slot]
  simp only [claimed]
  cases result : adjust tuning val id num (pool.ents up).length (pool.ents up) with
  | ok after => rfl
  | error errno =>
    exfalso
    rcases adjust_eq_error result with ⟨-, full, absent⟩ | ⟨-, entry, member, found, outside⟩
    · rcases room with ⟨entry, member, found⟩ | room
      · exact absent valid.sorted entry member found
      · omega
    · rw [valid.aoeOf_eq member found] at range
      omega

/-- The call that undoes a successful one restores every table, on any pool with the same
tables. -/
theorem semaoe_undo (inv : PoolInv tuning pool) (isShort : short val = val)
    (done : (semaoe tuning pool p val id num).1 = none) {pool' : Pool}
    (inv' : PoolInv tuning pool') (slot : val ≠ 0 → pool'.slot p ≠ none)
    (same : ∀ q, pool'.table q = (semaoe tuning pool p val id num).2.table q) (q : Nat) :
    (semaoe tuning pool' p (short (-val)) id num).2.table q = pool.table q := by
  obtain ⟨-, -, ⟨failed, tables⟩ | ⟨-, -, low, high, after, adjusted, tables⟩⟩ :=
    @semaoe_tables tuning pool p val id num inv isShort
  · have zero := failed.resolve_right (not_not_intro done)
    subst zero
    simp [short, semaoe, same]
  · by_cases zero : val = 0
    · subst zero
      simp [short, semaoe] at same ⊢
      exact same q
    obtain ⟨up, slot⟩ := ne_none_iff_exists'.mp (slot zero)
    have claimed : pool'.claim p = some (up, pool') := by simp [Pool.claim, slot]
    have table : pool'.ents up = after := by
      rw [← Pool.table_of_slot slot, same, tables, if_pos rfl]
    have restored : adjust tuning (short (-val)) id num (pool'.ents up).length (pool'.ents up) =
        .ok (pool.table p) := by
      rw [table]
      exact adjusted.inverse (inv.table_valid p)
    have nonzero : short (-val) ≠ 0 := by
      simp only [short, Int.bmod_def] at isShort ⊢
      omega
    have range : ¬ ((tuning.semaem : Int) < short (-val) ∨ short (-val) < -tuning.semaem) := by
      simp only [short, Int.bmod_def] at isShort ⊢
      omega
    unfold semaoe
    rw [if_neg nonzero, if_neg range]
    simp only [claimed, restored]
    rw [Pool.table_store inv' slot]
    split
    · rename_i owner
      rw [owner]
    · rename_i other
      rw [same, tables, if_neg other]

end Semaoe

/-! ## Clearing entries -/

theorem squeeze_sublist (id : Int) (low high : Nat) (entries : List Undo) :
    (squeeze id low high entries).Sublist entries := by
  induction entries with
  | nil => exact .slnil
  | cons entry rest ih =>
    rw [squeeze]
    split
    · exact .refl _
    split
    · exact ih.cons_cons entry
    split
    · exact .refl _
    · exact ih.cons entry

/-- Squeezing a sorted table clears exactly the records in question. -/
theorem aoeOf_squeeze (sorted : entries.Pairwise Undo.Before) (id : Int) (low high : Nat)
    (id' : Int) (num' : Nat) :
    aoeOf (squeeze id low high entries) id' num' =
      if id' = id ∧ low ≤ num' ∧ num' ≤ high then 0 else aoeOf entries id' num' := by
  induction entries with
  | nil => simp [squeeze, aoeOf]
  | cons entry rest ih =>
    obtain ⟨head, tail_sorted⟩ := pairwise_cons.mp sorted
    have tail := ih tail_sorted
    -- When the loop stops at `entry`, nothing from it on is to be cleared.
    have stop : (id < entry.id ∨ entry.id = id ∧ high < entry.num) →
        id' = id ∧ low ≤ num' ∧ num' ≤ high → aoeOf (entry :: rest) id' num' = 0 := by
      rintro past ⟨rfl, -, small⟩
      refine aoeOf_eq_zero fun other member => ?_
      rcases mem_cons.mp member with rfl | member
      · rintro ⟨same, rfl⟩
        omega
      · have before := head other member
        rintro ⟨rfl, rfl⟩
        simp only [Undo.Before, Undo.Precedes] at before
        omega
    rw [squeeze]
    split
    · rename_i smaller
      split
      · rename_i cleared
        exact stop (.inl smaller) cleared
      · rfl
    rename_i not_smaller
    split
    · rename_i skipped
      rw [aoeOf, tail, aoeOf]
      by_cases found : entry.Matches id' num'
      · rw [if_pos found, if_pos found, if_neg]
        rintro ⟨rfl, least, -⟩
        obtain ⟨rfl, rfl⟩ := found
        omega
      · rw [if_neg found, if_neg found]
    rename_i reached
    split
    · rename_i beyond
      split
      · rename_i cleared
        exact stop (.inr ⟨by omega, beyond⟩) cleared
      · rfl
    · rename_i within
      rw [tail]
      by_cases cleared : id' = id ∧ low ≤ num' ∧ num' ≤ high
      · rw [if_pos cleared, if_pos cleared]
      · rw [if_neg cleared, if_neg cleared, aoeOf, if_neg]
        rintro ⟨rfl, rfl⟩
        exact cleared ⟨by omega, by omega, by omega⟩

theorem Valid.sublist {after : List Undo} (valid : Valid tuning entries)
    (sublist : after.Sublist entries) : Valid tuning after where
  sorted := valid.sorted.sublist sublist
  nonzero entry member := valid.nonzero entry (sublist.subset member)
  range entry member := valid.range entry (sublist.subset member)
  isShort entry member := valid.isShort entry (sublist.subset member)
  bound := Nat.le_trans sublist.length_le valid.bound

theorem semunrm_ents (inv : PoolInv tuning pool) (id : Int) (low high up : Nat) :
    (semunrm pool id low high).ents up = squeeze id low high (pool.ents up) := by
  simp only [semunrm]
  split
  · rfl
  · rename_i outside
    have empty : pool.ents up = [] := by
      by_contra occupied
      exact outside ((inv.mem_unp up).mpr occupied)
    simp [empty, squeeze]

/-- `semunrm` keeps the pool consistent. -/
theorem PoolInv.semunrm (inv : PoolInv tuning pool) (id : Int) (low high : Nat) :
    PoolInv tuning (semunrm pool id low high) where
  valid up := by
    rw [semunrm_ents inv]
    exact (inv.valid up).sublist (squeeze_sublist id low high _)
  inject := inv.inject
  unp_nodup := inv.unp_nodup.filter _
  fup_nodup := inv.fup_nodup
  mem_unp up := by
    have ents := semunrm_ents inv id low high up
    simp only [Sem.semunrm] at ents ⊢
    simp only [mem_filter, decide_eq_true_eq, ents]
    constructor
    · exact fun member => member.2
    · intro occupied
      refine ⟨(inv.mem_unp up).mpr fun empty => ?_, occupied⟩
      exact occupied (by simp [empty, squeeze])
  mem_fup := inv.mem_fup
  owned := inv.owned
  free_empty up unowned := by
    rw [semunrm_ents inv, inv.free_empty up unowned]
    rfl

theorem Pool.table_semunrm (inv : PoolInv tuning pool) (id : Int) (low high q : Nat) :
    (Sem.semunrm pool id low high).table q = squeeze id low high (pool.table q) := by
  have slots : (Sem.semunrm pool id low high).slot q = pool.slot q := rfl
  cases slot : pool.slot q with
  | none => simp [Pool.table, slots, slot, squeeze]
  | some up =>
    rw [Pool.table_of_slot slot, Pool.table_of_slot (slots.trans slot), semunrm_ents inv]

/-- `semunrm` clears the records in question for every process and keeps all others. -/
theorem record_semunrm (inv : PoolInv tuning pool) (id : Int) (low high : Nat) (p : Nat) (id' : Int)
    (num' : Nat) :
    record (semunrm pool id low high) p id' num' =
      if id' = id ∧ low ≤ num' ∧ num' ≤ high then 0 else record pool p id' num' := by
  rw [record, Pool.table_semunrm inv, aoeOf_squeeze (inv.table_valid p).sorted, record]

/-! ## Giving a structure back -/

/-- The end of `semexit`: the structure of process `p` is emptied, unlinked and put on the free
chain. -/
def Pool.release (pool : Pool) (p : Nat) : Pool :=
  match pool.slot p with
  | none => pool
  | some up =>
    { slot := update pool.slot p none
      ents := update pool.ents up []
      semunp := pool.semunp.erase up
      semfup := up :: pool.semfup }

section Release

variable {tuning : Tuning} {pool : Pool} {p : Nat}

theorem Pool.release_slot (pool : Pool) (p q : Nat) :
    (pool.release p).slot q = if q = p then none else pool.slot q := by
  cases held : pool.slot p with
  | none =>
    simp only [Pool.release, held]
    split
    · rename_i same
      rw [same, held]
    · rfl
  | some up => simp [Pool.release, held, update_apply]

/-- Giving a structure back keeps the pool consistent. -/
theorem PoolInv.release (inv : PoolInv tuning pool) (p : Nat) :
    PoolInv tuning (pool.release p) := by
  cases held : pool.slot p with
  | none => simpa [Pool.release, held] using inv
  | some up =>
    have slots := pool.release_slot p
    have sole : ∀ q, pool.slot q = some up → q = p := fun q owns => inv.inject q p up owns held
    have ents : ∀ other, (pool.release p).ents other =
        if other = up then [] else pool.ents other := by
      simp [Pool.release, held, update_apply]
    have chain : (pool.release p).semfup = up :: pool.semfup := by simp [Pool.release, held]
    have active : (pool.release p).semunp = pool.semunp.erase up := by
      simp [Pool.release, held]
    have taken : up ∉ pool.semfup := fun free => ((inv.mem_fup up).mp free).2 p held
    refine ⟨fun other => ?_, fun q r other => ?_, ?_, ?_, fun other => ?_, fun other => ?_,
      fun q other => ?_, fun other unowned => ?_⟩
    · rw [ents]
      split
      · exact Valid.nil tuning
      · exact inv.valid other
    · rw [slots, slots]
      split
      · simp
      split
      · simp
      · exact inv.inject q r other
    · rw [active]
      exact inv.unp_nodup.erase up
    · rw [chain]
      exact nodup_cons.mpr ⟨taken, inv.fup_nodup⟩
    · rw [active, inv.unp_nodup.mem_erase_iff, inv.mem_unp, ents]
      split <;> simp_all
    · rw [chain, mem_cons, inv.mem_fup]
      constructor
      · rintro (rfl | ⟨small, unowned⟩)
        · refine ⟨inv.owned p other held, fun q => ?_⟩
          rw [slots]
          split
          · simp
          · rename_i differs
            exact fun owns => differs (sole q owns)
        · refine ⟨small, fun q => ?_⟩
          rw [slots]
          split
          · simp
          · exact unowned q
      · rintro ⟨small, unowned⟩
        by_cases same : other = up
        · exact .inl same
        refine .inr ⟨small, fun q owns => ?_⟩
        have differs : q ≠ p := by
          rintro rfl
          exact same (some.inj (owns.symm.trans held))
        exact unowned q (by rw [slots, if_neg differs, owns])
    · rw [slots]
      split
      · simp
      · exact inv.owned q other
    · rw [ents]
      split
      · rfl
      · rename_i same
        refine inv.free_empty other fun q owns => ?_
        have differs : q ≠ p := by
          rintro rfl
          exact same (some.inj (owns.symm.trans held))
        exact unowned q (by rw [slots, if_neg differs, owns])

theorem Pool.table_release (inv : PoolInv tuning pool) (p q : Nat) :
    (pool.release p).table q = if q = p then [] else pool.table q := by
  have slots := pool.release_slot p q
  split
  · rename_i same
    rw [if_pos same] at slots
    simp [Pool.table, slots]
  · rename_i differs
    rw [if_neg differs] at slots
    cases held : pool.slot q with
    | none => simp [Pool.table, slots, held]
    | some up =>
      rw [Pool.table_of_slot (slots.trans held), Pool.table_of_slot held]
      cases other : pool.slot p with
      | none => simp [Pool.release, other]
      | some up' =>
        have distinct : up ≠ up' := by
          rintro rfl
          exact differs (inv.inject q p up held other)
        simp [Pool.release, other, update_of_ne distinct]

/-- A process that gives its structure back has nothing recorded; the others keep all. -/
theorem record_release (inv : PoolInv tuning pool) (p q : Nat) (id : Int) (num : Nat) :
    record (pool.release p) q id num = if q = p then 0 else record pool q id num := by
  rw [record, Pool.table_release inv]
  split
  · rfl
  · rfl

end Release

/-! ## Histories of the pool -/

/-- An operation on the pool, made under `sem_lock`. -/
inductive PoolEvent
  | semaoe (q : Nat) (val : BitVec 16) (id : Int) (num : Nat)
  | semunrm (id : Int) (low high : Nat)
  | semexit (q : Nat)
deriving DecidableEq, Repr

/-- The pool after an event. -/
def PoolEvent.apply (tuning : Tuning) (pool : Pool) : PoolEvent → Pool
  | .semaoe q val id num => (Sem.semaoe tuning pool q val.toInt id num).2
  | .semunrm id low high => Sem.semunrm pool id low high
  | .semexit q => pool.release q

def Pool.after (tuning : Tuning) (events : List PoolEvent) : Pool :=
  events.foldl (PoolEvent.apply tuning) (Pool.initial tuning)

theorem short_toInt (value : BitVec 16) : short value.toInt = value.toInt := by
  rw [short, ← toInt_ofInt, ofInt_toInt]

theorem PoolInv.apply (inv : PoolInv tuning pool) (event : PoolEvent) :
    PoolInv tuning (event.apply tuning pool) := by
  cases event with
  | semaoe q val id num => exact (semaoe_spec inv (short_toInt val)).1
  | semunrm id low high => exact inv.semunrm id low high
  | semexit q => exact inv.release q

theorem Pool.after_inv (tuning : Tuning) (events : List PoolEvent) :
    PoolInv tuning (Pool.after tuning events) := by
  suffices general : ∀ pool, PoolInv tuning pool →
      PoolInv tuning (events.foldl (PoolEvent.apply tuning) pool) from
    general _ (Pool.initial_inv tuning)
  induction events with
  | nil => exact fun _ inv => inv
  | cons event rest ih =>
    intro pool inv
    exact ih _ (inv.apply event)

end Sol25.Sem
