import Mathlib.Data.List.Pairwise
import Sol25.Ipc.Perm

/-!
# Adjust-on-exit tables

The undo structures of `uts/common/syscall/sem.c`.  The `un_ent` array of a `struct sem_undo` is
the list of its first `un_cnt` entries; the chains `semunp` and `semfup` are the lists of the
structures linked by `un_np`.  `un_aoe` is a `short`: every assignment to it is reduced by `short`.
-/

namespace Sol25.Sem

open List Function Int

/-- The members of `struct seminfo` that the calls consult. -/
structure Tuning where
  /-- Number of undo structures in the system. -/
  semmnu : Nat
  /-- Maximum number of undo entries of a process. -/
  semume : Nat
  /-- Maximum value of a semaphore. -/
  semvmx : Nat
  /-- Maximum magnitude of an adjust-on-exit value. -/
  semaem : Nat
  /-- Maximum number of operations of a call. -/
  semopm : Nat
  /-- Number of semaphore identifiers. -/
  semmni : Nat
  /-- Maximum number of semaphores of a set. -/
  semmsl : Nat
  /-- `un_cnt` is a `short`; a larger table would overflow it. -/
  semume_le : semume ≤ 0x7fff
  /-- `_init` limits the number of identifiers to `SEMA_INDEX_MAX`. -/
  semmni_le : semmni ≤ 0xffff
deriving DecidableEq, Repr

/-- The tunables that `sem.c` starts from. -/
def Tuning.default : Tuning := ⟨30, 10, 32767, 16384, 10, 10, 25, by decide, by decide⟩

/-- Conversion to `short`. -/
def short (value : Int) : Int := value.bmod (2 ^ 16)

/-- One `struct undo`. -/
structure Undo where
  /-- `un_id`: the semaphore identifier the entry was made under. -/
  id : Int
  /-- `un_num`: the semaphore number. -/
  num : Nat
  /-- `un_aoe`: the adjust-on-exit value. -/
  aoe : Int
deriving DecidableEq, Repr

/-- The entry belongs to semaphore `num` of `id`. -/
def Undo.Matches (entry : Undo) (id : Int) (num : Nat) : Prop := entry.id = id ∧ entry.num = num

instance (entry : Undo) (id : Int) (num : Nat) : Decidable (entry.Matches id num) :=
  inferInstanceAs (Decidable (_ ∧ _))

/-- The entry is sorted before semaphore `num` of `id`. -/
def Undo.Precedes (entry : Undo) (id : Int) (num : Nat) : Prop :=
  entry.id < id ∨ entry.id = id ∧ entry.num < num

instance (entry : Undo) (id : Int) (num : Nat) : Decidable (entry.Precedes id num) :=
  inferInstanceAs (Decidable (_ ∨ _))

/-- The table part of `semaoe`: find the entry or its place among the `count` entries, then insert,
adjust or delete it. -/
def adjust (tuning : Tuning) (val : Int) (id : Int) (num count : Nat) :
    List Undo → Except Errno (List Undo)
  | [] => if tuning.semume ≤ count then .error .einval else .ok [⟨id, num, short (-val)⟩]
  | entry :: rest =>
    if entry.Precedes id num then
      (adjust tuning val id num count rest).map (entry :: ·)
    else if entry.Matches id num then
      let aoe := short (entry.aoe - val)
      if tuning.semaem < aoe ∨ aoe < -tuning.semaem then
        .error .erange
      else if aoe = 0 then
        .ok rest
      else
        .ok ({ entry with aoe := aoe } :: rest)
    else if tuning.semume ≤ count then
      .error .einval
    else
      .ok (⟨id, num, short (-val)⟩ :: entry :: rest)

/-- The undo structures of the system. -/
structure Pool where
  /-- `sem_undo[]`: the structure held by each process. -/
  slot : Nat → Option Nat
  /-- The entries of each structure. -/
  ents : Nat → List Undo
  /-- The chain of structures with entries. -/
  semunp : List Nat
  /-- The chain of structures that belong to no process. -/
  semfup : List Nat

/-- The structure of process `p`, taken from the free chain if it has none. -/
def Pool.claim (pool : Pool) (p : Nat) : Option (Nat × Pool) :=
  match pool.slot p with
  | some up => some (up, pool)
  | none =>
    match pool.semfup with
    | [] => none
    | up :: rest => some (up, { pool with semfup := rest, slot := update pool.slot p (some up) })

/-- Store the entries of a structure, linking it into `semunp` with its first entry and unlinking
it with its last. -/
def Pool.store (pool : Pool) (up : Nat) (entries : List Undo) : Pool :=
  { pool with
    ents := update pool.ents up entries
    semunp :=
      if pool.ents up = [] then up :: pool.semunp
      else if entries = [] then pool.semunp.erase up
      else pool.semunp }

/-- `semaoe`: record `val` for semaphore `num` of `id` in the undo structure of process `p`. -/
def semaoe (tuning : Tuning) (pool : Pool) (p : Nat) (val id : Int) (num : Nat) :
    Option Errno × Pool :=
  if val = 0 then
    (none, pool)
  else if tuning.semaem < val ∨ val < -tuning.semaem then
    (some .erange, pool)
  else
    match pool.claim p with
    | none => (some .enospc, pool)
    | some (up, claimed) =>
      let entries := claimed.ents up
      match adjust tuning val id num entries.length entries with
      | .error errno => (some errno, claimed)
      | .ok after => (none, claimed.store up after)

/-- `semunrm` on one table: squeeze out the entries of `id` numbered from `low` to `high`. -/
def squeeze (id : Int) (low high : Nat) : List Undo → List Undo
  | [] => []
  | entry :: rest =>
    if id < entry.id then
      entry :: rest
    else if entry.id < id ∨ entry.num < low then
      entry :: squeeze id low high rest
    else if high < entry.num then
      entry :: rest
    else
      squeeze id low high rest

/-- `semunrm`: clear the undo entries of some semaphores in every structure of the chain. -/
def semunrm (pool : Pool) (id : Int) (low high : Nat) : Pool :=
  let ents := fun up =>
    if up ∈ pool.semunp then squeeze id low high (pool.ents up) else pool.ents up
  { pool with ents := ents, semunp := pool.semunp.filter fun up => ents up ≠ [] }

/-! ## What a table records -/

/-- The value a table records for a semaphore; zero when there is no entry. -/
def aoeOf : List Undo → Int → Nat → Int
  | [], _, _ => 0
  | entry :: rest, id, num => if entry.Matches id num then entry.aoe else aoeOf rest id num

/-- Strict order of entries by identifier and number. -/
def Undo.Before (low high : Undo) : Prop := low.Precedes high.id high.num

/-- A well-formed table. -/
structure Valid (tuning : Tuning) (entries : List Undo) : Prop where
  /-- Entries are strictly sorted, so each semaphore has at most one. -/
  sorted : entries.Pairwise Undo.Before
  /-- No entry is zero. -/
  nonzero : ∀ entry ∈ entries, entry.aoe ≠ 0
  /-- Entries respect the tunable maximum. -/
  range : ∀ entry ∈ entries, -(tuning.semaem : Int) ≤ entry.aoe ∧ entry.aoe ≤ tuning.semaem
  /-- Entries are values of a `short`. -/
  isShort : ∀ entry ∈ entries, short entry.aoe = entry.aoe
  /-- The table does not overflow. -/
  bound : entries.length ≤ tuning.semume

theorem short_short (value : Int) : short (short value) = short value := by
  simp [short]

variable {id : Int} {entries front : List Undo} {num : Nat} {tuning : Tuning} {entry : Undo}

theorem aoeOf_eq_zero (absent : ∀ entry ∈ entries, ¬ entry.Matches id num) :
    aoeOf entries id num = 0 := by
  induction entries with
  | nil => rfl
  | cons entry rest ih =>
    rw [aoeOf, if_neg (absent entry (by simp))]
    exact ih fun other member => absent other (by simp [member])

theorem Undo.Before.not_matches {low high : Undo} (before : low.Before high)
    (past : ¬ low.Precedes id num) : ¬ high.Matches id num := by
  rintro ⟨rfl, rfl⟩
  exact past before

/-- In a sorted table nothing after an entry that does not precede a semaphore belongs to it. -/
theorem absent_after {rest : List Undo} (sorted : (entry :: rest).Pairwise Undo.Before)
    (past : ¬ entry.Precedes id num) :
    ∀ other ∈ rest, ¬ other.Matches id num := by
  intro other member
  exact Undo.Before.not_matches ((pairwise_cons.mp sorted).1 other member) past

theorem exists_of_aoeOf_ne_zero (recorded : aoeOf entries id num ≠ 0) :
    ∃ entry ∈ entries, entry.Matches id num ∧ entry.aoe = aoeOf entries id num := by
  induction entries with
  | nil => simp [aoeOf] at recorded
  | cons entry rest ih =>
    by_cases found : entry.Matches id num
    · exact ⟨entry, by simp, found, by simp [aoeOf, found]⟩
    · have recorded' : aoeOf rest id num ≠ 0 := by simpa [aoeOf, found] using recorded
      obtain ⟨other, member, matches_, value⟩ := ih recorded'
      exact ⟨other, by simp [member], matches_, by simp [aoeOf, found, value]⟩

theorem Valid.aoeOf_bounds (valid : Valid tuning entries) (id : Int) (num : Nat) :
    -(tuning.semaem : Int) ≤ aoeOf entries id num ∧ aoeOf entries id num ≤ tuning.semaem := by
  by_cases recorded : aoeOf entries id num = 0
  · rw [recorded]
    omega
  · obtain ⟨entry, member, -, value⟩ := exists_of_aoeOf_ne_zero recorded
    rw [← value]
    exact valid.range entry member

theorem Valid.short_aoeOf (valid : Valid tuning entries) (id : Int) (num : Nat) :
    short (aoeOf entries id num) = aoeOf entries id num := by
  by_cases recorded : aoeOf entries id num = 0
  · rw [recorded]
    rfl
  · obtain ⟨entry, member, -, value⟩ := exists_of_aoeOf_ne_zero recorded
    rw [← value]
    exact valid.isShort entry member

theorem Valid.nil (tuning : Tuning) : Valid tuning [] := ⟨.nil, by simp, by simp, by simp, by simp⟩

/-! ## One adjustment -/

theorem aoeOf_append (absent : ∀ entry ∈ front, ¬ entry.Matches id num) (back : List Undo) :
    aoeOf (front ++ back) id num = aoeOf back id num := by
  induction front with
  | nil => rfl
  | cons entry rest ih =>
    rw [cons_append, aoeOf, if_neg (absent entry (by simp))]
    exact ih fun other member => absent other (by simp [member])

theorem aoeOf_append_cons (entry : Undo) (differs : ¬ entry.Matches id num) (back : List Undo) :
    aoeOf (front ++ entry :: back) id num = aoeOf (front ++ back) id num := by
  induction front with
  | nil => rw [nil_append, nil_append, aoeOf, if_neg differs]
  | cons first rest ih =>
    simp only [cons_append, aoeOf, ih]

theorem Undo.Precedes.not_matches (precedes : entry.Precedes id num) : ¬ entry.Matches id num := by
  rintro ⟨rfl, rfl⟩
  simp [Undo.Precedes] at precedes

theorem Valid.aoeOf_eq (valid : Valid tuning entries) (member : entry ∈ entries)
    (found : entry.Matches id num) :
    aoeOf entries id num = entry.aoe := by
  obtain ⟨front, back, split⟩ := append_of_mem member
  have sorted := valid.sorted
  rw [split, pairwise_append] at sorted
  have absent : ∀ other ∈ front, ¬ other.Matches id num := by
    intro other other_mem
    have before := sorted.2.2 other other_mem entry (by simp)
    obtain ⟨rfl, rfl⟩ := found
    exact Undo.Precedes.not_matches before
  rw [split, aoeOf_append absent, aoeOf, if_pos found]

section Adjust

variable {tuning : Tuning} {val id : Int} {num count : Nat} {entries after : List Undo}

/-- Everything a successful adjustment of a table can do. -/
inductive Adjusted (tuning : Tuning) (val id : Int) (num count : Nat) :
    List Undo → List Undo → Prop
  | insert (front back : List Undo) :
      (∀ entry ∈ front, entry.Precedes id num) →
      (∀ entry ∈ back, ¬ entry.Precedes id num ∧ ¬ entry.Matches id num) →
      count < tuning.semume →
      Adjusted tuning val id num count (front ++ back) (front ++ ⟨id, num, short (-val)⟩ :: back)
  | change (front : List Undo) (entry : Undo) (back : List Undo) :
      (∀ other ∈ front, other.Precedes id num) → entry.Matches id num →
      (-(tuning.semaem : Int) ≤ short (entry.aoe - val) ∧ short (entry.aoe - val) ≤ tuning.semaem) →
      short (entry.aoe - val) ≠ 0 →
      Adjusted tuning val id num count (front ++ entry :: back)
        (front ++ { entry with aoe := short (entry.aoe - val) } :: back)
  | delete (front : List Undo) (entry : Undo) (back : List Undo) :
      (∀ other ∈ front, other.Precedes id num) → entry.Matches id num →
      short (entry.aoe - val) = 0 →
      Adjusted tuning val id num count (front ++ entry :: back) (front ++ back)

theorem Adjusted.cons (precedes : entry.Precedes id num)
    (adjusted : Adjusted tuning val id num count entries after) :
    Adjusted tuning val id num count (entry :: entries) (entry :: after) := by
  cases adjusted with
  | insert front back earlier later room =>
    exact .insert (entry :: front) back (by simpa using ⟨precedes, earlier⟩) later room
  | change front found back earlier matches_ range nonzero =>
    exact .change (entry :: front) found back (by simpa using ⟨precedes, earlier⟩) matches_
      range nonzero
  | delete front found back earlier matches_ zero =>
    exact .delete (entry :: front) found back (by simpa using ⟨precedes, earlier⟩) matches_ zero

theorem adjusted_of_adjust (sorted : entries.Pairwise Undo.Before)
    (result : adjust tuning val id num count entries = .ok after) :
    Adjusted tuning val id num count entries after := by
  induction entries generalizing after with
  | nil =>
    simp only [adjust] at result
    split at result
    · cases result
    · cases result
      exact .insert [] [] (by simp) (by simp) (by omega)
  | cons entry rest ih =>
    simp only [adjust] at result
    split at result
    · rename_i precedes
      cases tail : adjust tuning val id num count rest with
      | error errno => simp [tail, Except.map] at result
      | ok after' =>
        obtain rfl : entry :: after' = after := by simpa [tail, Except.map] using result
        exact (ih sorted.of_cons tail).cons precedes
    · rename_i past
      split at result
      · rename_i found
        split at result
        · cases result
        rename_i range
        split at result
        · rename_i zero
          cases result
          exact .delete [] entry rest (by simp) found zero
        · rename_i nonzero
          cases result
          exact .change [] entry rest (by simp) found (by omega) nonzero
      · rename_i differs
        split at result
        · cases result
        · cases result
          refine .insert [] (entry :: rest) (by simp) (fun other member => ?_) (by omega)
          rcases mem_cons.mp member with rfl | member
          · exact ⟨past, differs⟩
          · have before := (pairwise_cons.mp sorted).1 other member
            refine ⟨?_, absent_after sorted past other member⟩
            simp only [Undo.Before, Undo.Precedes] at *
            omega

theorem adjust_append (earlier : ∀ entry ∈ front, entry.Precedes id num) (back : List Undo) :
    adjust tuning val id num count (front ++ back) =
      (adjust tuning val id num count back).map (front ++ ·) := by
  induction front with
  | nil =>
    rw [nil_append]
    cases adjust tuning val id num count back <;> rfl
  | cons entry rest ih =>
    rw [cons_append, adjust, if_pos (earlier entry (by simp)),
      ih fun other member => earlier other (by simp [member])]
    cases adjust tuning val id num count back <;> rfl

/-- An adjustment is undone by adjusting with the opposite value. -/
theorem Adjusted.inverse (adjusted : Adjusted tuning val id num entries.length entries after)
    (valid : Valid tuning entries) :
    adjust tuning (short (-val)) id num after.length after = .ok entries := by
  generalize total : entries.length = count at adjusted
  cases adjusted with
  | insert front back earlier later room =>
    have zero : short (short (-val) - short (-val)) = 0 := by simp [short]
    have range : ¬ ((tuning.semaem : Int) < 0 ∨ (0 : Int) < -tuning.semaem) := by omega
    rw [adjust_append earlier, adjust, if_neg (by simp [Undo.Precedes]), if_pos ⟨rfl, rfl⟩]
    simp only [zero, if_neg range, if_true, Except.map]
  | change front entry back earlier found range nonzero =>
    obtain ⟨rfl, rfl⟩ := found
    have member : entry ∈ front ++ entry :: back := by simp
    have back_eq : short (short (entry.aoe - val) - short (-val)) = entry.aoe := by
      rw [← valid.isShort entry member]
      simp only [short, bmod_sub_bmod, sub_bmod_bmod]
      congr 1
      omega
    have bounds := valid.range entry member
    rw [adjust_append earlier, adjust, if_neg (by simp [Undo.Precedes]), if_pos ⟨rfl, rfl⟩]
    simp only [back_eq]
    rw [if_neg (by omega), if_neg (valid.nonzero entry member)]
    rfl
  | delete front entry back earlier found zero =>
    obtain ⟨rfl, rfl⟩ := found
    have member : entry ∈ front ++ entry :: back := by simp
    have value : short (- short (-val)) = entry.aoe := by
      have isShort := valid.isShort entry member
      simp only [short, bmod_def] at zero isShort ⊢
      omega
    have bound := valid.bound
    have shorter : ¬ tuning.semume ≤ (front ++ back).length := by
      simp only [length_append, length_cons] at bound ⊢
      omega
    have sorted := valid.sorted
    rw [pairwise_append, pairwise_cons] at sorted
    rw [adjust_append earlier]
    cases back with
    | nil => simp only [adjust, if_neg shorter, value, Except.map]
    | cons next rest =>
      have before := sorted.2.1.1 next (by simp)
      have past : ¬ next.Precedes entry.id entry.num := by
        simp only [Undo.Before, Undo.Precedes] at before ⊢
        omega
      have differs : ¬ next.Matches entry.id entry.num := by
        simp only [Undo.Before, Undo.Precedes, Undo.Matches] at before ⊢
        omega
      rw [adjust, if_neg past, if_neg differs, if_neg shorter, value]
      rfl

/-- An adjustment of a sorted table fails only for lack of room or by leaving the range. -/
theorem adjust_eq_error {errno : Errno}
    (result : adjust tuning val id num count entries = .error errno) :
    (errno = .einval ∧ tuning.semume ≤ count ∧ (entries.Pairwise Undo.Before →
      ∀ entry ∈ entries, ¬ entry.Matches id num)) ∨
    (errno = .erange ∧ ∃ entry ∈ entries, entry.Matches id num ∧
      ((tuning.semaem : Int) < short (entry.aoe - val) ∨
        short (entry.aoe - val) < -(tuning.semaem : Int))) := by
  induction entries with
  | nil =>
    simp only [adjust] at result
    split at result
    · cases result
      exact .inl ⟨rfl, by omega, by simp⟩
    · cases result
  | cons entry rest ih =>
    simp only [adjust] at result
    split at result
    · rename_i precedes
      cases tail : adjust tuning val id num count rest with
      | ok after' => simp [tail, Except.map] at result
      | error errno' =>
        obtain rfl : errno' = errno := by simpa [tail, Except.map] using result
        rcases ih tail with ⟨rfl, full, absent⟩ | ⟨rfl, other, member, found, outside⟩
        · refine .inl ⟨rfl, full, fun sorted other member => ?_⟩
          rcases mem_cons.mp member with rfl | member
          · exact precedes.not_matches
          · exact absent sorted.of_cons other member
        · exact .inr ⟨rfl, other, by simp [member], found, outside⟩
    · rename_i past
      split at result
      · rename_i found
        split at result
        · rename_i outside
          cases result
          exact .inr ⟨rfl, entry, by simp, found, outside⟩
        split at result <;> cases result
      · rename_i differs
        split at result
        · rename_i full
          cases result
          refine .inl ⟨rfl, full, fun sorted other member => ?_⟩
          rcases mem_cons.mp member with rfl | member
          · exact differs
          · exact absent_after sorted past other member
        · cases result

/-- An adjustment subtracts `val` from the recorded value. -/
theorem Adjusted.aoeOf_self (sorted : entries.Pairwise Undo.Before)
    (adjusted : Adjusted tuning val id num count entries after) :
    aoeOf after id num = short (aoeOf entries id num - val) := by
  cases adjusted with
  | insert front back earlier later =>
    have absent : ∀ entry ∈ front, ¬ entry.Matches id num := fun entry member =>
      (earlier entry member).not_matches
    rw [aoeOf_append absent, aoeOf_append absent, aoeOf, if_pos ⟨rfl, rfl⟩,
      aoeOf_eq_zero fun entry member => (later entry member).2, Int.zero_sub]
  | change front entry back earlier found =>
    have absent : ∀ other ∈ front, ¬ other.Matches id num := fun other member =>
      (earlier other member).not_matches
    rw [aoeOf_append absent, aoeOf_append absent, aoeOf, aoeOf, if_pos found, if_pos]
    exact found
  | delete front entry back earlier found zero =>
    have absent : ∀ other ∈ front, ¬ other.Matches id num := fun other member =>
      (earlier other member).not_matches
    have past : ¬ entry.Precedes id num := fun precedes => precedes.not_matches found
    have back_sorted := (pairwise_append.mp sorted).2.1
    rw [aoeOf_append absent, aoeOf_append absent, aoeOf, if_pos found, zero]
    exact aoeOf_eq_zero (absent_after back_sorted past)

/-- An adjustment touches no other record. -/
theorem Adjusted.aoeOf_other (adjusted : Adjusted tuning val id num count entries after)
    {id' : Int} {num' : Nat} (other : ¬ (id' = id ∧ num' = num)) :
    aoeOf after id' num' = aoeOf entries id' num' := by
  have differs : ∀ entry : Undo, entry.Matches id num → ¬ entry.Matches id' num' := by
    rintro entry ⟨rfl, rfl⟩ ⟨rfl, rfl⟩
    exact other ⟨rfl, rfl⟩
  cases adjusted with
  | insert front back => exact aoeOf_append_cons _ (differs _ ⟨rfl, rfl⟩) _
  | change front entry back _ found =>
    have kept : ¬ entry.Matches id' num' := differs entry found
    calc
      aoeOf (front ++ { entry with aoe := short (entry.aoe - val) } :: back) id' num' =
          aoeOf (front ++ back) id' num' :=
        aoeOf_append_cons { entry with aoe := short (entry.aoe - val) } kept back
      _ = aoeOf (front ++ entry :: back) id' num' := (aoeOf_append_cons _ kept _).symm
  | delete front entry back _ found =>
    rw [aoeOf_append_cons _ (differs _ found)]

theorem Adjusted.sorted (sorted : entries.Pairwise Undo.Before)
    (adjusted : Adjusted tuning val id num count entries after) :
    after.Pairwise Undo.Before := by
  cases adjusted with
  | insert front back earlier later =>
    obtain ⟨front_sorted, back_sorted, across⟩ := pairwise_append.mp sorted
    have behind : ∀ entry ∈ back, Undo.Before ⟨id, num, short (-val)⟩ entry := by
      intro entry member
      obtain ⟨past, differs⟩ := later entry member
      simp only [Undo.Before, Undo.Precedes, Undo.Matches] at *
      omega
    refine pairwise_append.mpr ⟨front_sorted, pairwise_cons.mpr ⟨behind, back_sorted⟩,
        fun low low_mem high member => ?_⟩
    rcases mem_cons.mp member with rfl | member
    · exact earlier low low_mem
    · exact across low low_mem high member
  | change front entry back =>
    simp only [pairwise_append, pairwise_cons, mem_cons] at sorted ⊢
    obtain ⟨front_sorted, ⟨behind, back_sorted⟩, across⟩ := sorted
    refine ⟨front_sorted, ⟨behind, back_sorted⟩, fun low low_mem high member => ?_⟩
    rcases member with rfl | member
    · exact across low low_mem entry (.inl rfl)
    · exact across low low_mem high (.inr member)
  | delete front entry back =>
    exact Pairwise.sublist ((sublist_cons_self entry back).append_left front) sorted

/-- Adjusting a well-formed table by a nonzero value of the permitted range keeps it well formed. -/
theorem Adjusted.valid (valid : Valid tuning entries)
    (adjusted : Adjusted tuning val id num entries.length entries after) (nonzero : val ≠ 0)
    (low : -(tuning.semaem : Int) ≤ val) (high : val ≤ tuning.semaem) (isShort : short val = val) :
    Valid tuning after := by
  have sorted := adjusted.sorted valid.sorted
  obtain ⟨-, old_nonzero, old_range, old_short, bound⟩ := valid
  cases adjusted with
  | insert front back earlier later room =>
    have fresh : short (-val) ≠ 0 ∧ -(tuning.semaem : Int) ≤ short (-val) ∧
        short (-val) ≤ tuning.semaem := by
      unfold short at *
      rw [bmod_def] at *
      omega
    refine ⟨sorted, ?_, ?_, ?_, ?_⟩
    · intro entry member
      simp only [mem_append, mem_cons] at member old_nonzero
      rcases member with member | rfl | member
      · exact old_nonzero entry (.inl member)
      · exact fresh.1
      · exact old_nonzero entry (.inr member)
    · intro entry member
      simp only [mem_append, mem_cons] at member old_range
      rcases member with member | rfl | member
      · exact old_range entry (.inl member)
      · exact fresh.2
      · exact old_range entry (.inr member)
    · intro entry member
      simp only [mem_append, mem_cons] at member old_short
      rcases member with member | rfl | member
      · exact old_short entry (.inl member)
      · exact short_short _
      · exact old_short entry (.inr member)
    · simp only [length_append, length_cons] at room ⊢
      omega
  | change front entry back earlier found range changed =>
    refine ⟨sorted, ?_, ?_, ?_, by simpa using bound⟩
    · intro other member
      simp only [mem_append, mem_cons] at member old_nonzero
      rcases member with member | rfl | member
      · exact old_nonzero other (.inl member)
      · exact changed
      · exact old_nonzero other (.inr (.inr member))
    · intro other member
      simp only [mem_append, mem_cons] at member old_range
      rcases member with member | rfl | member
      · exact old_range other (.inl member)
      · exact range
      · exact old_range other (.inr (.inr member))
    · intro other member
      simp only [mem_append, mem_cons] at member old_short
      rcases member with member | rfl | member
      · exact old_short other (.inl member)
      · exact short_short _
      · exact old_short other (.inr (.inr member))
  | delete front entry back =>
    have subset : ∀ other ∈ front ++ back, other ∈ front ++ entry :: back := by
      intro other member
      simp only [mem_append, mem_cons] at member ⊢
      tauto
    refine ⟨sorted, fun other member => old_nonzero other (subset other member),
      fun other member => old_range other (subset other member),
      fun other member => old_short other (subset other member), ?_⟩
    simp only [length_append, length_cons] at bound ⊢
    omega

end Adjust

end Sol25.Sem
