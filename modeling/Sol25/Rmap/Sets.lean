import Mathlib.Data.List.Nodup
import Mathlib.Data.Set.BooleanAlgebra
import Mathlib.Order.CompletePartialOrder
import Sol25.Rmap.Run

/-!
# Resource maps as sets

A map stands for the set of the addresses that it holds.  Allocation takes a range out of the set
and `rmfree` adds one, up to the segment that is given up when the array is full.
-/

namespace Sol25.Rmap

open List

/-- The set of free units. -/
def space (m : Map) : Set Nat := {a | a ∈ held m}

theorem mem_space {m : Map} {a : Nat} :
    a ∈ space m ↔ ∃ seg ∈ segments m, seg.addr ≤ a ∧ a < seg.addr + seg.size := mem_held

theorem held_nodup {m : Map} (inv : RepInv m) : (held m).Nodup := by
  rw [held, nodup_flatMap]
  refine ⟨fun seg _ => nodup_range' _ (by omega), inv.apart.imp ?_⟩
  intro low high apart a low_mem high_mem
  simp only [Seg.span, mem_range'_1] at low_mem high_mem
  simp only [Apart] at apart
  omega

/-- A range that was taken out of a map leaves the rest. -/
theorem space_of_taken {m m' : Map} (inv : RepInv m) {size addr : Nat}
    (taken : (held m).Perm (List.range' addr size ++ held m')) :
    space m' = space m \ Set.Ico addr (addr + size) := by
  have nodup := taken.nodup_iff.mp (held_nodup inv)
  have apart := (nodup_append.mp nodup).2.2
  ext a
  have member := taken.mem_iff (a := a)
  simp only [mem_append, mem_range'_1] at member
  simp only [space, Set.mem_ofPred_eq, Set.mem_sdiff, Set.mem_Ico, member]
  constructor
  · intro kept
    refine ⟨.inr kept, fun inside => ?_⟩
    exact apart a (mem_range'_1.mpr inside) a kept rfl
  · rintro ⟨inside | kept, outside⟩
    · exact absurd inside outside
    · exact kept

theorem Freed.space_eq {m after : Map} {size addr : Nat} (freed : Freed m size addr after) :
    space after = space m ∪ Set.Ico addr (addr + size) := by
  ext a
  have member := freed.held.mem_iff (a := a)
  simp only [mem_append, mem_range'_1] at member
  simp only [space, Set.mem_ofPred_eq, Set.mem_union, Set.mem_Ico, member]
  exact or_comm

/-! ## Requests -/

/-- A call with its arguments. -/
inductive Request
  | alloc (size : BitVec 32)
  | get (size addr : BitVec 32)
  | free (size addr : BitVec 32)
deriving DecidableEq

/-- A free segment starts at an address and is large enough. -/
def Starts (m : Map) (size a : Nat) : Prop := ∃ seg ∈ segments m, seg.addr = a ∧ size ≤ seg.size

/-- `rmalloc` takes the lowest fitting segment, or fails when there is none. -/
def AllocatesLowest (m : Map) (size : Nat) : Prop :=
  (∃ a m', rmalloc m size = .ok (a, m') ∧ IsLeast {a | Starts m size a} a ∧ RepInv m' ∧
    space m' = space m \ Set.Ico a (a + size)) ∨
  ((∀ a, ¬ Starts m size a) ∧ rmalloc m size = .ok (0, m))

/-- `rmget` has to split a segment in two. -/
def Splits (m : Map) (size addr : Nat) : Prop :=
  (∃ a ∈ space m, a + 1 = addr) ∧ addr + size ∈ space m

/-- `rmget` takes the range unless it is not free, or a slot is needed and there is none. -/
def GetsRange (m : Map) (size addr : Nat) : Prop :=
  (Set.Ico addr (addr + size) ⊆ space m ∧ ¬ (Splits m size addr ∧ m.free = 0) →
    ∃ m', rmget m size addr = .ok (addr, m') ∧ RepInv m' ∧
      space m' = space m \ Set.Ico addr (addr + size)) ∧
  (¬ (Set.Ico addr (addr + size) ⊆ space m ∧ ¬ (Splits m size addr ∧ m.free = 0)) →
    rmget m size addr = .ok (0, m))

/-- A range that is not free touches a free segment. -/
def Abuts (m : Map) (size addr : Nat) : Prop :=
  (∃ a ∈ space m, a + 1 = addr) ∨ addr + size ∈ space m

/-- The segment that is given up: the smaller of the last two. -/
def GivenUp (m : Map) (lost : Seg) : Prop :=
  ∃ others previous last, segments m = others ++ [previous, last] ∧
    (lost = previous ∨ lost = last) ∧ lost.size ≤ previous.size ∧ lost.size ≤ last.size

/-- `rmfree` adds the range, after it has given up a segment when no slot is left for it. -/
def FreesRange (m : Map) (size addr : Nat) : Prop :=
  (m.free ≠ 0 ∨ Abuts m size addr →
    ∃ after, rmfree m size addr = .ok after ∧ RepInv after ∧
      space after = space m ∪ Set.Ico addr (addr + size)) ∧
  (¬ (m.free ≠ 0 ∨ Abuts m size addr) →
    ∃ lost after, GivenUp m lost ∧ rmfree m size addr = .ok after ∧ RepInv after ∧
      space after = space m \ Set.Ico lost.addr (lost.addr + lost.size) ∪ Set.Ico addr
        (addr + size))

/-- What a call does to the set of free units. -/
def ActsOnSet (m : Map) : Request → Prop
  | .alloc size => AllocatesLowest m size.toNat
  | .get size addr => GetsRange m size.toNat addr.toNat
  | .free size addr => FreesRange m size.toNat addr.toNat

/-- A call with a positive size; a range that is freed is not free and ends at an address. -/
def Requested (m : Map) : Request → Prop
  | .alloc size => intNonpos size.toNat = false
  | .get size _ => intNonpos size.toNat = false
  | .free size addr =>
    intNonpos size.toNat = false ∧ addr.toNat ≠ 0 ∧ addr.toNat + size.toNat < 2 ^ 32 ∧
      Disjoint (Set.Ico addr.toNat (addr.toNat + size.toNat)) (space m)

/-- The calls that do what they should: a range asked for ends at an address, or starts in no
segment, or is inside of a segment that cannot be split; and `rmfree` on a full map of one segment
touches it. -/
def Covered (m : Map) : Request → Prop
  | .alloc _ => True
  | .get size addr =>
    addr.toNat + size.toNat < 2 ^ 32 ∨
      ∀ seg ∈ segments m, seg.addr ≤ addr.toNat → addr.toNat < seg.addr + seg.size →
        m.free = 0 ∧ seg.addr ≠ addr.toNat
  | .free size addr => ¬ (m.cap = 1 ∧ m.free = 0 ∧ Detached m size.toNat addr.toNat)

/-! ## The segments of the set -/

variable {m : Map} {seg other : Seg} {size addr a : Nat}

theorem apart_of_ne (inv : RepInv m) (seg_mem : seg ∈ segments m) (other_mem : other ∈ segments m)
    (ne : seg ≠ other) : Apart seg other ∨ Apart other seg := by
  have either : (segments m).Pairwise fun low high => Apart low high ∨ Apart high low :=
    inv.apart.imp .inl
  have symm : Std.Symm fun low high : Seg => Apart low high ∨ Apart high low := ⟨fun _ _ => Or.symm⟩
  exact either.forall seg_mem other_mem ne

theorem stop_not_space (inv : RepInv m) (member : seg ∈ segments m) :
    seg.addr + seg.size ∉ space m := by
  intro free
  obtain ⟨other, other_mem, low, high⟩ := mem_space.mp free
  have ne : seg ≠ other := by
    rintro rfl
    omega
  rcases apart_of_ne inv member other_mem ne with apart | apart <;>
    simp only [Apart] at apart <;> omega

theorem before_not_space (inv : RepInv m) (member : seg ∈ segments m) (before : a + 1 = seg.addr) :
    a ∉ space m := by
  intro free
  obtain ⟨other, other_mem, low, high⟩ := mem_space.mp free
  have ne : seg ≠ other := by
    rintro rfl
    omega
  rcases apart_of_ne inv member other_mem ne with apart | apart <;>
    simp only [Apart] at apart <;> omega

theorem subset_iff (inv : RepInv m) (member : seg ∈ segments m) (starts : seg.addr ≤ addr)
    (inside : addr < seg.addr + seg.size) :
    Set.Ico addr (addr + size) ⊆ space m ↔ addr + size ≤ seg.addr + seg.size := by
  constructor
  · intro subset
    by_contra longer
    exact stop_not_space inv member (subset ⟨by omega, by omega⟩)
  · rintro short x ⟨low, high⟩
    exact mem_space.mpr ⟨seg, member, by omega, by omega⟩

/-- A segment is split when the range touches neither end of it. -/
theorem splits_iff (inv : RepInv m) (member : seg ∈ segments m) (starts : seg.addr ≤ addr)
    (ends : addr + size ≤ seg.addr + seg.size) :
    Splits m size addr ↔ seg.addr < addr ∧ addr + size < seg.addr + seg.size := by
  constructor
  · rintro ⟨⟨a, free, before⟩, after⟩
    constructor
    · by_contra at_start
      exact before_not_space inv member (by omega : a + 1 = seg.addr) free
    · by_contra at_end
      have stop : addr + size = seg.addr + seg.size := by omega
      rw [stop] at after
      exact stop_not_space inv member after
  · rintro ⟨low, high⟩
    exact ⟨⟨addr - 1, mem_space.mpr ⟨seg, member, by omega, by omega⟩, by omega⟩,
      mem_space.mpr ⟨seg, member, by omega, high⟩⟩

theorem positive_of_intNonpos (positive : intNonpos size = false) : size ≠ 0 ∧ size < 2 ^ 31 := by
  simp only [intNonpos, Bool.or_eq_false_iff, beq_eq_false_iff_ne,
    decide_eq_false_iff_not] at positive
  omega

/-! ## Allocation -/

theorem rmalloc_acts (inv : RepInv m) (positive : intNonpos size = false) :
    AllocatesLowest m size := by
  have run : rmalloc m size = rmallocLocked m size := by
    rw [rmalloc, positive]
    rfl
  rw [AllocatesLowest, run]
  rcases rmallocLocked_spec inv size with ⟨refused, small⟩ | ⟨seg, member, m', granted, fits, after,
    -, taken, lowest⟩
  · refine .inr ⟨?_, refused⟩
    rintro a ⟨seg, member, -, fits⟩
    have less := small seg member
    omega
  · refine .inl ⟨seg.addr, m', granted, ⟨⟨seg, member, rfl, fits⟩, ?_⟩, after,
      space_of_taken inv taken⟩
    rintro a ⟨other, other_mem, rfl, other_fits⟩
    exact lowest other other_mem other_fits

theorem rmget_acts (inv : RepInv m) (positive : intNonpos size = false)
    (no_wrap : addr + size < 2 ^ 32) :
    GetsRange m size addr := by
  have size_pos := (positive_of_intNonpos positive).1
  have ends := rmget_ends inv positive no_wrap
  rw [GetsRange]
  generalize rmget m size addr = outcome at ends
  cases ends with
  | outside away =>
    refine ⟨fun ⟨subset, _⟩ => ?_, fun _ => rfl⟩
    obtain ⟨seg, member, here⟩ := mem_space.mp (subset ⟨Nat.le_refl addr, by omega⟩)
    exact absurd here (away seg member)
  | short member starts inside short =>
    refine ⟨fun ⟨subset, _⟩ => ?_, fun _ => rfl⟩
    have fits := (subset_iff inv member starts inside).mp subset
    omega
  | full member starts ends full =>
    refine ⟨fun ⟨_, room⟩ => ?_, fun _ => rfl⟩
    exact absurd ⟨(splits_iff inv member starts.le ends.le).mpr ⟨starts, ends⟩, full⟩ room
  | @taken seg m' member starts ends room after held =>
    refine ⟨fun _ => ⟨m', rfl, after, space_of_taken inv held⟩, fun refused => absurd ?_ refused⟩
    refine ⟨(subset_iff inv member starts (by omega)).mpr ends, fun ⟨splits, full⟩ => ?_⟩
    obtain ⟨low, high⟩ := (splits_iff inv member starts ends).mp splits
    exact room low high full

theorem segment_unique (inv : RepInv m) (seg_mem : seg ∈ segments m)
    (other_mem : other ∈ segments m) (seg_low : seg.addr ≤ a) (seg_high : a < seg.addr + seg.size)
    (other_low : other.addr ≤ a) (other_high : a < other.addr + other.size) : other = seg := by
  by_contra ne
  rcases apart_of_ne inv other_mem seg_mem ne with apart | apart <;>
    simp only [Apart] at apart <;> omega

/-- The sum of address and size wraps around. -/
theorem rmget_wraps (inv : RepInv m) (positive : intNonpos size = false) (addr_lt : addr < 2 ^ 32)
    (wraps : 2 ^ 32 ≤ addr + size) :
    rmget m size addr = .ok (0, m) ↔
      ∀ seg ∈ segments m, seg.addr ≤ addr → addr < seg.addr + seg.size → m.free = 0 ∧
        seg.addr ≠ addr := by
  obtain ⟨size_pos, size_lt⟩ := positive_of_intNonpos positive
  have shape := inv.shape
  obtain ⟨delimiter, rest, dead_eq, cleared, rest_length⟩ := shape.dead_cons
  rw [dead_eq] at shape
  obtain ⟨front, remaining, here, back, segs_eq, here_eq, walked, found, passed⟩ :=
    walk_ok (fun slot => slot.size == 0 ||
      (decide (slot.addr ≤ addr) && decide (addr < ulong (slot.addr + slot.size))))
      (by simp +contextual) (segments m) delimiter rest cleared
  rw [← shape.slots_eq] at walked
  simp only [rmget, positive, walked, bind, Except.bind, pure, Except.pure, Bool.false_eq_true,
    if_false]
  cases remaining with
  | nil =>
    obtain ⟨rfl, rfl⟩ : delimiter = here ∧ rest = back := by simpa using here_eq
    rw [if_pos cleared]
    refine iff_of_true rfl fun seg member starts inside => ?_
    have bounded := shape.bounded seg member
    rw [segs_eq, append_nil] at member
    have skipped := passed seg member
    simp only [starts, inside, ulong_of_lt bounded, decide_true, Bool.and_self, Bool.or_true,
      Bool.true_eq_false] at skipped
  | cons seg later =>
    obtain ⟨rfl, rfl⟩ : seg = here ∧ later ++ delimiter :: rest = back := by
      simpa using here_eq
    have member : seg ∈ segments m := by simp [segs_eq]
    have seg_live : seg.size ≠ 0 := shape.live seg member
    have seg_bounded := shape.bounded seg member
    have later_live : ∀ other ∈ later, other.size ≠ 0 := fun other other_mem =>
      shape.live other (by simp [segs_eq, other_mem])
    simp only [ulong_of_lt seg_bounded] at found ⊢
    obtain ⟨starts, inside⟩ : seg.addr ≤ addr ∧ addr < seg.addr + seg.size := by
      simpa [seg_live] using found
    have sum : ulong (addr + size) = addr + size - 2 ^ 32 := by
      simp only [ulong]
      omega
    have only : (∀ seg ∈ segments m, seg.addr ≤ addr → addr < seg.addr + seg.size →
        m.free = 0 ∧ seg.addr ≠ addr) ↔ m.free = 0 ∧ seg.addr ≠ addr := by
      refine ⟨fun all => all seg member starts inside, fun here other other_mem low high => ?_⟩
      rw [segment_unique inv member other_mem starts inside low high]
      exact here
    rw [only, if_neg seg_live, sum, if_neg (by omega)]
    by_cases at_start : seg.addr = addr
    · rw [if_pos at_start, if_neg (by omega)]
      refine iff_of_false (fun same => ?_) (fun here => here.2 at_start)
      have address := congrArg Prod.fst (Except.ok.inj same)
      simp only at address
      omega
    rw [if_neg at_start, if_neg (by omega)]
    unfold splitSegment
    by_cases full : m.free = 0
    · rw [if_pos full]
      exact iff_of_true rfl ⟨full, at_start⟩
    rw [if_neg full]
    have spare_exists : rest.length = m.free - 1 + 1 := by omega
    obtain ⟨spare, dead, rfl⟩ := exists_cons_of_length_eq_add_one spare_exists
    simp only [walk_delimiter later delimiter (spare :: dead) later_live cleared, bind,
      Except.bind, pure, Except.pure]
    refine iff_of_false (fun same => ?_) (fun here => full here.1)
    have address := congrArg Prod.fst (Except.ok.inj same)
    simp only at address
    omega

theorem rmget_acts_iff (inv : RepInv m) (positive : intNonpos size = false)
    (addr_lt : addr < 2 ^ 32) :
    GetsRange m size addr ↔ addr + size < 2 ^ 32 ∨
      ∀ seg ∈ segments m, seg.addr ≤ addr → addr < seg.addr + seg.size → m.free = 0 ∧
        seg.addr ≠ addr := by
  by_cases no_wrap : addr + size < 2 ^ 32
  · exact iff_of_true (rmget_acts inv positive no_wrap) (.inl no_wrap)
  · have wraps : 2 ^ 32 ≤ addr + size := by omega
    have not_free : ¬ Set.Ico addr (addr + size) ⊆ space m := by
      intro subset
      have last : 2 ^ 32 - 1 ∈ space m := subset ⟨by omega, by omega⟩
      obtain ⟨seg, member, -, high⟩ := mem_space.mp last
      have bounded := inv.bounded seg member
      omega
    rw [GetsRange, ← rmget_wraps inv positive addr_lt wraps, or_iff_right no_wrap]
    constructor
    · intro acts
      exact acts.2 fun granted => not_free granted.1
    · intro refused
      exact ⟨fun granted => absurd granted.1 not_free, fun _ => refused⟩

/-! ## Freeing -/

/-- A range that is not free touches a segment or is detached from all. -/
theorem abuts_iff (inv : RepInv m) (disjoint : Disjoint (Set.Ico addr (addr + size)) (space m)) :
    Abuts m size addr ↔ ¬ Detached m size addr := by
  constructor
  · rintro (⟨a, free, before⟩ | free) detached
    · obtain ⟨seg, member, low, high⟩ := mem_space.mp free
      have away := detached seg member
      omega
    · obtain ⟨seg, member, low, high⟩ := mem_space.mp free
      have away := detached seg member
      omega
  · intro touches
    rw [Detached] at touches
    push Not at touches
    obtain ⟨seg, member, low, high⟩ := touches
    have live := inv.shape.live seg member
    by_cases before : seg.addr < addr
    · refine .inl ⟨addr - 1, mem_space.mpr ⟨seg, member, by omega, ?_⟩, by omega⟩
      omega
    · refine .inr (mem_space.mpr ⟨seg, member, high, ?_⟩)
      by_contra beyond
      have here : seg.addr ∈ space m := mem_space.mpr ⟨seg, member, Nat.le_refl _, by omega⟩
      exact Set.disjoint_left.mp disjoint ⟨by omega, by omega⟩ here

/-- A pass over a full map with a detached range. -/
theorem rmfreePass_full (inv : RepInv m) (no_wrap : addr + size < 2 ^ 32) (full : m.free = 0)
    (detached : Detached m size addr) :
    ∃ front rest here back delimiter, segments m = front ++ rest ∧
      Shape m (front ++ rest) [delimiter] ∧
      rest ++ [delimiter] = here :: back ∧ delimiter.size = 0 ∧
      rmfreePass m size addr = (discardOne m ⟨front, here, back⟩).map .retry := by
  have shape := inv.shape
  obtain ⟨delimiter, dead, dead_eq, cleared, dead_length⟩ := shape.dead_cons
  have dead_nil : dead = [] := length_eq_zero_iff.mp (by omega)
  rw [dead_eq, dead_nil] at shape
  obtain ⟨front, rest, here, back, segs_eq, here_eq, walked, found, passed⟩ :=
    walk_ok (fun slot => !(decide (slot.addr ≤ addr) && slot.size != 0)) (by simp +contextual)
      (segments m) delimiter [] cleared
  rw [← shape.slots_eq] at walked
  rw [segs_eq] at shape
  refine ⟨front, rest, here, back, delimiter, segs_eq, shape, here_eq, cleared, ?_⟩
  have no_left : leftNeighbour ⟨front, here, back⟩ addr = none := by
    cases neighbour : leftNeighbour ⟨front, here, back⟩ addr with
    | none => rfl
    | some left =>
      obtain ⟨init, front_eq, reaches⟩ := leftNeighbour_eq_some neighbour
      simp only at front_eq
      subst front_eq
      have member : left ∈ segments m := by simp [segs_eq]
      have starts := passed left (by simp)
      have live := shape.live left (by simp)
      simp only [Bool.not_eq_false', Bool.and_eq_true, decide_eq_true_eq] at starts
      rw [ulong_of_lt (shape.bounded left (by simp))] at reaches
      have away := detached left member
      omega
  have not_right : ¬ (here.addr ≤ addr + size ∧ here.size ≠ 0) := by
    rintro ⟨near, live⟩
    cases rest with
    | nil =>
      obtain ⟨rfl, -⟩ : delimiter = here ∧ [] = back := by simpa using here_eq
      exact live cleared
    | cons seg later =>
      obtain ⟨rfl, -⟩ : seg = here ∧ later ++ [delimiter] = back := by simpa using here_eq
      have beyond : addr < seg.addr := by simpa [live] using found
      have away := detached seg (by simp [segs_eq])
      omega
  simp only [rmfreePass, walked, bind, Except.bind, no_left, ulong_of_lt no_wrap, if_neg not_right,
    full, if_true]
  cases discardOne m ⟨front, here, back⟩ with
  | error fault => rfl
  | ok after => rfl

theorem sensible_free (positive : intNonpos size = false) (addr_pos : addr ≠ 0) :
    rmfree m size addr = rmfreeLoop size addr 2 m := by
  rw [rmfree, if_neg]
  rw [positive]
  simpa using addr_pos

/-- The overflow branch on a full map of one segment. -/
theorem rmfree_single (inv : RepInv m) (positive : intNonpos size = false) (addr_pos : addr ≠ 0)
    (no_wrap : addr + size < 2 ^ 32) (full : m.free = 0) (detached : Detached m size addr)
    (one : m.cap = 1) :
    rmfree m size addr = .error .beforeStart := by
  obtain ⟨front, rest, here, back, delimiter, segs_eq, shape, here_eq, cleared, passed⟩ :=
    rmfreePass_full inv no_wrap full detached
  have rest_live : ∀ seg ∈ rest, seg.size ≠ 0 := fun seg member => shape.live seg (by simp [member])
  have short : (front ++ rest).length = 1 := by
    have free_eq := shape.free_eq
    omega
  obtain ⟨seg, only⟩ := length_eq_one_iff.mp short
  have stray : discardOne m ⟨front, here, back⟩ = .error .beforeStart := by
    simp only [discardOne, ← here_eq, walk_delimiter rest delimiter [] rest_live cleared, bind,
      Except.bind, only]
    rfl
  rw [sensible_free positive addr_pos, rmfreeLoop, passed, stray]
  rfl

/-- One of two segments is given up. -/
theorem space_discarded {others : List Seg} {previous last : Seg} {after : Map} (inv : RepInv m)
    (segs_eq : segments m = others ++ [previous, last])
    (kept : segments after = others ++ [if previous.size < last.size then last else previous]) :
    ∃ lost, GivenUp m lost ∧ space after = space m \ Set.Ico lost.addr (lost.addr + lost.size) := by
  by_cases smaller : previous.size < last.size
  · rw [if_pos smaller] at kept
    refine ⟨previous, ⟨others, previous, last, segs_eq, .inl rfl, Nat.le_refl _, smaller.le⟩,
      space_of_taken inv ?_⟩
    rw [held, held, segs_eq, kept]
    simpa [Seg.span] using perm_append_comm_assoc _ _ _
  · rw [if_neg smaller] at kept
    refine ⟨last, ⟨others, previous, last, segs_eq, .inr rfl, by omega, Nat.le_refl _⟩,
      space_of_taken inv ?_⟩
    rw [held, held, segs_eq, kept]
    simp only [flatMap_append, flatMap_cons, flatMap_nil, append_nil]
    rw [← append_assoc]
    exact perm_append_comm

/-- A detached range goes to a full map after one segment was given up. -/
theorem rmfree_discards (inv : RepInv m) (positive : intNonpos size = false) (addr_pos : addr ≠ 0)
    (no_wrap : addr + size < 2 ^ 32) (disjoint : Disjoint (Set.Ico addr (addr + size)) (space m))
    (full : m.free = 0) (detached : Detached m size addr) (two : m.cap ≠ 1) :
    ∃ lost after, GivenUp m lost ∧ rmfree m size addr = .ok after ∧ RepInv after ∧
      space after = space m \ Set.Ico lost.addr (lost.addr + lost.size) ∪ Set.Ico addr
        (addr + size) := by
  obtain ⟨front, rest, here, back, delimiter, segs_eq, shape, here_eq, cleared, passed⟩ :=
    rmfreePass_full inv no_wrap full detached
  have cap_pos := inv.cap_pos
  obtain ⟨kept, discarded, kept_inv, kept_free, others, previous, last, split, kept_eq⟩ :=
    discardOne_ok shape here_eq cleared (by omega)
  obtain ⟨lost, given_up, kept_space⟩ := space_discarded inv (segs_eq.trans split) kept_eq
  have size_pos := (positive_of_intNonpos positive).1
  rw [sensible_free positive addr_pos, rmfreeLoop, passed, discarded]
  simp only [Except.map, bind, Except.bind, rmfreeLoop]
  have ends := rmfreePass_ends kept_inv size addr size_pos no_wrap
  generalize rmfreePass kept size addr = outcome at ends
  cases ends with
  | @overlap message a free low high =>
    have still : a ∈ space m := by
      have free : a ∈ space kept := free
      rw [kept_space] at free
      exact free.1
    exact absurd still (Set.disjoint_left.mp disjoint ⟨low, high⟩)
  | @done after freed =>
    refine ⟨lost, _, given_up, rfl, freed.inv.woken, ?_⟩
    rw [← kept_space, ← freed.space_eq]
    rfl
  | retry full => exact absurd full kept_free
  | single full => exact absurd full kept_free

theorem rmfree_acts_iff (inv : RepInv m) (positive : intNonpos size = false) (addr_pos : addr ≠ 0)
    (no_wrap : addr + size < 2 ^ 32) (disjoint : Disjoint (Set.Ico addr (addr + size)) (space m)) :
    FreesRange m size addr ↔ ¬ (m.cap = 1 ∧ m.free = 0 ∧ Detached m size addr) := by
  obtain ⟨size_pos, size_lt⟩ := positive_of_intNonpos positive
  have absent : ∀ a ∈ held m, ¬ (addr ≤ a ∧ a < addr + size) := fun a free inside =>
    Set.disjoint_left.mp disjoint inside free
  rw [FreesRange, abuts_iff inv disjoint]
  constructor
  · rintro acts ⟨one, full, detached⟩
    obtain ⟨lost, after, -, freed, -⟩ :=
      acts.2 (not_or.mpr ⟨not_not_intro full, not_not_intro detached⟩)
    rw [rmfree_single inv positive addr_pos no_wrap full detached one] at freed
    exact nomatch freed
  · intro room
    constructor
    · intro slot
      obtain ⟨after, freed_eq, freed⟩ :=
        rmfree_spec inv addr_pos size_pos size_lt no_wrap absent slot
      exact ⟨after, freed_eq, freed.inv, freed.space_eq⟩
    · intro no_slot
      obtain ⟨full, detached⟩ := not_or.mp no_slot
      rw [not_not] at full detached
      exact rmfree_discards inv positive addr_pos no_wrap disjoint full detached fun one =>
        room ⟨one, full, detached⟩

/-- A call on a well-formed map acts on the set of free units as it should, exactly when it is
covered. -/
theorem acts_on_set_iff (m : Map) (inv : RepInv m) (request : Request)
    (requested : Requested m request) :
    ActsOnSet m request ↔ Covered m request := by
  cases request with
  | alloc size => exact iff_of_true (rmalloc_acts inv requested) trivial
  | get size addr => exact rmget_acts_iff inv requested addr.isLt
  | free size addr =>
    obtain ⟨positive, addr_pos, no_wrap, disjoint⟩ := requested
    exact rmfree_acts_iff inv positive addr_pos no_wrap disjoint

/-- Two segments fill a map of capacity two; the smaller one is given up for a new range. -/
theorem acts_on_set_two_segments :
    ActsOnSet ⟨0, 0, 2, [⟨5, 100⟩, ⟨3, 200⟩, ⟨0, 0⟩]⟩ (.free 4 300) ↔
      Covered ⟨0, 0, 2, [⟨5, 100⟩, ⟨3, 200⟩, ⟨0, 0⟩]⟩ (.free 4 300) := by
  have segs_eq : segments ⟨0, 0, 2, [⟨5, 100⟩, ⟨3, 200⟩, ⟨0, 0⟩]⟩ = [⟨5, 100⟩, ⟨3, 200⟩] := by
    decide
  refine acts_on_set_iff _ ?_ _ ⟨by decide, by decide, by decide, ?_⟩
  · refine ⟨?_, ?_, by decide, rfl, by decide, by decide, by decide⟩
    · rw [segs_eq]
      simp [Apart]
    · rw [segs_eq]
      decide
  · rw [Set.disjoint_left]
    rintro a ⟨low, -⟩ free
    obtain ⟨seg, member, -, high⟩ := mem_space.mp free
    simp only [segs_eq, mem_cons, not_mem_nil, or_false] at member
    have below : 300 ≤ a := low
    rcases member with rfl | rfl <;> simp only at high <;> omega

/-- A full map of one segment cannot give up the smaller of its last two. -/
theorem one_segment_not_given_up :
    ¬ ∀ m, RepInv m → ∀ request, Requested m request → ActsOnSet m request := by
  intro always
  have segs_eq : segments ⟨0, 0, 1, [⟨5, 100⟩, ⟨0, 0⟩]⟩ = [⟨5, 100⟩] := by decide
  have inv : RepInv ⟨0, 0, 1, [⟨5, 100⟩, ⟨0, 0⟩]⟩ := by
    refine ⟨?_, ?_, by decide, rfl, by decide, by decide, by decide⟩
    · rw [segs_eq]
      simp
    · rw [segs_eq]
      decide
  have requested : Requested ⟨0, 0, 1, [⟨5, 100⟩, ⟨0, 0⟩]⟩ (.free 5 200) := by
    refine ⟨by decide, by decide, by decide, Set.disjoint_left.mpr ?_⟩
    rintro a ⟨low, -⟩ free
    obtain ⟨seg, member, -, high⟩ := mem_space.mp free
    rw [segs_eq, mem_singleton] at member
    have below : 200 ≤ a := low
    rw [member] at high
    simp only at high
    omega
  have acts := always _ inv (.free 5 200) requested
  have covered := (rmfree_acts_iff inv requested.1 requested.2.1 requested.2.2.1 requested.2.2.2).mp
    acts
  exact covered (by decide)

/-! ## Lending -/

/-- `rmalloc` or `rmget` returns an address. -/
def Takes (m : Map) (size a : Nat) (m' : Map) : Prop :=
  intNonpos size = false ∧ (rmalloc m size = .ok (a, m') ∨
    ∃ addr, addr + size < 2 ^ 32 ∧ rmget m size addr = .ok (a, m'))

/-- A map that units are taken out of and given back to, and the units that are out. -/
inductive Lent (m₀ : Map) : Set Nat → Map → Prop
  | start : Lent m₀ ∅ m₀
  | take {out : Set Nat} {m m' : Map} {size a : Nat} : Lent m₀ out m → Takes m size a m' →
      Lent m₀ (if a = 0 then out else out ∪ Set.Ico a (a + size)) m'
  | give {out : Set Nat} {m m' : Map} {size addr : Nat} : Lent m₀ out m →
      intNonpos size = false → addr ≠ 0 → Set.Ico addr (addr + size) ⊆ out →
      rmfree m size addr = .ok m' → Lent m₀ (out \ Set.Ico addr (addr + size)) m'

variable {m₀ m' : Map} {out : Set Nat}

theorem Takes.spec (takes : Takes m size a m') (inv : RepInv m) : a = 0 ∧ m' = m ∨ RepInv m' ∧
    Set.Ico a (a + size) ⊆ space m ∧ space m' = space m \ Set.Ico a (a + size) := by
  obtain ⟨positive, granted | ⟨addr, no_wrap, granted⟩⟩ := takes
  · rcases rmalloc_acts inv positive with ⟨b, after, eq, ⟨⟨seg, mem, rfl, fits⟩, -⟩, kept, less⟩ |
      ⟨-, eq⟩ <;> cases eq.symm.trans granted
    · exact .inr ⟨kept, fun x ⟨low, high⟩ => mem_space.2 ⟨seg, mem, low, by omega⟩, less⟩
    · exact .inl ⟨rfl, rfl⟩
  · obtain ⟨takes, refuses⟩ := rmget_acts inv positive no_wrap
    by_cases room : Set.Ico addr (addr + size) ⊆ space m ∧ ¬ (Splits m size addr ∧ m.free = 0)
    · obtain ⟨after, eq, kept, less⟩ := takes room
      cases eq.symm.trans granted
      exact .inr ⟨kept, room.1, less⟩
    · cases (refuses room).symm.trans granted
      exact .inl ⟨rfl, rfl⟩

theorem frees_of_out (inv₀ : RepInv m₀) (inv : RepInv m) (apart : Disjoint out (space m))
    (within : out ⊆ space m₀) (positive : intNonpos size = false) (addr_pos : addr ≠ 0)
    (are_out : Set.Ico addr (addr + size) ⊆ out) : addr + size < 2 ^ 32 ∧
      (FreesRange m size addr ↔ ¬ (m.cap = 1 ∧ m.free = 0 ∧ Detached m size addr)) := by
  have size_pos := (positive_of_intNonpos positive).1
  obtain ⟨seg, mem, -, high⟩ := mem_space.1
    (within (@are_out (addr + size - 1) ⟨by omega, by omega⟩))
  have := inv₀.bounded seg mem
  exact ⟨by omega, rmfree_acts_iff inv positive addr_pos (by omega) (apart.mono_left are_out)⟩

/-- However units are taken and given back, none is handed out while it is out, and all that are
out can be given back. -/
theorem lent_apart (inv₀ : RepInv m₀) (lent : Lent m₀ out m) :
    RepInv m ∧ Disjoint out (space m) ∧ out ∪ space m ⊆ space m₀ ∧
      (∀ size a m', Takes m size a m' → a ≠ 0 → Set.Ico a (a + size) ⊆ space m) ∧
      ∀ size addr, intNonpos size = false → addr ≠ 0 → Set.Ico addr (addr + size) ⊆ out →
        (FreesRange m size addr ↔ ¬ (m.cap = 1 ∧ m.free = 0 ∧ Detached m size addr)) := by
  have ⟨inv, apart, within⟩ : RepInv m ∧ Disjoint out (space m) ∧ out ∪ space m ⊆ space m₀ := by
    induction lent with
    | start => exact ⟨inv₀, Set.empty_disjoint _, (Set.empty_union _).subset⟩
    | @take out m m' size a _ takes ih =>
      obtain ⟨inv, apart, within⟩ := ih
      rcases takes.spec inv with ⟨rfl, rfl⟩ | ⟨inv', free, less⟩
      · exact ⟨inv, apart, within⟩
      rw [Set.disjoint_left] at apart ⊢
      rw [less]
      exact ⟨inv', by split_ifs <;> grind⟩
    | @give out m m' size addr _ positive addr_pos are_out freed ih =>
      obtain ⟨inv, apart, within⟩ := ih
      obtain ⟨no_wrap, frees⟩ := frees_of_out inv₀ inv apart
        (Set.subset_union_left.trans within) positive addr_pos are_out
      obtain ⟨slot, no_slot⟩ := frees.2 fun ⟨one, full, detached⟩ => by
        rw [rmfree_single inv positive addr_pos no_wrap full detached one] at freed
        cases freed
      rw [Set.disjoint_left] at apart ⊢
      by_cases room : m.free ≠ 0 ∨ Abuts m size addr
      · obtain ⟨after, eq, inv', more⟩ := slot room
        cases eq.symm.trans freed
        exact ⟨inv', by grind, by grind⟩
      · obtain ⟨lost, after, -, eq, inv', more⟩ := no_slot room
        cases eq.symm.trans freed
        exact ⟨inv', by grind, by grind⟩
  refine ⟨inv, apart, within, fun size a m' takes nonzero => ?_,
    fun size addr positive addr_pos are_out => (frees_of_out inv₀ inv apart
      (Set.subset_union_left.trans within) positive addr_pos are_out).2⟩
  rcases takes.spec inv with ⟨zero, -⟩ | ⟨-, free, -⟩
  · exact absurd zero nonzero
  · exact free

/-- Two units are taken, and one of them is given back. -/
theorem lent_apart_two : Disjoint (Set.Ico 10 12 \ Set.Ico 10 11)
    (space ⟨0, 0, 2, [⟨1, 10⟩, ⟨3, 12⟩, ⟨0, 0⟩]⟩) := by
  have two : Lent ⟨1, 0, 2, [⟨5, 10⟩, ⟨0, 0⟩, ⟨0, 0⟩]⟩ (∅ ∪ Set.Ico 10 12) _ :=
    @Lent.take _ _ _ ⟨1, 0, 2, [⟨3, 12⟩, ⟨0, 0⟩, ⟨0, 0⟩]⟩ 2 10 .start ⟨by decide, .inl (by decide)⟩
  rw [Set.empty_union] at two
  exact (lent_apart (repInv_of_reached (.init 5 10 8 (by simp [Sound]) (by decide)))
    (@Lent.give _ _ _ _ 1 10 two (by decide) (by decide) (Set.Ico_subset_Ico_right (by decide))
      (by decide))).2.1

end Sol25.Rmap
