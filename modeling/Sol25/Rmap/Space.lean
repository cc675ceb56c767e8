import Mathlib.Data.List.Pairwise
import Mathlib.Data.List.Perm.Basic
import Sol25.Rmap.Invariant

/-!
# The space of a resource map

The addresses that a map holds.  `rmalloc_locked` takes a range of them out of the map and `rmfree`
puts one back, and neither touches any other address, as long as the array has a slot for every
segment.
-/

namespace Sol25.Rmap

open List

/-- The addresses of a segment. -/
def Seg.span (seg : Seg) : List Nat := List.range' seg.addr seg.size

/-- The addresses that a map holds. -/
def held (m : Map) : List Nat := (segments m).flatMap Seg.span

variable {back dead front rest segs : List Seg} {m : Map} {here : Seg}

theorem mem_held {a : Nat} :
    a ∈ held m ↔ ∃ seg ∈ segments m, seg.addr ≤ a ∧ a < seg.addr + seg.size := by
  simp [held, Seg.span, mem_range'_1]

theorem Shape.held_eq (shape : Shape m segs dead) : held m = segs.flatMap Seg.span := by
  rw [held, shape.segments_eq]

/-- Exchange the middle of the segments for one segment. -/
theorem Shape.spliceOne {middle : List Seg} (shape : Shape m (front ++ middle ++ back) dead)
    (seg : Seg) (dead' : List Seg) (m' : Map)
    (slots_eq : m'.slots = front ++ seg :: (back ++ dead')) (cap_eq : m'.cap = m.cap)
    (nonempty : seg.size ≠ 0) (bounded : seg.addr + seg.size < 2 ^ 32)
    (left : ∀ low ∈ front, low.addr + low.size < seg.addr)
    (right : ∀ high ∈ back, seg.addr + seg.size < high.addr) (zero : ∀ slot ∈ dead', slot.size = 0)
    (free_eq : m'.free + 1 = m.free + middle.length) (dead_length : dead'.length = m'.free + 1) :
    Shape m' (front ++ [seg] ++ back) dead' := by
  refine shape.splice [seg] dead' m' (by simpa using slots_eq) cap_eq (by simpa using nonempty) zero
    (by simp) (by simpa using bounded) ?_ ?_ free_eq dead_length
  · intro low member other other_mem
    rw [mem_singleton.mp other_mem]
    exact left low member
  · intro other other_mem high member
    rw [mem_singleton.mp other_mem]
    exact right high member

/-! ## Taking space out -/

/-- `rmalloc_locked` takes a range from the first segment that is large enough, or finds none. -/
theorem rmallocLocked_spec (inv : RepInv m) (size : Nat) :
    (rmallocLocked m size = .ok (0, m) ∧ ∀ seg ∈ segments m, seg.size < size) ∨
      ∃ seg ∈ segments m, ∃ m', rmallocLocked m size = .ok (seg.addr, m') ∧ size ≤ seg.size ∧
        RepInv m' ∧ m'.cap = m.cap ∧ (held m).Perm (List.range' seg.addr size ++ held m') ∧
        ∀ other ∈ segments m, size ≤ other.size → seg.addr ≤ other.addr := by
  have shape := inv.shape
  obtain ⟨delimiter, rest, dead_eq, cleared, -⟩ := shape.dead_cons
  rw [dead_eq] at shape
  obtain ⟨front, remaining, here, back, segs_eq, here_eq, walked, found, passed⟩ :=
    walk_ok (fun slot => slot.size == 0 || decide (size ≤ slot.size)) (by simp +contextual)
      (segments m) delimiter rest cleared
  have too_small : ∀ seg ∈ front, seg.size < size := by
    intro seg member
    have skipped := passed seg member
    simp only [Bool.or_eq_false_iff, decide_eq_false_iff_not] at skipped
    omega
  rw [← shape.slots_eq] at walked
  simp only [rmallocLocked, walked, bind, Except.bind, pure, Except.pure]
  cases remaining with
  | nil =>
    obtain ⟨rfl, rfl⟩ : delimiter = here ∧ rest = back := by simpa using here_eq
    left
    rw [if_pos cleared]
    refine ⟨rfl, ?_⟩
    rw [segs_eq, append_nil]
    exact too_small
  | cons seg later =>
    obtain ⟨rfl, rfl⟩ : seg = here ∧ later ++ delimiter :: rest = back := by
      simpa using here_eq
    have shape' : Shape m (front ++ [seg] ++ later) (delimiter :: rest) := by
      simpa [segs_eq] using shape
    have seg_live : seg.size ≠ 0 := shape'.live seg (by simp)
    have fits : size ≤ seg.size := by simpa [seg_live] using found
    have seg_bounded := shape'.bounded seg (by simp)
    have later_live : ∀ other ∈ later, other.size ≠ 0 := fun other member =>
      shape'.live other (by simp [member])
    have lowest : ∀ other ∈ segments m, size ≤ other.size → seg.addr ≤ other.addr := by
      intro other member large
      rw [segs_eq] at member
      rcases mem_append.mp member with member | member
      · have small := too_small other member
        omega
      · rcases mem_cons.mp member with rfl | member
        · exact Nat.le_refl _
        · have beyond := shape'.around.2 other member
          omega
    right
    refine ⟨seg, by simp [segs_eq], ?_⟩
    simp only [seg_live, if_false]
    by_cases whole : seg.size - size = 0
    · rw [if_pos whole, compress_ok _ later delimiter rest later_live cleared]
      refine ⟨_, rfl, fits, shape'.remove.repInv, rfl, ?_, lowest⟩
      obtain rfl : seg.size = size := by omega
      rw [shape'.held_eq, shape'.remove.held_eq]
      simpa [Seg.span] using perm_append_comm_assoc _ _ _
    · rw [if_neg whole, ulong_of_lt (by omega)]
      have shrunk := shape'.shrink ⟨seg.size - size, seg.addr + size⟩ whole (by simp)
        (by simp only; omega)
      refine ⟨_, rfl, fits, shrunk.repInv, rfl, ?_, lowest⟩
      have cut : seg.span = List.range' seg.addr size ++
          Seg.span ⟨seg.size - size, seg.addr + size⟩ := by
        simp only [Seg.span]
        rw [range'_append_1, Nat.add_sub_cancel' fits]
      rw [shape'.held_eq, shrunk.held_eq]
      simpa [cut] using perm_append_comm_assoc _ _ _

/-- How `rmget` may end: no segment holds the address, or the one that does is too short or would
have to be split without a slot for it, or the range is taken. -/
inductive GetEnds (m : Map) (size addr : Nat) : Except Fault (Nat × Map) → Prop
  | outside (away : ∀ seg ∈ segments m, ¬ (seg.addr ≤ addr ∧ addr < seg.addr + seg.size)) :
      GetEnds m size addr (.ok (0, m))
  | short {seg : Seg} (member : seg ∈ segments m) (starts : seg.addr ≤ addr)
      (inside : addr < seg.addr + seg.size) (short : seg.addr + seg.size < addr + size) :
      GetEnds m size addr (.ok (0, m))
  | full {seg : Seg} (member : seg ∈ segments m) (starts : seg.addr < addr)
      (ends : addr + size < seg.addr + seg.size) (full : m.free = 0) :
        GetEnds m size addr (.ok (0, m))
  | taken {seg : Seg} {m' : Map} (member : seg ∈ segments m) (starts : seg.addr ≤ addr)
      (ends : addr + size ≤ seg.addr + seg.size)
      (room : seg.addr < addr → addr + size < seg.addr + seg.size → m.free ≠ 0) (inv : RepInv m')
      (held : (held m).Perm (List.range' addr size ++ held m')) :
        GetEnds m size addr (.ok (addr, m'))

theorem ulong_sub {value less : Nat} (le : less ≤ value) (small : value < 2 ^ 32) :
    ulong (value + 2 ^ 32 - less) = value - less := by
  simp only [ulong]
  omega

theorem span_cut {seg : Seg} {size addr : Nat} (starts : seg.addr ≤ addr)
    (ends : addr + size ≤ seg.addr + seg.size) :
    seg.span = List.range' seg.addr (addr - seg.addr) ++ (List.range' addr size ++
      List.range' (addr + size) (seg.addr + seg.size - (addr + size))) := by
  have low : addr = seg.addr + (addr - seg.addr) := by omega
  have middle : List.range' addr size ++ List.range' (addr + size)
    (seg.addr + seg.size - (addr + size)) = List.range' addr (seg.addr + seg.size - addr) := by
    rw [range'_append_1]
    congr 1
    omega
  rw [middle]
  nth_rewrite 2 [low]
  rw [range'_append_1, Seg.span]
  congr 1
  omega

theorem perm_cut {front back low high : List Nat} {seg : Seg} {size addr : Nat}
    (low_eq : low = List.range' seg.addr (addr - seg.addr))
    (high_eq : high = List.range' (addr + size) (seg.addr + seg.size - (addr + size)))
    (starts : seg.addr ≤ addr) (ends : addr + size ≤ seg.addr + seg.size) :
    (front ++ (seg.span ++ back)).Perm
      (List.range' addr size ++ (front ++ (low ++ (high ++ back)))) := by
  rw [span_cut starts ends, ← low_eq, ← high_eq]
  simp only [append_assoc]
  refine List.Perm.trans ?_
    (perm_append_comm_assoc front (List.range' addr size) (low ++ (high ++ back)))
  exact (perm_append_comm_assoc low (List.range' addr size) (high ++ back)).append_left front

/-- `rmget` on a well-formed map. -/
theorem rmget_ends (inv : RepInv m) {size addr : Nat} (positive : intNonpos size = false)
    (no_wrap : addr + size < 2 ^ 32) : GetEnds m size addr (rmget m size addr) := by
  have shape := inv.shape
  obtain ⟨delimiter, rest, dead_eq, cleared, rest_length⟩ := shape.dead_cons
  rw [dead_eq] at shape
  obtain ⟨front, remaining, here, back, segs_eq, here_eq, walked, found, passed⟩ :=
    walk_ok (fun slot => slot.size == 0 ||
      (decide (slot.addr ≤ addr) && decide (addr < ulong (slot.addr + slot.size))))
      (by simp +contextual) (segments m) delimiter rest cleared
  rw [← shape.slots_eq] at walked
  have size_pos : size ≠ 0 := by
    rintro rfl
    simp [intNonpos] at positive
  simp only [rmget, positive, walked, bind, Except.bind, pure, Except.pure, Bool.false_eq_true,
    if_false]
  cases remaining with
  | nil =>
    obtain ⟨rfl, rfl⟩ : delimiter = here ∧ rest = back := by simpa using here_eq
    rw [if_pos cleared]
    refine .outside fun seg member => ?_
    have bounded := shape.bounded seg member
    have live := shape.live seg member
    rw [segs_eq, append_nil] at member
    have skipped := passed seg member
    simpa [live, ulong_of_lt bounded] using skipped
  | cons seg later =>
    obtain ⟨rfl, rfl⟩ : seg = here ∧ later ++ delimiter :: rest = back := by
      simpa using here_eq
    have shape' : Shape m (front ++ [seg] ++ later) (delimiter :: rest) := by
      simpa [segs_eq] using shape
    have member : seg ∈ segments m := by simp [segs_eq]
    have seg_live : seg.size ≠ 0 := shape'.live seg (by simp)
    have seg_bounded := shape'.bounded seg (by simp)
    have later_live : ∀ other ∈ later, other.size ≠ 0 := fun other member =>
      shape'.live other (by simp [member])
    simp only [ulong_of_lt seg_bounded, ulong_of_lt no_wrap] at found ⊢
    obtain ⟨starts, inside⟩ : seg.addr ≤ addr ∧ addr < seg.addr + seg.size := by
      simpa [seg_live] using found
    rw [if_neg seg_live]
    by_cases short : seg.addr + seg.size < addr + size
    · rw [if_pos short]
      exact .short member starts inside short
    rw [if_neg short]
    have ends : addr + size ≤ seg.addr + seg.size := by omega
    by_cases at_start : seg.addr = addr
    · rw [if_pos at_start]
      by_cases whole : seg.size = size
      · rw [if_pos whole, compress_ok _ later delimiter rest later_live cleared]
        refine .taken member starts ends (fun before => by omega) shape'.remove.repInv ?_
        rw [shape'.held_eq, shape'.remove.held_eq]
        have cut := @perm_cut (front.flatMap Seg.span) (later.flatMap Seg.span) [] [] seg size addr
          (by simp [at_start]) (by simp [at_start, whole]) starts ends
        simpa using cut
      · rw [if_neg whole]
        have low : ulong (seg.addr + size) = seg.addr + size := ulong_of_lt (by omega)
        rw [low, ulong_sub (by omega) (by omega)]
        have shrunk := shape'.shrink ⟨seg.size - size, seg.addr + size⟩ (by simp only; omega)
          (by simp) (by simp only; omega)
        refine .taken member starts ends (fun before => by omega) shrunk.repInv ?_
        rw [shape'.held_eq, shrunk.held_eq]
        have cut := @perm_cut (front.flatMap Seg.span) (later.flatMap Seg.span) []
          (Seg.span ⟨seg.size - size, seg.addr + size⟩) seg size addr (by simp [at_start])
          (by rw [Seg.span, at_start]; congr 1; simp only; omega) starts ends
        simpa using cut
    rw [if_neg at_start]
    by_cases at_end : seg.addr + seg.size = addr + size
    · rw [if_pos at_end, ulong_sub (by omega) (by omega)]
      have shrunk := shape'.shrink ⟨seg.size - size, seg.addr⟩ (by simp only; omega)
        (by simp) (by simp only; omega)
      refine .taken member starts ends (fun _ after => by omega) shrunk.repInv ?_
      rw [shape'.held_eq, shrunk.held_eq]
      have cut := @perm_cut (front.flatMap Seg.span) (later.flatMap Seg.span)
        (Seg.span ⟨seg.size - size, seg.addr⟩) [] seg size addr
          (by rw [Seg.span]; congr 1; simp only; omega)
        (by simp [at_end]) starts ends
      simpa using cut
    rw [if_neg at_end]
    unfold splitSegment
    by_cases full : m.free = 0
    · simp only [full, pure, Except.pure, if_true]
      exact .full member (by omega) (by omega) full
    rw [if_neg full]
    have spare_exists : rest.length = m.free - 1 + 1 := by omega
    obtain ⟨spare, dead, rfl⟩ := exists_cons_of_length_eq_add_one spare_exists
    simp only [walk_delimiter later delimiter (spare :: dead) later_live cleared, bind,
      Except.bind, pure, Except.pure]
    rw [ulong_of_lt no_wrap, ulong_of_lt seg_bounded, ulong_sub starts (by omega),
      ulong_sub ends seg_bounded]
    have cut_in_two := shape'.split addr (addr + size) (by omega) (by omega) (by omega)
    refine .taken member starts ends (fun _ _ => full) cut_in_two.repInv ?_
    rw [shape'.held_eq, cut_in_two.held_eq]
    have cut := @perm_cut (front.flatMap Seg.span) (later.flatMap Seg.span)
      (Seg.span ⟨addr - seg.addr, seg.addr⟩)
        (Seg.span ⟨seg.addr + seg.size - (addr + size), addr + size⟩) seg size addr
      rfl rfl starts ends
    simpa using cut

/-! ## Putting space back -/

/-- The range neither overlaps nor abuts a segment of the map. -/
def Detached (m : Map) (size addr : Nat) : Prop :=
  ∀ seg ∈ segments m, seg.addr + seg.size < addr ∨ addr + size < seg.addr

instance (m : Map) (size addr : Nat) : Decidable (Detached m size addr) :=
  List.decidableBAll _ _

theorem leftNeighbour_eq_some {bp : Cursor} {addr : Nat} {left : Seg}
    (found : leftNeighbour bp addr = some left) :
    ∃ front, bp.front = front ++ [left] ∧ addr ≤ ulong (left.addr + left.size) := by
  obtain ⟨last, reaches⟩ := Option.filter_eq_some_iff.mp found
  obtain ⟨front, front_eq⟩ := getLast?_eq_some_iff.mp last
  exact ⟨front, front_eq, by simpa using reaches⟩

/-- Without a left neighbour every segment before the pointer ends below `addr`. -/
theorem below_of_leftNeighbour_none {addr : Nat} (shape : Shape m (front ++ rest) dead)
    (missing : leftNeighbour ⟨front, here, back⟩ addr = none) :
    ∀ seg ∈ front, seg.addr + seg.size < addr := by
  intro seg member
  obtain ⟨init, last, rfl⟩ : ∃ init last, front = init ++ [last] :=
    ⟨_, _, (dropLast_append_getLast (ne_nil_of_mem member)).symm⟩
  have last_bounded := shape.bounded last (by simp)
  have last_below : last.addr + last.size < addr := by
    simpa [leftNeighbour, ulong_of_lt last_bounded] using missing
  have shape' : Shape m (init ++ [last] ++ rest) dead := shape
  rcases mem_append.mp member with member | member
  · have := shape'.around.1 seg member
    omega
  · obtain rfl : seg = last := by simpa using member
    exact last_below

/-- The range was put into the map. -/
structure Freed (m : Map) (size addr : Nat) (after : Map) : Prop where
  inv : RepInv after
  cap : after.cap = m.cap
  held : (held after).Perm (List.range' addr size ++ held m)

/-- How a pass of `rmfree` may end: it panics when part of the range is already in the map; it puts
the range in; or it has to discard a segment because the array is full. -/
inductive PassEnds (m : Map) (size addr : Nat) : Except Fault Pass → Prop
  | overlap {message : String} {a : Nat} (here : a ∈ held m) (low : addr ≤ a)
      (high : a < addr + size) :
      PassEnds m size addr (.error (.panic message))
  | done {after : Map} (freed : Freed m size addr after) : PassEnds m size addr (.ok (.done after))
  | retry {after : Map} (full : m.free = 0) (detached : Detached m size addr) (inv : RepInv after)
      (free : after.free ≠ 0) : PassEnds m size addr (.ok (.retry after))
  | single {outcome : Except Fault Pass} (full : m.free = 0) (detached : Detached m size addr)
      (one : m.cap = 1) : PassEnds m size addr outcome

theorem span_append {size addr more : Nat} :
    (⟨size, addr⟩ : Seg).span ++ List.range' (addr + size) more =
      (⟨size + more, addr⟩ : Seg).span :=
  range'_append_1

theorem combineLeft_ends {left delimiter : Seg}
    (shape : Shape m (front ++ [left] ++ rest) (delimiter :: dead))
    (here_eq : rest ++ delimiter :: dead = here :: back) (cleared : delimiter.size = 0)
    (size addr : Nat) (positive : size ≠ 0) (no_wrap : addr + size < 2 ^ 32)
    (starts : left.addr ≤ addr) (reaches : addr ≤ left.addr + left.size)
    (beyond : here.size ≠ 0 → addr < here.addr) :
    PassEnds m size addr (combineLeft m ⟨front ++ [left], here, back⟩ left size addr) := by
  have left_bounded := shape.bounded left (by simp)
  have left_live := shape.live left (by simp)
  obtain ⟨before, after⟩ := shape.around
  simp only [combineLeft, ulong_of_lt left_bounded, ulong_of_lt no_wrap]
  by_cases overlap : addr < left.addr + left.size
  · rw [if_pos overlap]
    refine .overlap (a := addr) (mem_held.mpr ⟨left, ?_, starts, overlap⟩)
      (Nat.le_refl _) (by omega)
    rw [shape.segments_eq]
    simp
  rw [if_neg overlap]
  obtain rfl : addr = left.addr + left.size := by omega
  have grown : ulong (left.size + size) = left.size + size := ulong_of_lt (by omega)
  simp only [grown, dropLast_concat, pure, Except.pure, bind, Except.bind]
  -- Growing the left piece keeps it apart from whatever follows at a distance.
  have enlarge (high_ok : ∀ high ∈ rest, left.addr + left.size + size < high.addr) :
      Freed m size (left.addr + left.size)
        { m with slots := front ++ ⟨left.size + size, left.addr⟩ :: here :: back } := by
    have shape' := shape.spliceOne ⟨left.size + size, left.addr⟩ (delimiter :: dead)
      { m with slots := front ++ ⟨left.size + size, left.addr⟩ :: here :: back }
        (by simp [here_eq]) rfl
      (by simp only; omega) (by simp only; omega) before
      (fun high member => by have := high_ok high member; simp only; omega) shape.zero rfl
      shape.dead_length
    refine ⟨shape'.repInv, rfl, ?_⟩
    rw [shape.held_eq, shape'.held_eq]
    simp only [flatMap_append, flatMap_cons, flatMap_nil, append_nil, ← span_append, append_assoc]
    rw [← append_assoc, ← append_assoc (front.flatMap Seg.span)]
    exact perm_append_comm_assoc _ _ _
  cases rest with
  | nil =>
    obtain ⟨rfl, rfl⟩ : delimiter = here ∧ dead = back := by simpa using here_eq
    rw [if_neg (by simp [cleared])]
    exact .done (enlarge (by simp))
  | cons seg later =>
    obtain ⟨rfl, rfl⟩ : seg = here ∧ later ++ delimiter :: dead = back := by
      simpa using here_eq
    have seg_live := shape.live seg (by simp)
    have seg_bounded := shape.bounded seg (by simp)
    have later_live : ∀ other ∈ later, other.size ≠ 0 := fun other member =>
      shape.live other (by simp [member])
    have shape' : Shape m (front ++ [left] ++ [seg] ++ later) (delimiter :: dead) := by
      simpa using shape
    obtain ⟨-, farther⟩ := shape'.around
    by_cases touches : seg.addr ≤ left.addr + left.size + size
    · rw [if_pos ⟨seg_live, touches⟩]
      by_cases crosses : seg.addr < left.addr + left.size + size
      · rw [if_pos crosses]
        have := beyond seg_live
        refine .overlap (a := seg.addr) (mem_held.mpr ⟨seg, ?_, Nat.le_refl _, by omega⟩) (by omega)
          crosses
        rw [shape.segments_eq]
        simp
      rw [if_neg crosses, compress_ok _ later delimiter dead later_live cleared]
      have meets : seg.addr = left.addr + (left.size + size) := by omega
      have merged : ulong (left.size + size + seg.size) = left.size + size + seg.size :=
        ulong_of_lt (by omega)
      have free_eq := shape.free_eq
      have cap_lt := shape.cap_lt
      have freed : ulong (m.free + 1) = m.free + 1 := ulong_of_lt (by omega)
      have pair : Shape m (front ++ [left, seg] ++ later) (delimiter :: dead) := by
        simpa using shape
      have joined := pair.spliceOne ⟨left.size + size + seg.size, left.addr⟩
        (delimiter :: delimiter :: dead)
        { m with
          slots := front ++ ⟨left.size + size + seg.size, left.addr⟩ ::
            (later ++ delimiter :: delimiter :: dead)
          free := m.free + 1 } rfl rfl (by simp only; omega) (by simp only; omega) before
        (fun high member => by have := farther high member; simp only; omega)
        (by simpa using shape.zero) rfl (by simpa using shape.dead_length)
      simp only [merged, freed]
      refine .done ⟨joined.repInv, rfl, ?_⟩
      have whole : (⟨left.size + size + seg.size, left.addr⟩ : Seg).span =
          left.span ++ List.range' (left.addr + left.size) size ++ seg.span := by
        rw [span_append, ← span_append, ← meets]
        rfl
      rw [shape.held_eq, joined.held_eq]
      simp only [flatMap_append, flatMap_cons, flatMap_nil, append_nil, whole, append_assoc]
      rw [← append_assoc, ← append_assoc (front.flatMap Seg.span)]
      exact perm_append_comm_assoc _ _ _
    · rw [if_neg (by simp [touches])]
      refine .done (enlarge ?_)
      intro high high_mem
      rcases mem_cons.mp high_mem with rfl | member
      · omega
      · have := farther high member
        omega

/-- The overflow branch on a full map that holds at least two segments. -/
theorem discardOne_ok {delimiter : Seg} (shape : Shape m (front ++ rest) [delimiter])
    (here_eq : rest ++ [delimiter] = here :: back) (cleared : delimiter.size = 0)
    (two : 2 ≤ m.cap) :
    ∃ after, discardOne m ⟨front, here, back⟩ = .ok after ∧ RepInv after ∧ after.free ≠ 0 ∧
      ∃ others previous last, front ++ rest = others ++ [previous, last] ∧
        segments after = others ++ [if previous.size < last.size then last else previous] := by
  have dead_length := shape.dead_length
  have free_eq := shape.free_eq
  have free_zero : m.free = 0 := by simpa using dead_length.symm
  have rest_live : ∀ seg ∈ rest, seg.size ≠ 0 := fun seg member => shape.live seg (by simp [member])
  obtain ⟨others, previous, last, segs_eq⟩ :
      ∃ others previous last, front ++ rest = others ++ [previous, last] := by
    have long : 2 ≤ (front ++ rest).length := by omega
    obtain ⟨init, last, init_eq⟩ : ∃ init last, front ++ rest = init ++ [last] :=
      ⟨_, _, (dropLast_append_getLast (ne_nil_of_length_pos (by omega))).symm⟩
    rw [init_eq, length_append, length_singleton] at long
    obtain ⟨others, previous, rfl⟩ : ∃ others previous, init = others ++ [previous] :=
      ⟨_, _, (dropLast_append_getLast (ne_nil_of_length_pos (by omega))).symm⟩
    exact ⟨others, previous, last, by simpa using init_eq⟩
  have walked := walk_delimiter rest delimiter [] rest_live cleared
  simp only [discardOne, ← here_eq, walked, bind, Except.bind, segs_eq, pure, Except.pure,
    reverse_append, reverse_cons, reverse_nil, nil_append, cons_append]
  rw [segs_eq] at shape
  have freed : ulong (m.free + 1) = 1 := by simp [free_zero, ulong]
  by_cases smaller : previous.size < last.size
  · have shape' : Shape m (others ++ [previous] ++ [last]) [delimiter] := by simpa using shape
    rw [if_pos smaller, freed]
    have kept := shape'.splice [] [{ last with size := 0 }, delimiter]
      { m with slots := others ++ last :: { last with size := 0 } :: [delimiter], free := 1 }
        (by simp) rfl
      (by simp) (by simp [cleared]) (by simp) (by simp) (by simp) (by simp)
      (by simp only [length_nil, length_singleton]; omega) (by simp)
    refine ⟨_, by simp, kept.repInv, by simp, others, previous, last, rfl, ?_⟩
    rw [kept.segments_eq, if_pos smaller, append_nil]
  · have shape' : Shape m ((others ++ [previous]) ++ [last] ++ []) [delimiter] := by
      simpa using shape
    rw [if_neg smaller, freed]
    have kept := shape'.splice [] [delimiter, { delimiter with size := 0 }]
      { m with
        slots := others ++ previous :: delimiter :: [{ delimiter with size := 0 }],
        free := 1 } (by simp) rfl
      (by simp) (by simp [cleared]) (by simp) (by simp) (by simp) (by simp)
      (by simp only [length_nil, length_singleton]; omega) (by simp)
    refine ⟨_, by simp, kept.repInv, by simp, others, previous, last, rfl, ?_⟩
    rw [kept.segments_eq, if_neg smaller, append_nil, append_nil]

/-- A range that meets the segment behind it is joined to it. -/
theorem joinRight_ends {seg : Seg} {later : List Seg}
    (shape : Shape m (front ++ [seg] ++ later) dead) (size addr : Nat)
    (below : ∀ low ∈ front, low.addr + low.size < addr) (beyond : addr < seg.addr)
    (touches : seg.addr ≤ addr + size) :
    PassEnds m size addr (if seg.addr < addr + size then .error (.panic "bad rmfree")
      else .ok (.done { m with
        slots := front ++ ⟨ulong (seg.size + size), ulong (seg.addr + 2 ^ 32 - size)⟩ ::
          (later ++ dead) })) := by
  have seg_bounded := shape.bounded seg (by simp)
  obtain ⟨-, after⟩ := shape.around
  by_cases crosses : seg.addr < addr + size
  · rw [if_pos crosses]
    refine .overlap (a := seg.addr) (mem_held.mpr ⟨seg, ?_, Nat.le_refl _, ?_⟩) (by omega) crosses
    · rw [shape.segments_eq]
      simp
    · have live := shape.live seg (by simp)
      omega
  rw [if_neg crosses]
  have low : ulong (seg.addr + 2 ^ 32 - size) = addr := by
    simp only [ulong]
    omega
  have grown : ulong (seg.size + size) = size + seg.size := by
    rw [Nat.add_comm]
    exact ulong_of_lt (by omega)
  have joined := shape.spliceOne ⟨size + seg.size, addr⟩ dead
    { m with slots := front ++ ⟨size + seg.size, addr⟩ :: (later ++ dead) } rfl rfl
    (by simp only; omega) (by simp only; omega) below
    (fun high member => by have := after high member; simp only; omega) shape.zero rfl
    shape.dead_length
  rw [low, grown]
  refine .done ⟨joined.repInv, rfl, ?_⟩
  have meets : seg.addr = addr + size := by omega
  have whole : (⟨size + seg.size, addr⟩ : Seg).span = List.range' addr size ++ seg.span := by
    rw [← span_append, ← meets]
    rfl
  rw [shape.held_eq, joined.held_eq]
  simp only [flatMap_append, flatMap_cons, flatMap_nil, append_nil, whole, append_assoc]
  exact perm_append_comm_assoc _ _ _

/-- A range that touches no segment is put between two of them, or a segment is thrown away. -/
theorem detached_ends {delimiter : Seg} (shape : Shape m (front ++ rest) (delimiter :: dead))
    (here_eq : rest ++ delimiter :: dead = here :: back) (cleared : delimiter.size = 0)
    (size addr : Nat) (positive : size ≠ 0) (no_wrap : addr + size < 2 ^ 32)
    (below : ∀ low ∈ front, low.addr + low.size < addr)
    (gap : ∀ high ∈ rest, addr + size < high.addr) :
    PassEnds m size addr (if m.free = 0 then do return .retry (← discardOne m ⟨front, here, back⟩)
      else do
        let back ← pushUp ⟨size, addr⟩ (here :: back)
        return .done { m with slots := front ++ back, free := ulong (m.free + 2 ^ 32 - 1) }) := by
  have dead_length := shape.dead_length
  have free_eq := shape.free_eq
  by_cases full : m.free = 0
  · rw [if_pos full]
    obtain rfl : dead = [] := length_eq_zero_iff.mp (by
      rw [full, length_cons] at dead_length
      omega)
    have detached : Detached m size addr := by
      rw [Detached, shape.segments_eq]
      intro seg member
      rcases mem_append.mp member with member | member
      · exact .inl (below seg member)
      · exact .inr (gap seg member)
    by_cases one : m.cap = 1
    · exact .single full detached one
    have cap_pos := shape.cap_pos
    obtain ⟨after, discarded, after_inv, after_free, -⟩ :=
      discardOne_ok shape here_eq cleared (by omega)
    rw [discarded]
    exact .retry full detached after_inv after_free
  rw [if_neg full]
  have rest_live : ∀ seg ∈ rest, seg.size ≠ 0 := fun seg member =>
    shape.live seg (by simp [member])
  rw [← here_eq, pushUp_ok _ rest delimiter dead rest_live cleared]
  have used : ulong (m.free + 2 ^ 32 - 1) = m.free - 1 := by
    have cap_lt := shape.cap_lt
    simp only [ulong]
    omega
  have shape' : Shape m (front ++ [] ++ rest) (delimiter :: dead) := by simpa using shape
  have inserted := shape'.spliceOne ⟨size, addr⟩ dead
    { m with slots := front ++ ⟨size, addr⟩ :: (rest ++ dead), free := m.free - 1 } rfl rfl
    positive no_wrap below gap (fun slot member => shape.zero slot (by simp [member]))
    (by simp only [length_nil]; omega)
    (by simp only [length_cons] at dead_length ⊢; omega)
  rw [used]
  refine .done ⟨inserted.repInv, rfl, ?_⟩
  rw [shape.held_eq, inserted.held_eq]
  simp only [flatMap_append, flatMap_cons, flatMap_nil, append_nil, append_assoc]
  exact perm_append_comm_assoc _ _ _

/-- One pass of `rmfree`. -/
theorem rmfreePass_ends (inv : RepInv m) (size addr : Nat) (positive : size ≠ 0)
    (no_wrap : addr + size < 2 ^ 32) : PassEnds m size addr (rmfreePass m size addr) := by
  have shape := inv.shape
  obtain ⟨delimiter, dead, dead_eq, cleared, dead_length⟩ := shape.dead_cons
  rw [dead_eq] at shape
  obtain ⟨front, rest, here, back, segs_eq, here_eq, walked, found, passed⟩ :=
    walk_ok (fun slot => !(decide (slot.addr ≤ addr) && slot.size != 0)) (by simp +contextual)
      (segments m) delimiter dead cleared
  rw [← shape.slots_eq] at walked
  rw [segs_eq] at shape
  have beyond : here.size ≠ 0 → addr < here.addr := by
    intro live
    simpa [live] using found
  simp only [rmfreePass, walked, bind, Except.bind]
  cases neighbour : leftNeighbour ⟨front, here, back⟩ addr with
  | some left =>
    obtain ⟨init, front_eq, reaches⟩ := leftNeighbour_eq_some neighbour
    simp only at front_eq
    subst front_eq
    have left_bounded := shape.bounded left (by simp)
    have left_live := shape.live left (by simp)
    have starts : left.addr ≤ addr := by
      have := passed left (by simp)
      simpa [left_live] using this
    rw [ulong_of_lt left_bounded] at reaches
    exact combineLeft_ends shape here_eq cleared size addr positive no_wrap starts reaches beyond
  | none =>
    have below := below_of_leftNeighbour_none shape neighbour
    simp only [ulong_of_lt no_wrap, throw, throwThe, MonadExceptOf.throw, pure, Except.pure]
    by_cases touches : here.addr ≤ addr + size ∧ here.size ≠ 0
    · rw [if_pos touches]
      cases rest with
      | nil =>
        obtain ⟨rfl, -⟩ : delimiter = here ∧ dead = back := by simpa using here_eq
        exact absurd cleared touches.2
      | cons seg later =>
        obtain ⟨rfl, rfl⟩ : seg = here ∧ later ++ delimiter :: dead = back := by
          simpa using here_eq
        exact joinRight_ends (by simpa using shape) size addr below
          (beyond touches.2) touches.1
    rw [if_neg touches]
    refine detached_ends shape here_eq cleared size addr positive no_wrap below ?_
    intro seg member
    cases rest with
    | nil => cases member
    | cons first later =>
      obtain ⟨rfl, -⟩ : first = here ∧ later ++ delimiter :: dead = back := by
        simpa using here_eq
      have shape' : Shape m (front ++ [first] ++ later) (delimiter :: dead) := by
        simpa using shape
      have first_live := shape.live first (by simp)
      have far : addr + size < first.addr := by
        by_contra near
        exact touches ⟨by omega, first_live⟩
      rcases mem_cons.mp member with rfl | member
      · exact far
      · have := shape'.around.2 seg member
        omega

theorem RepInv.woken (inv : RepInv m) : RepInv { m with want := 0 } :=
  ⟨inv.apart, inv.bounded, inv.count, inv.length, inv.cleared, inv.cap_pos, inv.cap_lt⟩

/-- `rmfree` puts back a range that the map does not hold, when there is a slot for it. -/
theorem rmfree_spec (inv : RepInv m) {size addr : Nat} (addr_pos : addr ≠ 0) (positive : size ≠ 0)
    (small : size < 2 ^ 31) (no_wrap : addr + size < 2 ^ 32)
    (absent : ∀ a ∈ held m, ¬ (addr ≤ a ∧ a < addr + size))
    (room : m.free ≠ 0 ∨ ¬ Detached m size addr) :
    ∃ after, rmfree m size addr = .ok after ∧ Freed m size addr after := by
  have sensible : ¬ (addr = 0 ∨ intNonpos size = true) := by
    simp [intNonpos]
    omega
  rw [rmfree, if_neg sensible, rmfreeLoop]
  have ends := rmfreePass_ends inv size addr positive no_wrap
  generalize rmfreePass m size addr = outcome at ends
  cases ends with
  | overlap here low high => exact absurd ⟨low, high⟩ (absent _ here)
  | done freed => exact ⟨_, rfl, freed.inv.woken, freed.cap, freed.held⟩
  | retry full detached =>
    rcases room with room | room
    · exact absurd full room
    · exact absurd detached room
  | single full detached =>
    rcases room with room | room
    · exact absurd full room
    · exact absurd detached room

/-! ## A new map -/

/-- An array of slots as `kmem_zalloc` or the loader provides it. -/
def Zeroed (storage : List Seg) : Prop := ∀ slot ∈ storage, slot.size = 0

/-- `mapinit` makes a map that holds the range it is given, unless the array is too small. -/
theorem mapinit_spec {storage : List Seg} {size addr mapsize : Nat}
    (cap_lt : mapsize - mapOverhead < 2 ^ 31) (zeroed : Zeroed storage)
    (length_eq : storage.length = mapsize - mapOverhead + 1) (no_wrap : addr + size < 2 ^ 32) :
    (∃ message, mapinit storage size addr mapsize = .error (.panic message)) ∨
      ∃ m, mapinit storage size addr mapsize = .ok m ∧ RepInv m ∧ m.cap = mapsize - mapOverhead ∧
        held m = List.range' addr size := by
  unfold mapinit
  split
  · exact .inl ⟨_, rfl⟩
  rename_i large
  right
  have cap_eq : ((mapsize : Int) - mapOverhead).toNat = mapsize - mapOverhead := by omega
  have cap_pos : 0 < mapsize - mapOverhead := by omega
  simp only [cap_eq]
  generalize mapsize - mapOverhead = cap at *
  obtain ⟨slot, rest, rfl⟩ := exists_cons_of_length_eq_add_one length_eq
  have rest_zero : ∀ other ∈ rest, other.size = 0 := fun other member =>
    zeroed other (by simp [member])
  have rest_length : rest.length = cap := by simpa using length_eq
  by_cases empty : size = 0
  · subst empty
    have shape : Shape ⟨cap, 0, cap, ⟨0, addr⟩ :: rest⟩ [] (⟨0, addr⟩ :: rest) :=
      { slots_eq := rfl
        live := by simp
        zero := by simpa using rest_zero
        apart := .nil
        bounded := by simp
        free_eq := by simp
        dead_length := by simp [rest_length]
        cap_pos := cap_pos
        cap_lt := cap_lt }
    exact ⟨_, rfl, shape.repInv, rfl, shape.held_eq⟩
  · have shape : Shape ⟨cap - 1, 0, cap, ⟨size, addr⟩ :: rest⟩ [⟨size, addr⟩] rest :=
      { slots_eq := rfl
        live := by simpa using empty
        zero := rest_zero
        apart := by simp
        bounded := by simpa using no_wrap
        free_eq := by simp only [length_singleton]; omega
        dead_length := by simp only [rest_length]; omega
        cap_pos := cap_pos
        cap_lt := cap_lt }
    rw [if_pos empty]
    exact ⟨_, rfl, shape.repInv, rfl, by rw [shape.held_eq]; simp [Seg.span]⟩

/-! ## How many segments there can be -/

/-- The ranges have a gap between them. -/
def Separate (r s : Seg) : Prop := r.addr + r.size < s.addr ∨ s.addr + s.size < r.addr

instance : Std.Symm Separate := ⟨fun _ _ => Or.symm⟩

/-- Ranges with gaps between them are at most one more than the ranges that fill the gaps: every
range but the last ends where one of the others starts. -/
theorem length_le_of_cover {others : List Seg} {n : Nat} (nonempty : ∀ seg ∈ segs, seg.size ≠ 0)
    (separate : segs.Pairwise Separate)
    (cover : (segs.flatMap Seg.span ++ others.flatMap Seg.span).Perm (List.range' 1 n)) :
    segs.length ≤ others.length + 1 := by
  have distinct : (segs.flatMap Seg.span ++ others.flatMap Seg.span).Nodup :=
    cover.nodup_iff.mpr nodup_range'
  have mem_iff (a : Nat) : a ∈ segs.flatMap Seg.span ∨ a ∈ others.flatMap Seg.span ↔
      1 ≤ a ∧ a < 1 + n := by
    rw [← mem_append, cover.mem_iff, mem_range'_1]
  have mem_span {seg : Seg} {a : Nat} : a ∈ seg.span ↔ seg.addr ≤ a ∧ a < seg.addr + seg.size :=
    mem_range'_1
  have ends_distinct : (segs.map fun seg => seg.addr + seg.size).Nodup := by
    rw [List.Nodup, pairwise_map]
    refine separate.imp_of_mem fun first second apart => ?_
    have := nonempty _ first
    have := nonempty _ second
    rcases apart with apart | apart <;> omega
  have ends_start : (segs.map fun seg => seg.addr + seg.size) ⊆ (1 + n) :: others.map Seg.addr := by
    intro stop mem
    obtain ⟨seg, seg_mem, rfl⟩ := List.mem_map.mp mem
    have seg_live := nonempty seg seg_mem
    have final : seg.addr + seg.size - 1 ∈ segs.flatMap Seg.span :=
      mem_flatMap.mpr ⟨seg, seg_mem, mem_span.mpr ⟨by omega, by omega⟩⟩
    have bound := (mem_iff _).mp (.inl final)
    by_cases at_end : seg.addr + seg.size = 1 + n
    · exact at_end ▸ mem_cons_self
    rcases (mem_iff (seg.addr + seg.size)).mpr ⟨by omega, by omega⟩ with inside | inside
    · obtain ⟨other, other_mem, inside⟩ := mem_flatMap.mp inside
      have inside := mem_span.mp inside
      have differ : seg ≠ other := by
        rintro rfl
        omega
      rcases separate.forall seg_mem other_mem differ with apart | apart <;> omega
    · obtain ⟨other, other_mem, inside'⟩ := mem_flatMap.mp inside
      have inside' := mem_span.mp inside'
      have starts : other.addr = seg.addr + seg.size := by
        by_contra before
        have shared : seg.addr + seg.size - 1 ∈ others.flatMap Seg.span :=
          mem_flatMap.mpr ⟨other, other_mem, mem_span.mpr ⟨by omega, by omega⟩⟩
        exact (nodup_append.mp distinct).2.2 _ final _ shared rfl
      exact mem_cons_of_mem _ (List.mem_map.mpr ⟨other, other_mem, starts⟩)
  simpa using ends_distinct.length_le_of_subset ends_start

theorem length_le_spans (nonempty : ∀ seg ∈ segs, seg.size ≠ 0) :
    segs.length ≤ (segs.flatMap Seg.span).length := by
  induction segs with
  | nil => exact Nat.le_refl _
  | cons seg segs ih =>
    have := ih fun other member => nonempty other (mem_cons_of_mem _ member)
    have := nonempty seg mem_cons_self
    simp only [flatMap_cons, length_append, length_cons, Seg.span, length_range']
    omega

/-- When a range goes back to a map that it does not touch, the map has no more segments afterwards
than there were ranges outside of it, and at most every second address starts one. -/
theorem Detached.length_le (inv : RepInv m) {seg : Seg} {others : List Seg} {n : Nat}
    (detached : Detached m seg.size seg.addr) (seg_live : seg.size ≠ 0)
    (nonempty : ∀ other ∈ others, other.size ≠ 0)
    (cover : (held m ++ (seg :: others).flatMap Seg.span).Perm (List.range' 1 n)) :
    (segments m).length + 1 ≤ (seg :: others).length ∧ 2 * ((segments m).length + 1) ≤ n + 1 := by
  have live : ∀ other ∈ seg :: segments m, other.size ≠ 0 := by
    intro other member
    rcases mem_cons.mp member with rfl | member
    · exact seg_live
    · exact inv.shape.live other member
  have separate : (seg :: segments m).Pairwise Separate := by
    refine pairwise_cons.mpr ⟨fun other member => (detached other member).symm, ?_⟩
    exact inv.apart.imp fun apart => .inl apart
  have cover' : ((seg :: segments m).flatMap Seg.span ++ others.flatMap Seg.span).Perm
      (List.range' 1 n) := by
    refine List.Perm.trans ?_ cover
    simp only [flatMap_cons, append_assoc]
    exact perm_append_comm_assoc _ _ _
  have few := length_le_of_cover live separate cover'
  have total := cover'.length_eq
  have inside := length_le_spans live
  have outside := length_le_spans nonempty
  simp only [length_append, length_range', length_cons] at few total inside ⊢
  omega

end Sol25.Rmap
