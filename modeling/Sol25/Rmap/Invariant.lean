import Sol25.Rmap.Model

/-!
# The representation invariant of resource maps

The slots of a well-formed map are its segments followed by slots of size zero.  Every loop of
`rmap.c` is evaluated once on such a list; the operations then preserve the shape by the ordering
of the neighbouring segments alone.
-/

namespace Sol25.Rmap

open List

/-- Two segments in address order with a gap between them. -/
def Apart (low high : Seg) : Prop := low.addr + low.size < high.addr

/-- The slots split into live segments and cleared slots. -/
structure Shape (m : Map) (segs dead : List Seg) : Prop where
  slots_eq : m.slots = segs ++ dead
  live : ∀ seg ∈ segs, seg.size ≠ 0
  zero : ∀ slot ∈ dead, slot.size = 0
  apart : segs.Pairwise Apart
  bounded : ∀ seg ∈ segs, seg.addr + seg.size < 2 ^ 32
  free_eq : m.free + segs.length = m.cap
  dead_length : dead.length = m.free + 1
  cap_pos : 0 < m.cap
  cap_lt : m.cap < 2 ^ 31

/-- The segments of a map: the slots before the first one of size zero. -/
def segments (m : Map) : List Seg := m.slots.takeWhile fun slot => slot.size != 0

/-- The representation invariant of a map. -/
structure RepInv (m : Map) : Prop where
  /-- Addresses increase strictly; segments neither overlap nor abut. -/
  apart : (segments m).Pairwise Apart
  /-- No segment runs past the last address. -/
  bounded : ∀ seg ∈ segments m, seg.addr + seg.size < 2 ^ 32
  /-- The free count and the segments fill the capacity. -/
  count : m.free + (segments m).length = m.cap
  /-- The array ends with the terminator slot. -/
  length : m.slots.length = m.cap + 1
  /-- Every slot at or beyond the segment count is cleared. -/
  cleared : ∀ slot ∈ m.slots.drop (segments m).length, slot.size = 0
  /-- The map can hold a segment. -/
  cap_pos : 0 < m.cap
  /-- The capacity is the value of an `int`. -/
  cap_lt : m.cap < 2 ^ 31

variable {back dead front : List Seg} {here : Seg}

theorem Shape.segments_eq {m : Map} {segs : List Seg} (shape : Shape m segs dead) :
    segments m = segs := by
  have dead_head : dead.takeWhile (fun slot => slot.size != 0) = [] := by
    cases dead with
    | nil => rfl
    | cons slot rest => simp [shape.zero slot (by simp)]
  have live : ∀ seg ∈ segs, (seg.size != 0) = true := by
    intro seg member
    simpa using shape.live seg member
  rw [segments, shape.slots_eq, takeWhile_append_of_pos live, dead_head, append_nil]

theorem Shape.repInv {m : Map} {segs : List Seg} (shape : Shape m segs dead) :
    RepInv m where
  apart := by rw [shape.segments_eq]; exact shape.apart
  bounded := by rw [shape.segments_eq]; exact shape.bounded
  count := by rw [shape.segments_eq]; exact shape.free_eq
  length := by
    have free_eq := shape.free_eq
    rw [shape.slots_eq, length_append, shape.dead_length]
    omega
  cleared := by
    rw [shape.segments_eq, shape.slots_eq, drop_left]
    exact shape.zero
  cap_pos := shape.cap_pos
  cap_lt := shape.cap_lt

theorem RepInv.shape {m : Map} (inv : RepInv m) :
    Shape m (segments m) (m.slots.drop (segments m).length) where
  slots_eq := by
    have taken : m.slots.take (segments m).length = segments m :=
      (prefix_iff_eq_take.mp ( takeWhile_prefix _)).symm
    conv_lhs => rw [← take_append_drop (segments m).length m.slots, taken]
  live := by
    intro seg member
    simpa using mem_takeWhile_imp member
  zero := inv.cleared
  apart := inv.apart
  bounded := inv.bounded
  free_eq := inv.count
  dead_length := by
    have count := inv.count
    rw [length_drop, inv.length]
    omega
  cap_pos := inv.cap_pos
  cap_lt := inv.cap_lt

/-! ## The loops on a well-formed array -/

/-- A walk that stops at every cleared slot ends inside the array.  It passes the segments `front`
and stops at the first of the remaining segments `rest`, or at the delimiter when none remain. -/
theorem walk_ok (stop : Seg → Bool) (stop_zero : ∀ slot : Seg, slot.size = 0 → stop slot = true)
    (segs : List Seg) (delimiter : Seg) (dead : List Seg) (cleared : delimiter.size = 0) :
    ∃ front rest here back, segs = front ++ rest ∧ rest ++ delimiter :: dead = here :: back ∧
      walk stop (segs ++ delimiter :: dead) = .ok ⟨front, here, back⟩ ∧
      stop here = true ∧ ∀ seg ∈ front, stop seg = false := by
  induction segs with
  | nil =>
    have stops := stop_zero delimiter cleared
    exact ⟨[], [], delimiter, dead, rfl, rfl, by simp [walk, stops], stops, by simp⟩
  | cons seg rest ih =>
    by_cases stops : stop seg = true
    · exact ⟨[], seg :: rest, seg, rest ++ delimiter :: dead, rfl, rfl,
        by simp [walk, stops], stops, by simp⟩
    · have passes : stop seg = false := by simpa using stops
      obtain ⟨front, remaining, here, back, rest_eq, here_eq, walked, found, all⟩ := ih
      refine ⟨seg :: front, remaining, here, back, by simp [rest_eq], here_eq, ?_, found, ?_⟩
      · rw [cons_append, walk, walked]
        simp [passes, Except.map]
      · simpa [passes] using all

/-- From any live segment on, the search for the delimiter passes exactly the segments. -/
theorem walk_delimiter (segs : List Seg) (delimiter : Seg) (dead : List Seg)
    (live : ∀ seg ∈ segs, seg.size ≠ 0) (cleared : delimiter.size = 0) :
    walk (fun slot => slot.size == 0) (segs ++ delimiter :: dead) =
      .ok ⟨segs, delimiter, dead⟩ := by
  induction segs with
  | nil => simp [walk, cleared]
  | cons seg rest ih =>
    have seg_live : (seg.size == 0) = false := by simpa using live seg (by simp)
    have tail := ih fun other member => live other (by simp [member])
    rw [cons_append, walk, tail]
    simp [seg_live, Except.map]

theorem compress_ok (slot : Seg) (segs : List Seg) (delimiter : Seg) (dead : List Seg)
    (live : ∀ seg ∈ segs, seg.size ≠ 0) (cleared : delimiter.size = 0) :
    compress (slot :: (segs ++ delimiter :: dead)) =
      .ok (segs ++ delimiter :: delimiter :: dead) := by
  induction segs generalizing slot with
  | nil => simp [compress, cleared]
  | cons seg rest ih =>
    have tail := ih seg fun other member => live other (by simp [member])
    rw [cons_append, compress, tail]
    simp [live seg (by simp), Except.map]

theorem pushUp_ok (entry : Seg) (segs : List Seg) (delimiter : Seg) (dead : List Seg)
    (live : ∀ seg ∈ segs, seg.size ≠ 0) (cleared : delimiter.size = 0) :
    pushUp entry (segs ++ delimiter :: dead) = .ok (entry :: (segs ++ dead)) := by
  induction segs generalizing entry with
  | nil => simp [pushUp, cleared]
  | cons seg rest ih =>
    have tail := ih seg fun other member => live other (by simp [member])
    rw [cons_append, pushUp, tail]
    simp [live seg (by simp), Except.map]

/-! ## Editing one segment -/

theorem ulong_of_lt {value : Nat} (small : value < 2 ^ 32) : ulong value = value :=
  Nat.mod_eq_of_lt small

theorem Shape.dead_cons {m : Map} {segs : List Seg} (shape : Shape m segs dead) :
    ∃ delimiter rest, dead = delimiter :: rest ∧ delimiter.size = 0 ∧ rest.length = m.free := by
  obtain ⟨delimiter, rest, rfl⟩ :=
    exists_cons_of_length_eq_add_one shape.dead_length
  exact ⟨delimiter, rest, rfl, shape.zero delimiter (by simp), by simpa using shape.dead_length⟩

/-- Exchange the middle of the segments for another list, adjusting the free count. -/
theorem Shape.splice {m : Map} {middle : List Seg} (shape : Shape m (front ++ middle ++ back) dead)
    (middle' dead' : List Seg) (m' : Map) (slots_eq : m'.slots = front ++ middle' ++ back ++ dead')
    (cap_eq : m'.cap = m.cap) (live : ∀ seg ∈ middle', seg.size ≠ 0)
    (zero : ∀ slot ∈ dead', slot.size = 0) (apart : middle'.Pairwise Apart)
    (bounded : ∀ seg ∈ middle', seg.addr + seg.size < 2 ^ 32)
    (left : ∀ low ∈ front, ∀ seg ∈ middle', Apart low seg)
    (right : ∀ seg ∈ middle', ∀ high ∈ back, Apart seg high)
    (free_eq : m'.free + middle'.length = m.free + middle.length)
    (dead_length : dead'.length = m'.free + 1) :
    Shape m' (front ++ middle' ++ back) dead' where
  slots_eq := slots_eq
  live := by
    intro seg member
    have old := shape.live seg
    simp only [mem_append] at member old
    rcases member with (member | member) | member
    · exact old (.inl (.inl member))
    · exact live seg member
    · exact old (.inr member)
  zero := zero
  apart := by
    have old := shape.apart
    simp only [pairwise_append, mem_append] at old ⊢
    obtain ⟨⟨front_apart, -, -⟩, back_apart, across⟩ := old
    refine ⟨⟨front_apart, apart, left⟩, back_apart, ?_⟩
    rintro low (member | member) high high_mem
    · exact across low (.inl member) high high_mem
    · exact right low member high high_mem
  bounded := by
    intro seg member
    have old := shape.bounded seg
    simp only [mem_append] at member old
    rcases member with (member | member) | member
    · exact old (.inl (.inl member))
    · exact bounded seg member
    · exact old (.inr member)
  free_eq := by
    have old := shape.free_eq
    simp only [length_append] at old ⊢
    omega
  dead_length := dead_length
  cap_pos := by
    rw [cap_eq]
    exact shape.cap_pos
  cap_lt := by
    rw [cap_eq]
    exact shape.cap_lt

/-- Every segment before a given one ends before it starts, every later one starts after its end. -/
theorem Shape.around {m : Map} (shape : Shape m (front ++ [here] ++ back) dead) :
    (∀ low ∈ front, low.addr + low.size < here.addr) ∧
      ∀ high ∈ back, here.addr + here.size < high.addr := by
  have apart := shape.apart
  simp only [pairwise_append, mem_append, mem_singleton] at apart
  obtain ⟨⟨-, -, before⟩, -, after⟩ := apart
  exact ⟨fun low member => before low member here rfl,
    fun high member => after here (.inr rfl) high member⟩

/-- A segment may be replaced by a nonempty part of itself. -/
theorem Shape.shrink {m : Map} (shape : Shape m (front ++ [here] ++ back) dead) (part : Seg)
    (nonempty : part.size ≠ 0) (low : here.addr ≤ part.addr)
    (high : part.addr + part.size ≤ here.addr + here.size) :
    Shape { m with slots := front ++ part :: (back ++ dead) } (front ++ [part] ++ back) dead := by
  obtain ⟨before, after⟩ := shape.around
  have here_bounded := shape.bounded here (by simp)
  refine shape.splice [part] dead _ (by simp) rfl ?_ shape.zero (by simp) ?_ ?_ ?_ rfl
    shape.dead_length
  · simpa using nonempty
  · intro seg member
    obtain rfl : seg = part := by simpa using member
    omega
  · intro seg member other other_mem
    obtain rfl : other = part := by simpa using other_mem
    have := before seg member
    simp only [Apart]
    omega
  · intro seg member other other_mem
    obtain rfl : seg = part := by simpa using member
    have := after other other_mem
    simp only [Apart]
    omega

/-- Taking from the middle of a segment leaves its two ends and uses one of the cleared slots. -/
theorem Shape.split {m : Map} {rest : List Seg} {delimiter spare : Seg}
    (shape : Shape m (front ++ [here] ++ back) (delimiter :: spare :: rest)) (low high : Nat)
    (starts : here.addr < low) (nonempty : low < high) (ends : high < here.addr + here.size) :
    Shape
      { m with slots := front ++ ⟨low - here.addr, here.addr⟩ ::
                 ⟨here.addr + here.size - high, high⟩ :: (back ++ { spare with size := 0 } :: rest)
               free := ulong (m.free + 2 ^ 32 - 1) }
      (front ++ [⟨low - here.addr, here.addr⟩, ⟨here.addr + here.size - high, high⟩] ++ back)
      ({ spare with size := 0 } :: rest) := by
  obtain ⟨before, after⟩ := shape.around
  have here_bounded := shape.bounded here (by simp)
  have zero := shape.zero
  have free_eq := shape.free_eq
  have cap_lt := shape.cap_lt
  have dead_length := shape.dead_length
  have free_less : ulong (m.free + 2 ^ 32 - 1) = m.free - 1 := by
    simp only [length_cons] at dead_length
    simp only [ulong]
    omega
  rw [free_less]
  refine shape.splice _ _ _ (by simp) rfl ?_ ?_ ?_ ?_ ?_ ?_ ?_ ?_
  · simp
    omega
  · simpa using fun slot member => zero slot (by simp [member])
  · simp [Apart]
    omega
  · simp
    omega
  · intro seg member part part_mem
    have := before seg member
    rcases (by simpa using part_mem : part = _ ∨ part = _) with rfl | rfl <;>
      simp only [Apart] <;> omega
  · intro part part_mem seg member
    have := after seg member
    rcases (by simpa using part_mem : part = _ ∨ part = _) with rfl | rfl <;>
      simp only [Apart] <;> omega
  · simp at dead_length ⊢
    omega
  · simp at dead_length ⊢
    omega

/-- Taking a whole segment compresses the array and frees one slot. -/
theorem Shape.remove {m : Map} {rest : List Seg} {delimiter : Seg}
    (shape : Shape m (front ++ [here] ++ back) (delimiter :: rest)) :
    Shape { m with slots := front ++ (back ++ delimiter :: delimiter :: rest)
                   free := ulong (m.free + 1) }
      (front ++ [] ++ back) (delimiter :: delimiter :: rest) := by
  have free_eq := shape.free_eq
  have cap_lt := shape.cap_lt
  have dead_length := shape.dead_length
  have zero := shape.zero
  have small : ulong (m.free + 1) = m.free + 1 := ulong_of_lt (by omega)
  refine shape.splice [] _ _ (by simp) rfl (by simp) ?_ (by simp) (by simp) (by simp) (by simp)
    ?_ ?_
  · simpa using zero
  · simp [small]
  · simpa [small] using dead_length

end Sol25.Rmap
