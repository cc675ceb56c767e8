import Sol25.Ip.Queue

/-!
# What the pieces hold

The bytes of a piece are those of its places in the payload, and the piece at the start has a header
in front of them.  A queue without gaps holds a header and a payload.
-/

namespace Sol25.Ip

open List Nat

variable {ok : ℕ → UInt8 → Prop} {header bytes data : List UInt8} {b : Block} {queue : List Block}
  {u s e n : ℕ}
  {blocks : List (List UInt8)} {ipf : Ipf} {more : Bool}

/-- A header that says its own length. -/
def IsHeader (header : List UInt8) : Prop :=
  hdrLength header = some header.length ∧ 20 ≤ header.length

/-- A piece with the right bytes. -/
def Sound (ok : ℕ → UInt8 → Prop) (hok : List UInt8 → Prop) (b : Block) : Prop :=
  ∃ header data, b.bytes = header ++ data ∧ b.start + data.length = b.stop ∧
    (∀ i d, data[i]? = some d → ok (b.start + i) d) ∧
    if b.start = 0 then 0 < b.stop ∧ IsHeader header ∧ hok header else header = []

variable {hok : List UInt8 → Prop}

theorem Sound.tail (sound : Sound ok hok b) (pos : b.start ≠ 0) :
    b.start + b.bytes.length = b.stop ∧ ∀ i d, b.bytes[i]? = some d → ok (b.start + i) d := by
  obtain ⟨header, data, bytes_eq, length_eq, right, kind⟩ := sound
  rw [if_neg pos] at kind
  rw [kind, nil_append] at bytes_eq
  rw [bytes_eq]
  exact ⟨length_eq, right⟩

theorem sound_tail (pos : s ≠ 0) (length_eq : s + bytes.length = e)
    (right : ∀ i d, bytes[i]? = some d → ok (s + i) d) :
    Sound ok hok ⟨s, e, bytes⟩ :=
  ⟨[], bytes, rfl, length_eq, right, by rw [if_neg pos]⟩

theorem getElem?_ok (right : ∀ i d, (bytes ++ data)[i]? = some d → ok (s + i) d) :
    (∀ i d, bytes[i]? = some d → ok (s + i) d) ∧ ∀ i d, data[i]? = some d →
      ok (s + bytes.length + i) d := by
  constructor
  · intro i d at_i
    refine right i d ?_
    rw [getElem?_append_left (List.getElem?_eq_some_iff.1 at_i).1]
    exact at_i
  · intro i d at_i
    have at_end := right (bytes.length + i) d
    rw [getElem?_append_right (Nat.le_add_right _ _), Nat.add_sub_cancel_left,
      ← Nat.add_assoc] at at_end
    exact at_end at_i

theorem ok_append (first : ∀ i d, bytes[i]? = some d → ok (s + i) d)
    (second : ∀ i d, data[i]? = some d → ok (s + bytes.length + i) d) (i : ℕ) (d : UInt8)
    (at_i : (bytes ++ data)[i]? = some d) : ok (s + i) d := by
  by_cases inside : i < bytes.length
  · rw [getElem?_append_left inside] at at_i
    exact first i d at_i
  · rw [getElem?_append_right (by omega)] at at_i
    have right := second (i - bytes.length) d at_i
    rwa [show s + bytes.length + (i - bytes.length) = s + i by omega] at right

/-- Pieces without gaps, behind the start. -/
theorem join_tail (ordered : Ordered u queue) (pos : u ≠ 0) (sound : ∀ b ∈ queue, Sound ok hok b)
    (whole : gaps u queue = 0) :
    u + (queue.map Block.bytes).flatten.length = stopOf u queue ∧
      ∀ i d, (queue.map Block.bytes).flatten[i]? = some d → ok (u + i) d := by
  induction queue generalizing u with
  | nil => exact ⟨rfl, fun i d at_i => by simp at at_i⟩
  | cons b queue ih =>
    obtain ⟨le, le', ordered⟩ := ordered
    rw [forall_mem_cons] at sound
    rw [gaps] at whole
    have rest_nonneg := @gaps_nonneg queue b.stop
    have start_eq : u = b.start := by
      by_contra ne
      rw [if_neg ne] at whole
      omega
    rw [if_pos start_eq, zero_add] at whole
    obtain ⟨length_eq, right⟩ := sound.1.tail (by omega)
    obtain ⟨rest_length, rest_right⟩ := ih ordered (by omega) sound.2 whole
    rw [map_cons, flatten_cons, length_append, stopOf, start_eq]
    refine ⟨by omega, fun i d at_i => ?_⟩
    refine ok_append right (fun i d at_i => ?_) i d at_i
    rw [length_eq]
    exact rest_right i d at_i

/-- Pieces without gaps from the start on: a header, and the payload up to the end of the last
piece. -/
theorem join (ordered : Ordered 0 queue) (ne : queue ≠ []) (sound : ∀ b ∈ queue, Sound ok hok b)
    (whole : gaps 0 queue = 0) :
    ∃ header first rest, queue.map Block.bytes = (header ++ first) :: rest ∧ IsHeader header ∧
      hok header ∧
      (first ++ rest.flatten).length = stopOf 0 queue ∧ ∀ i d,
        (first ++ rest.flatten)[i]? = some d → ok i d := by
  cases queue with
  | nil => exact absurd rfl ne
  | cons b queue =>
    obtain ⟨-, -, ordered⟩ := ordered
    rw [forall_mem_cons] at sound
    rw [gaps] at whole
    have rest_nonneg := @gaps_nonneg queue b.stop
    have start_eq : 0 = b.start := by
      by_contra start_ne
      rw [if_neg start_ne] at whole
      omega
    rw [if_pos start_eq, zero_add] at whole
    obtain ⟨header, data, bytes_eq, length_eq, right, kind⟩ := sound.1
    rw [← start_eq] at length_eq right kind
    rw [if_pos rfl] at kind
    rw [zero_add] at length_eq
    obtain ⟨rest_length, rest_right⟩ := join_tail ordered (by omega) sound.2 whole
    refine ⟨header, data,
      queue.map Block.bytes, by rw [map_cons, bytes_eq], kind.2.1, kind.2.2, ?_, fun i d at_i => ?_⟩
    · rw [length_append, stopOf]
      omega
    · have joined := ok_append right (fun i d at_i => ?_) i d at_i
      · rwa [zero_add] at joined
      · rw [zero_add, length_eq]
        exact rest_right i d at_i

/-! ### The header that is passed on -/

/-- A header with a length and without a fragment field. -/
def restored (header : List UInt8) (size : ℕ) : List UInt8 :=
  (((header.set 2 (size / 256).toUInt8).set 3 size.toUInt8).set 6 0).set 7 0

/-- The header of a message is restored. -/
theorem restore_eq {first : List UInt8} {rest : List (List UInt8)}
    (queue_eq : queue.map Block.bytes = (header ++ first) :: rest) (is_header : IsHeader header) :
    restore queue = some
      ((restored header (((header ++ first) :: rest).flatten.length % 2 ^ 16) ++ first) ::
        rest) := by
  have long := is_header.2
  have size_eq : (((header ++ first) :: rest).map List.length).sum =
      ((header ++ first) :: rest).flatten.length :=
    length_flatten.symm
  rw [restore, queue_eq]
  dsimp only
  rw [size_eq, setU16, if_pos (by rw [length_append]; omega), Option.bind_some, setU16,
    if_pos (by rw [length_set, length_set, length_append]; omega), Option.map_some,
    restored]
  simp only [reduceDiv, reduceAdd]
  rw [set_append_left _ _ (by omega),
    set_append_left _ _ (by rw [length_set]; omega),
    set_append_left _ _ (by rw [length_set, length_set]; omega),
    set_append_left _ _ (by rw [length_set, length_set, length_set]; omega)]
  rfl

/-- A header of twenty bytes. -/
def shortHeader (len field : ℕ) : List UInt8 :=
  [0x45, 0, (len / 256).toUInt8, len.toUInt8, 0, 1, (field / 256).toUInt8, field.toUInt8, 64, 17, 0,
    0, 10, 0, 0, 1, 10, 0, 0, 2]

/-! ### The loop over the blocks of a fragment -/

theorem hdrLength_append (is_header : IsHeader header) :
    hdrLength (header ++ data) = some header.length := by
  obtain ⟨length_eq, long⟩ := is_header
  cases header with
  | nil => exact nomatch length_eq
  | cons d header => exact length_eq

theorem u16At_append {k : ℕ} (at_k : u16At header k = some n) :
    u16At (header ++ bytes) k = some n := by
  rw [u16At] at at_k ⊢
  split at at_k
  next high low high_eq low_eq =>
    rw [getElem?_append_left (List.getElem?_eq_some_iff.1 high_eq).1,
      getElem?_append_left (List.getElem?_eq_some_iff.1 low_eq).1, high_eq, low_eq]
    exact at_k
  next => exact nomatch at_k

theorem u32_eq (lt : n < 2 ^ 32) : u32 n = n := by
  rw [u32, Int.emod_eq_of_lt (by omega) (by exact_mod_cast lt), Int.toNat_natCast]

theorem split_at (ordered : Ordered u queue) (apart : ∀ b ∈ queue, b.stop ≤ s ∨ e ≤ b.start) :
    ∃ front back, queue = front ++ back ∧ (∀ b ∈ front, b.stop ≤ s) ∧ ∀ b ∈ back, e ≤ b.start := by
  induction queue generalizing u with
  | nil => exact ⟨[], [], rfl, fun _ => nofun, fun _ => nofun⟩
  | cons b queue ih =>
    obtain ⟨-, le, ordered⟩ := ordered
    rw [forall_mem_cons] at apart
    rcases apart.1 with before | behind
    · obtain ⟨front, back, rfl, front_before, back_behind⟩ := ih ordered apart.2
      exact ⟨b :: front, back, rfl, forall_mem_cons.2 ⟨before, front_before⟩, back_behind⟩
    · refine ⟨[], b :: queue, rfl, fun _ => nofun, forall_mem_cons.2 ⟨behind, fun c mem => ?_⟩⟩
      have far := (ordered.le_start mem).1
      omega

theorem Ordered.insert {front back : List Block} (ordered : Ordered 0 (front ++ back))
    (before : ∀ c ∈ front, c.stop ≤ b.start) (behind : ∀ c ∈ back, b.stop ≤ c.start)
    (le : b.start ≤ b.stop) :
    Ordered 0 (front ++ b :: back) := by
  obtain ⟨front_ordered, back_ordered⟩ := ordered_append.1 ordered
  refine ordered_append.2 ⟨front_ordered, ?_, le, ?_⟩
  · cases tail_eq : front.getLast? with
    | none =>
      obtain rfl := getLast?_eq_none_iff.1 tail_eq
      exact zero_le _
    | some tail =>
      rw [stopOf_getLast tail_eq]
      exact before tail (mem_of_getLast? tail_eq)
  · cases back with
    | nil => trivial
    | cons c back => exact ⟨behind c mem_cons_self, back_ordered.2⟩

/-- The number of blocks with something in them. -/
def filled (blocks : List (List UInt8)) : ℕ := blocks.countP fun mp => !mp.isEmpty

/-- What the loop over the blocks of a new fragment does to a queue. -/
structure Grown (ok : ℕ → UInt8 → Prop) (hok : List UInt8 → Prop) (s e : ℕ) (lost : ℤ)
    (ipf ipf' : Ipf) : Prop where
  mode : ipf'.ipfEnd = ipf.ipfEnd
  ordered : Ordered 0 ipf'.queue
  sound : ∀ b ∈ ipf'.queue, Sound ok hok b
  within : ∀ b ∈ ipf'.queue, b ∈ ipf.queue ∨ s ≤ b.start ∧ b.stop ≤ e
  kept : ∀ b ∈ ipf.queue, b ∈ ipf'.queue
  covers : ∀ x, s ≤ x → x < e → Covers ipf'.queue x
  hole : tailHole ipf'.queue ipf'.holeCnt = tailHole ipf.queue ipf.holeCnt - lost

theorem Grown.trans {e' : ℕ} {lost lost' : ℤ} {ipf1 ipf' : Ipf}
    (first : Grown ok hok s e lost ipf ipf1) (second : Grown ok hok e e' lost' ipf1 ipf')
    (le : s ≤ e) (le' : e ≤ e') : Grown ok hok s e' (lost + lost') ipf ipf' where
  mode := second.mode.trans first.mode
  ordered := second.ordered
  sound := second.sound
  within := by
    intro b mem
    rcases second.within b mem with mem | ⟨start_le, stop_le⟩
    · rcases first.within b mem with mem | ⟨start_le, stop_le⟩
      · exact .inl mem
      · exact .inr ⟨start_le, by omega⟩
    · exact .inr ⟨by omega, stop_le⟩
  kept := fun b mem => second.kept b (first.kept b mem)
  covers := by
    intro x start_le lt
    by_cases inside : x < e
    · obtain ⟨b, mem, here⟩ := first.covers x start_le inside
      exact ⟨b, second.kept b mem, here⟩
    · exact second.covers x (by omega) lt
  hole := by
    rw [second.hole, first.hole]
    omega

theorem Grown.refl (ordered : Ordered 0 ipf.queue) (sound : ∀ b ∈ ipf.queue, Sound ok hok b) :
    Grown ok hok s s 0 ipf ipf where
  mode := rfl
  ordered := ordered
  sound := sound
  within := fun _ mem => .inl mem
  kept := fun _ mem => mem
  covers := fun x start_le lt => by omega
  hole := by rw [sub_zero]

/-- One block of a fragment that is apart from the queue. -/
theorem place_grown (ordered : Ordered 0 ipf.queue) (sound : ∀ b ∈ ipf.queue, Sound ok hok b)
    (b_sound : Sound ok hok b) (nonempty : b.start < b.stop)
    (apart : ∀ c ∈ ipf.queue, c.stop ≤ b.start ∨ b.stop ≤ c.start)
    (last : more = false → (∀ c ∈ ipf.queue, c.stop ≤ b.start) ∧ b.start ≠ 0) :
    ∃ queue holeCnt, place more b ipf.holeCnt ipf.queue = some (queue, holeCnt) ∧
      Grown ok hok b.start b.stop (if more then 0 else 1) ipf
        { ipf with queue := queue, holeCnt := holeCnt } := by
  obtain ⟨front, back, split, before, behind, at_end⟩ : ∃ front back, ipf.queue = front ++ back ∧
      (∀ c ∈ front, c.stop ≤ b.start) ∧ (∀ c ∈ back, b.stop ≤ c.start) ∧
          (more = false → back = [] ∧ b.start ≠ 0) := by
    cases more with
    | true =>
      obtain ⟨front, back, split, before, behind⟩ := split_at ordered apart
      exact ⟨front, back, split, before, behind, nofun⟩
    | false =>
      exact ⟨ipf.queue, [], by simp, (last rfl).1, fun _ => nofun, fun _ => ⟨rfl, (last rfl).2⟩⟩
  rw [split] at ordered sound
  obtain ⟨holeCnt, placed, hole⟩ :=
    @place_apart more b ipf.holeCnt front back ordered before behind nonempty at_end
  refine ⟨_, holeCnt, by rw [split]; exact placed, rfl, ordered.insert before behind nonempty.le,
    ?_, ?_, ?_, ?_, ?_⟩
  · intro c mem
    rcases mem_append.1 mem with mem | mem
    · exact sound c (mem_append_left _ mem)
    · rcases mem_cons.1 mem with rfl | mem
      · exact b_sound
      · exact sound c (mem_append_right _ mem)
  · intro c mem
    rw [split]
    rcases mem_append.1 mem with mem | mem
    · exact .inl (mem_append_left _ mem)
    · rcases mem_cons.1 mem with rfl | mem
      · exact .inr ⟨le_refl _, le_refl _⟩
      · exact .inl (mem_append_right _ mem)
  · intro c mem
    rw [split] at mem
    rcases mem_append.1 mem with mem | mem
    · exact mem_append_left _ mem
    · exact mem_append_right _ (mem_cons_of_mem b mem)
  · exact fun x start_le lt => ⟨b, mem_append_right _ mem_cons_self, start_le, lt⟩
  · rw [split]
    exact hole

/-- The blocks of a fragment that is apart from the queue. -/
theorem pieces_apart (pos : s ≠ 0) (ordered : Ordered 0 ipf.queue)
    (sound : ∀ b ∈ ipf.queue, Sound ok hok b)
    (right : ∀ i d, blocks.flatten[i]? = some d → ok (s + i) d)
    (end_eq : s + blocks.flatten.length = e) (e_lt : e < 2 ^ 32)
    (apart : ∀ b ∈ ipf.queue, b.stop ≤ s ∨ e ≤ b.start)
    (last : more = false → (∀ b ∈ ipf.queue, b.stop ≤ s) ∧ filled blocks ≤ 1) :
    ∃ ipf', pieces more blocks s ipf = some ipf' ∧
      Grown ok hok s e (if more then 0 else filled blocks) ipf ipf' := by
  induction blocks generalizing s ipf with
  | nil =>
    obtain rfl : e = s := end_eq.symm
    refine ⟨ipf, rfl, ?_⟩
    rw [filled, countP_nil, cast_zero, ite_self]
    exact Grown.refl ordered sound
  | cons mp rest ih =>
    rw [flatten_cons] at right end_eq
    rw [length_append] at end_eq
    obtain ⟨here, later⟩ := getElem?_ok right
    have stop_eq : u32 ((s : ℤ) + mp.length - (0 : ℕ)) = s + mp.length := by
      rw [cast_zero, sub_zero, ← cast_add]
      exact u32_eq (by omega)
    rw [pieces, if_neg pos]
    dsimp only
    rw [stop_eq]
    by_cases empty : mp = []
    · subst empty
      rw [length_nil, Nat.add_zero, if_pos rfl]
      rw [length_nil, Nat.add_zero] at later
      have same : filled ([] :: rest) = filled rest := rfl
      rw [same] at last ⊢
      exact ih pos ordered sound later (by rw [← end_eq, length_nil]; omega) apart last
    · have long : 0 < mp.length := length_pos_iff.2 empty
      have one_more : filled (mp :: rest) = filled rest + 1 := by
        rw [filled, countP_cons_of_pos (by simpa using empty), filled]
      obtain ⟨queue, holeCnt, placed, grown⟩ :=
        @place_grown ok ⟨s, s + mp.length, mp⟩ ipf more hok ordered sound
        (sound_tail pos rfl here) (by dsimp only; omega)
        (fun c mem => by
          have far := apart c mem
          dsimp only
          omega)
        (fun is_last => ⟨(last is_last).1, pos⟩)
      obtain ⟨ipf', looped, grown'⟩ :=
        @ih (s + mp.length) { ipf with queue := queue, holeCnt := holeCnt } (by omega)
        grown.ordered grown.sound later (by omega)
        (fun c mem => by
          rcases grown.within c mem with mem | ⟨-, stop_le⟩
          · have far := apart c mem
            omega
          · exact .inl stop_le)
        (fun is_last => by
          obtain ⟨far, few⟩ := last is_last
          refine ⟨fun c mem => ?_, by omega⟩
          rcases grown.within c mem with mem | ⟨-, stop_le⟩
          · have := far c mem
            omega
          · exact stop_le)
      rw [if_neg (by omega), placed]
      refine ⟨ipf', looped, ?_⟩
      have total := grown.trans grown' (by dsimp only; omega) (by dsimp only; omega)
      have lost_eq : (if more = true then (0 : ℤ) else 1) +
        (if more = true then 0 else (filled rest : ℤ)) =
          if more = true then 0 else (filled (mp :: rest) : ℤ) := by
        rw [one_more]
        split_ifs
        · rfl
        · push_cast
          omega
      rwa [lost_eq] at total

/-- The blocks of a fragment that the queue covers. -/
theorem pieces_covered (pos : s ≠ 0) (ordered : Ordered 0 ipf.queue)
    (end_eq : s + blocks.flatten.length = e) (e_lt : e < 2 ^ 32)
    (covered : ∀ x, s ≤ x → x < e → Covers ipf.queue x) : pieces more blocks s ipf = some ipf := by
  induction blocks generalizing s with
  | nil => rfl
  | cons mp rest ih =>
    rw [flatten_cons, length_append] at end_eq
    have stop_eq : u32 ((s : ℤ) + mp.length - (0 : ℕ)) = s + mp.length := by
      rw [cast_zero, sub_zero, ← cast_add]
      exact u32_eq (by omega)
    have later := @ih (s + mp.length) (by omega) (by omega) (fun x ge lt => covered x (by omega) lt)
    rw [pieces, if_neg pos]
    dsimp only
    rw [stop_eq]
    split_ifs with empty
    · exact later
    · rw [@place_covered more ⟨s, s + mp.length, mp⟩ ipf.holeCnt ipf.queue ordered
        (by dsimp only; omega)
          (fun x ge lt => covered x ge (by dsimp only at lt; omega)) (by dsimp only; omega)]
      exact later

/-- The first block of the first fragment. -/
theorem pieces_first {more : Bool} {header data : List UInt8} {rest : List (List UInt8)}
    (is_header : IsHeader header) (long : data ≠ []) (lt : data.length < 2 ^ 32) :
    pieces more ((header ++ data) :: rest) 0 ipf =
      match place more ⟨0, data.length, header ++ data⟩ ipf.holeCnt ipf.queue with
      | none => none
      | some (queue, holeCnt) =>
            pieces more rest data.length { ipf with queue := queue, holeCnt := holeCnt } := by
  have data_pos := length_pos_iff.2 long
  have stop_eq : u32 (((0 : ℕ) : ℤ) + (header ++ data).length - (header.length : ℕ)) =
      data.length := by
    rw [length_append,
      show ((0 : ℕ) : ℤ) + ((header.length + data.length : ℕ) : ℤ) - (header.length : ℕ) =
        ((data.length : ℕ) : ℤ) by push_cast; omega]
    exact u32_eq lt
  rw [pieces, if_pos rfl, hdrLength_append is_header]
  dsimp only
  rw [stop_eq]
  exact if_neg (by omega)

/-! ### Gaps and covered places -/

theorem covers_of_gaps (whole : gaps u queue = 0) {x : ℕ} (ge : u ≤ x) (lt : x < stopOf u queue) :
    Covers queue x := by
  induction queue generalizing u with
  | nil =>
    rw [stopOf] at lt
    omega
  | cons b queue ih =>
    rw [gaps] at whole
    have rest_nonneg := @gaps_nonneg queue b.stop
    have start_eq : u = b.start := by
      by_contra ne
      rw [if_neg ne] at whole
      omega
    rw [if_pos start_eq, zero_add] at whole
    by_cases inside : x < b.stop
    · exact covers_cons.2 (.inl ⟨by omega, inside⟩)
    · exact covers_cons.2 (.inr (ih whole (by omega) lt))

theorem gaps_of_covers (ordered : Ordered u queue)
    (covers : ∀ x, u ≤ x → x < stopOf u queue → Covers queue x) :
    gaps u queue = 0 := by
  induction queue generalizing u with
  | nil => rfl
  | cons b queue ih =>
    obtain ⟨le, le', ordered⟩ := ordered
    have far := ordered.le_stopOf
    have start_eq : u = b.start := by
      by_contra ne
      have lt : u < stopOf b.stop queue := by omega
      obtain ⟨c, mem, c_start, -⟩ := covers u (le_refl u) lt
      rcases mem_cons.1 mem with rfl | mem
      · omega
      · have := (ordered.le_start mem).1
        omega
    rw [gaps, if_pos start_eq, zero_add]
    refine ih ordered fun x ge lt => ?_
    rcases covers_cons.1 (covers x (by omega) lt) with ⟨-, inside⟩ | covered
    · omega
    · exact covered

/-! ### The switch to marked pieces -/

/-- What marking makes of blocks that hold a stretch of the payload. -/
structure Marked (ok : ℕ → UInt8 → Prop) (hok : List UInt8 → Prop) (u e : ℕ)
    (queue : List Block) : Prop where
  ordered : Ordered u queue
  sound : ∀ b ∈ queue, Sound ok hok b
  whole : gaps u queue = 0
  stop : stopOf u queue = e

theorem Marked.cons {b : Block} {e : ℕ} (marked : Marked ok hok b.stop e queue)
    (le : b.start ≤ b.stop) (sound : Sound ok hok b) : Marked ok hok b.start e (b :: queue) where
  ordered := ⟨le_refl _, le, marked.ordered⟩
  sound := forall_mem_cons.2 ⟨sound, marked.sound⟩
  whole := by rw [gaps, if_pos rfl, marked.whole, zero_add]
  stop := marked.stop

theorem mark_tail {e : ℕ} (pos : u ≠ 0) (end_eq : u + (queue.map Block.bytes).flatten.length = e)
    (e_lt : e < 2 ^ 32)
    (right : ∀ k b, (queue.map Block.bytes).flatten[k]? = some b → ok (u + k) b) :
    ∃ marks, mark u queue = some marks ∧ Marked ok hok u e marks := by
  induction queue generalizing u with
  | nil => exact ⟨[], rfl, trivial, fun _ => nofun, rfl, end_eq⟩
  | cons b queue ih =>
    rw [map_cons, flatten_cons] at end_eq right
    rw [length_append] at end_eq
    obtain ⟨here, later⟩ := getElem?_ok right
    have stop_eq : u32 ((u : ℤ) + b.bytes.length - (0 : ℕ)) = u + b.bytes.length := by
      rw [cast_zero, sub_zero, ← cast_add]
      exact u32_eq (by omega)
    obtain ⟨marks, marks_eq, marked⟩ := @ih (u + b.bytes.length) (by omega) (by omega) later
    refine ⟨⟨u, u + b.bytes.length, b.bytes⟩ :: marks, ?_, ?_⟩
    · rw [mark, if_pos pos]
      dsimp only
      rw [stop_eq, marks_eq]
      rfl
    · exact @Marked.cons ok marks hok ⟨u, u + b.bytes.length, b.bytes⟩ e marked
        (by dsimp only; omega)
        (sound_tail pos rfl here)

/-- Blocks that are queued in order are marked, when the first of them is longer than its header. -/
theorem mark_start {header data : List UInt8} {rest : List (List UInt8)}
    (queue_eq : queue.map Block.bytes = (header ++ data) :: rest) (is_header : IsHeader header)
    (header_ok : hok header) (long : data ≠ []) (lt : (data ++ rest.flatten).length < 2 ^ 32)
    (right : ∀ k b, (data ++ rest.flatten)[k]? = some b → ok k b) :
    ∃ marks, mark 0 queue = some marks ∧ Marked ok hok 0 (data ++ rest.flatten).length marks := by
  cases queue with
  | nil => exact nomatch queue_eq
  | cons b queue =>
    rw [map_cons, cons.injEq] at queue_eq
    obtain ⟨bytes_eq, rest_eq⟩ := queue_eq
    have data_pos := length_pos_iff.2 long
    rw [length_append] at lt ⊢
    obtain ⟨here, later⟩ :=
      @getElem?_ok ok data rest.flatten 0 (fun k b at_k => by rw [zero_add]; exact right k b at_k)
    rw [zero_add] at later
    rw [← rest_eq] at later lt ⊢
    obtain ⟨marks, marks_eq, marked⟩ :=
      @mark_tail ok queue data.length hok _ (by omega) rfl lt later
    have stop_eq : u32 (((0 : ℕ) : ℤ) + b.bytes.length - (header.length : ℕ)) = data.length := by
      rw [bytes_eq, length_append,
        show ((0 : ℕ) : ℤ) + ((header.length + data.length : ℕ) : ℤ) - (header.length : ℕ) =
          ((data.length : ℕ) : ℤ) by push_cast; omega]
      exact u32_eq (by omega)
    refine ⟨⟨0, data.length, b.bytes⟩ :: marks, ?_, ?_⟩
    · rw [mark, if_neg (by simp), bytes_eq, hdrLength_append is_header]
      dsimp only
      rw [← bytes_eq, stop_eq, marks_eq]
      rfl
    · refine @Marked.cons ok marks hok ⟨0, data.length, b.bytes⟩ _ marked (zero_le _) ?_
      refine ⟨header, data, bytes_eq, Nat.zero_add _, here, ?_⟩
      rw [if_pos rfl]
      exact ⟨data_pos, is_header, header_ok⟩

end Sol25.Ip
