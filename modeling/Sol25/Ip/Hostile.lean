import Sol25.Ip.Insert

/-!
# Reassembly of arbitrary fragments

Fragments with one source, identifier and protocol, each in one block, with any offset, length and
more-fragments bit.
-/

namespace Sol25.Ip

open List Option Nat

/-- A packet in one block: its header, what is behind it, and its fragment field. -/
structure Packet where
  header : List UInt8
  data : List UInt8
  offset : ℕ
  more : Bool
  deriving DecidableEq, Repr

/-- Where a packet ends in the datagram. -/
def Packet.stop (f : Packet) : ℕ := f.offset + f.data.length

/-- The header of a packet is in its block. -/
def Parses (bytes : List UInt8) (f : Packet) : Prop :=
  bytes = f.header ++ f.data ∧ IsHeader f.header ∧ u16At f.header 2 = some bytes.length ∧
    ∃ field, u16At f.header 6 = some field ∧ f.more = decide (field / 0x2000 % 2 = 1) ∧
      f.offset = field % 0x2000 * 8

/-- A fragment that `ip_rput` accepts.  The length of a packet without options is not checked
against that of its header. -/
def Accepted (bytes : List UInt8) : Prop :=
  ∃ hdr field, hdrLength bytes = some hdr ∧ 20 ≤ hdr ∧ (hdr ≠ 20 → hdr ≤ bytes.length) ∧
    u16At bytes 2 = some bytes.length ∧
    u16At bytes 6 = some field ∧ (field / 0x2000 % 2 = 1 ∨ field % 0x2000 ≠ 0)

/-- One of the fragments has a byte for a place of the datagram. -/
def Carried (received : List (List UInt8)) (p : ℕ) (b : UInt8) : Prop :=
  ∃ bytes ∈ received, ∃ f, Parses bytes f ∧ f.offset ≤ p ∧ f.data[p - f.offset]? = some b

/-- The pieces of a queue in order are marked when it is left. -/
def marked (ipf : Ipf) : Option Ipf :=
  if ipf.ipfEnd ≠ 0 then (mark 0 ipf.queue).map fun queue => ⟨queue, 1, 0⟩ else some ipf

/-- A fragment goes to the end of a queue in order. -/
def inOrder (ipf : Ipf) (offset : ℕ) : Bool := decide (offset ≠ 0 ∧ ipf.ipfEnd = offset)

/-- The place up to which pieces abut. -/
def runEnd : ℕ → List Block → ℕ
  | u, [] => u
  | u, b :: l => if b.start = u then runEnd b.stop l else u

/-! ### What is safe -/

/-- The pieces of a queue with their places. -/
def placed (easy : Bool) (queue : List Block) : Option (List Block) :=
  if easy then mark 0 queue else some queue

/-- The datagram that is passed on has no holes, only bytes that came for their places, and the
length that its header says. -/
def SafeMessage (received : List (List UInt8)) (marks : List Block)
    (mp : List (List UInt8)) : Prop :=
  Ordered 0 marks ∧ gaps 0 marks = 0 ∧
    ∃ header data, mp.flatten = header ++ data ∧ hdrLength mp.flatten = some header.length ∧
      (∀ p b, data[p]? = some b → Carried received p b) ∧
        u16At mp.flatten 2 = some mp.flatten.length

/-- What may become of a fragment. -/
def Safe (received : List (List UInt8)) (slot : Option Ipf) (offset : ℕ) : Outcome → Prop
  | .queued ipf =>
    (ipf.ipfEnd = 0 → 0 ≤ ipf.holeCnt) ∧ ∃ marks, placed (ipf.ipfEnd ≠ 0) ipf.queue = some marks ∧
      Ordered 0 marks
  | .complete queue mp =>
    ∃ ipf, slot = some ipf ∧ ∃ marks, placed (inOrder ipf offset) queue = some marks ∧
      SafeMessage received marks mp

/-- A fragment is dealt with safely. -/
def SafeStep (received : List (List UInt8)) (junk : ℤ) (slot : Option Ipf)
    (bytes : List UInt8) : Prop :=
  ∃ field outcome, u16At bytes 6 = some field ∧ ipRputLocal junk slot [bytes] = some outcome ∧
    Safe (bytes :: received) slot (field % 0x2000 * 8) outcome

/-! ### Fragments that do no harm -/

/-- A fragment with something in it goes to marked pieces.  Where there is a piece at the start
already, the run of pieces from there covers a new one at the start; a last fragment takes off no
more holes than there are at the tail; the datagram does not get too long. -/
structure Harmless (f : Packet) (ipf : Ipf) : Prop where
  covered : f.offset = 0 → (∃ b ∈ ipf.queue, b.start = 0) → f.stop ≤ runEnd 0 ipf.queue
  starts : f.offset = 0 → (∀ b ∈ ipf.queue, b.start ≠ 0) →
    f.header.length + max f.stop (stopOf 0 ipf.queue) < 2 ^ 16
  fits : f.offset ≠ 0 → ∀ b ∈ ipf.queue, b.start = 0 → ∀ hdr, hdrLength b.bytes = some hdr →
    hdr + f.stop < 2 ^ 16
  last : f.more = false → losses f.offset f.stop ipf.queue ≤ tailHole ipf.queue ipf.holeCnt

/-- A fragment that does no harm.  Its header is in its block; it has something in it when it is the
first of its queue; at the end of a queue in order it does not make the datagram too long; else no
block of a queue in order is empty, and it goes to marked pieces as it should. -/
def Innocent (slot : Option Ipf) (bytes : List UInt8) : Prop :=
  ∃ f, Parses bytes f ∧
    match slot with
    | none => f.data ≠ []
    | some ipf =>
      if inOrder ipf f.offset then
        ∀ b, ipf.queue.head? = some b → ∀ hdr, hdrLength b.bytes = some hdr → hdr + f.stop < 2 ^ 16
      else
        (ipf.ipfEnd ≠ 0 → ∀ b ∈ ipf.queue, b.bytes ≠ []) ∧
          ∀ marks, marked ipf = some marks → f.data ≠ [] → Harmless f marks

/-- Fragments come one after the other. -/
inductive Runs (innocent : Option Ipf → List UInt8 → Prop) : Option Ipf → List (List UInt8) → Prop
  | start : Runs innocent none []
  | queued {slot : Option Ipf} {received : List (List UInt8)} {bytes : List UInt8}
      {junk : ℤ} {ipf : Ipf}
      (before : Runs innocent slot received) (accepted : Accepted bytes)
        (step : innocent slot bytes)
      (next : ipRputLocal junk slot [bytes] = some (.queued ipf)) : Runs innocent (some ipf)
        (bytes :: received)
  | complete {slot : Option Ipf} {received : List (List UInt8)} {bytes : List UInt8} {junk : ℤ}
      {queue : List Block}
      {mp : List (List UInt8)} (before : Runs innocent slot received) (accepted : Accepted bytes)
        (step : innocent slot bytes)
      (next : ipRputLocal junk slot [bytes] = some (.complete queue mp)) : Runs innocent none []

variable {f : Packet} {bytes : List UInt8} {received : List (List UInt8)} {slot : Option Ipf}
  {ipf ipf' : Ipf} {junk : ℤ}
  {queue marks : List Block} {ok ok' : ℕ → UInt8 → Prop} {hok hok' : List UInt8 → Prop}
    {b : Block} {u : ℕ}

/-! ### Headers -/

theorem u16At_lt {i n : ℕ} (at_i : u16At bytes i = some n) : n < 2 ^ 16 := by
  rw [u16At] at at_i
  split at at_i
  next high low _ _ =>
    have high_lt := high.toNat_lt
    have low_lt := low.toNat_lt
    rw [← some.inj at_i]
    omega
  next => cases at_i

theorem Parses.length_lt (parses : Parses bytes f) : f.header.length + f.data.length < 2 ^ 16 := by
  obtain ⟨bytes_eq, -, length_eq, -⟩ := parses
  have lt := u16At_lt length_eq
  rwa [bytes_eq, length_append] at lt

theorem Parses.offset_lt (parses : Parses bytes f) : f.offset < 2 ^ 16 := by
  obtain ⟨-, -, -, field, -, -, offset_eq⟩ := parses
  omega

/-- What becomes of a packet. -/
theorem ipRputLocal_parses (parses : Parses bytes f) (fragment : f.more = true ∨ f.offset ≠ 0) :
    ipRputLocal junk slot [bytes] =
      match slot with
      | none =>
        if f.offset = 0 then some (.queued ⟨[unmarked bytes], junk, f.stop⟩)
        else (ipReassemble [f.data] ⟨[], junk, 0⟩ f.more f.offset).map fun r => .queued r.1
      | some ipf =>
        if inOrder ipf f.offset then
          if f.more then some
            (.queued { ipf with queue := ipf.queue ++ [unmarked f.data], ipfEnd := f.stop })
          else complete (ipf.queue ++ [unmarked f.data])
        else
          match ipReassemble [if f.offset = 0 then bytes else f.data] ipf f.more f.offset with
          | none => none
          | some (ipf, none) => some (.queued ipf)
          | some (_, some queue) => complete queue := by
  have short := parses.length_lt
  have near := parses.offset_lt
  obtain ⟨bytes_eq, is_header, length_eq, field, field_eq, more_eq, offset_eq⟩ := parses
  have stop_eq : u32 ((bytes.length : ℤ) - (f.header.length : ℕ) + (f.offset : ℕ)) = f.stop := by
    rw [bytes_eq, length_append, Packet.stop,
      show ((f.header.length + f.data.length : ℕ) : ℤ) - (f.header.length : ℕ) + (f.offset : ℕ) =
        ((f.offset + f.data.length : ℕ) : ℤ) by push_cast; omega]
    exact u32_eq (by omega)
  have stripped : (if f.offset ≠ 0 then advance f.header.length bytes else some bytes) =
      some (if f.offset = 0 then bytes else f.data) := by
    by_cases zero : f.offset = 0
    · rw [if_neg (by simpa using zero), if_pos zero]
    · rw [if_pos zero, if_neg zero, advance, if_pos (by rw [bytes_eq, length_append]; omega),
        bytes_eq, drop_left]
  have not_whole : ¬ (f.more = false ∧ f.offset = 0) := by
    rintro ⟨not_more, zero⟩
    rcases fragment with more | pos
    · rw [not_more] at more
      exact nomatch more
    · exact pos zero
  have hdr_at : hdrLength bytes = some f.header.length := by
    rw [bytes_eq]; exact hdrLength_append is_header
  have length_at : u16At bytes 2 = some bytes.length := by
    nth_rewrite 1 [bytes_eq]; exact u16At_append length_eq
  have field_at : u16At bytes 6 = some field := by rw [bytes_eq]; exact u16At_append field_eq
  rw [ipRputLocal]
  simp only [hdr_at, length_at, field_at, ← more_eq, ← offset_eq]
  rw [if_neg not_whole]
  simp only [stripped, stop_eq]
  cases slot with
  | none =>
    by_cases zero : f.offset = 0
    · simp only [if_pos zero]
      rfl
    · simp only [if_neg zero]
  | some ipf =>
    by_cases easy : f.offset ≠ 0 ∧ ipf.ipfEnd = f.offset
    · simp only [if_pos easy, inOrder, decide_eq_true easy, if_neg easy.1, if_true]
      rfl
    · simp only [inOrder, decide_eq_false easy, Bool.false_eq_true, if_false]
      rewrite [if_neg easy]
      rfl

/-! ### Pieces -/

theorem Sound.mono (sound : Sound ok hok b) (weaker : ∀ p d, ok p d → ok' p d) :
    Sound ok' hok b := by
  obtain ⟨header, data, bytes_eq, length_eq, right, kind⟩ := sound
  exact ⟨header, data, bytes_eq, length_eq, fun i d at_i => weaker _ d (right i d at_i), kind⟩

theorem Sound.rehead (sound : Sound ok hok b) (pos : b.start ≠ 0) : Sound ok hok' b := by
  obtain ⟨header, data, bytes_eq, length_eq, right, kind⟩ := sound
  rw [if_neg pos] at kind
  exact ⟨header, data, bytes_eq, length_eq, right, by rw [if_neg pos]; exact kind⟩

theorem Sound.hdrLength {hl : ℕ} (sound : Sound ok (fun header => header.length = hl) b)
    (zero : b.start = 0) :
    hdrLength b.bytes = some hl := by
  obtain ⟨header, data, bytes_eq, -, -, kind⟩ := sound
  rw [if_pos zero] at kind
  rw [bytes_eq, hdrLength_append kind.2.1, kind.2.2]

theorem Carried.cons {p : ℕ} {d : UInt8} (carried : Carried received p d) :
    Carried (bytes :: received) p d := by
  obtain ⟨packet, mem, here⟩ := carried
  exact ⟨packet, mem_cons_of_mem bytes mem, here⟩

theorem Parses.carried (parses : Parses bytes f) (i : ℕ) (d : UInt8) (at_i : f.data[i]? = some d) :
    Carried (bytes :: received) (f.offset + i) d :=
  ⟨bytes, mem_cons_self, f, parses, Nat.le_add_right _ _, by rwa [Nat.add_sub_cancel_left]⟩

theorem covers_of_runEnd {x : ℕ} (ge : u ≤ x) (lt : x < runEnd u queue) : Covers queue x := by
  induction queue generalizing u with
  | nil =>
    rw [runEnd] at lt
    omega
  | cons b queue ih =>
    rw [runEnd] at lt
    by_cases meets : b.start = u
    · rw [if_pos meets] at lt
      by_cases inside : x < b.stop
      · exact covers_cons.2 (.inl ⟨by omega, inside⟩)
      · exact covers_cons.2 (.inr (ih (by omega) lt))
    · rw [if_neg meets] at lt
      omega

theorem mark_bytes (marks_eq : mark u queue = some marks) :
    marks.map Block.bytes = queue.map Block.bytes := by
  induction queue generalizing u marks with
  | nil =>
    rw [mark] at marks_eq
    rw [← some.inj marks_eq]
  | cons b queue ih =>
    rw [mark] at marks_eq
    split at marks_eq
    next => cases marks_eq
    next hdr _ =>
      obtain ⟨rest, rest_eq, rfl⟩ := map_eq_some_iff.1 marks_eq
      rw [map_cons, map_cons, ih rest_eq]

def piece (bytes : List UInt8) (f : Packet) : Block :=
  ⟨f.offset, f.stop, if f.offset = 0 then bytes else f.data⟩

/-- The loop over the one block of a fragment. -/
theorem pieces_single (parses : Parses bytes f) :
    pieces f.more [if f.offset = 0 then bytes else f.data] f.offset ipf =
      if f.data = [] then some ipf
      else (place f.more (piece bytes f) ipf.holeCnt ipf.queue).map fun r =>
        { ipf with queue := r.1, holeCnt := r.2 } := by
  have short := parses.length_lt
  have near := parses.offset_lt
  obtain ⟨bytes_eq, is_header, -⟩ := id parses
  obtain ⟨hdr, hdr_eq, stop_eq⟩ : ∃ hdr,
    (if f.offset = 0 then hdrLength (if f.offset = 0 then bytes else f.data) else
      some 0) = some hdr ∧
      u32 ((f.offset : ℤ) + (if f.offset = 0 then bytes else f.data).length - (hdr : ℕ)) =
          f.stop := by
    by_cases zero : f.offset = 0
    · refine ⟨f.header.length, ?_, ?_⟩
      · rw [if_pos zero, if_pos zero, bytes_eq]
        exact hdrLength_append is_header
      · rw [if_pos zero, Packet.stop, zero, bytes_eq, length_append,
          show ((0 : ℕ) : ℤ) + ((f.header.length + f.data.length : ℕ) : ℤ) - (f.header.length : ℕ) =
            ((0 + f.data.length : ℕ) : ℤ) by push_cast; omega]
        exact u32_eq (by omega)
    · refine ⟨0, by rw [if_neg zero], ?_⟩
      rw [if_neg zero, Packet.stop, cast_zero, sub_zero, ← cast_add]
      exact u32_eq (by omega)
  rw [pieces, hdr_eq]
  dsimp only
  rw [stop_eq]
  by_cases empty : f.data = []
  · rw [if_pos (by rw [Packet.stop, empty]; rfl), if_pos empty, pieces]
  · have long := length_pos_iff.2 empty
    rw [if_neg (by rw [Packet.stop]; omega), if_neg empty, piece]
    cases place f.more
      ⟨f.offset, f.stop, if f.offset = 0 then bytes else f.data⟩ ipf.holeCnt ipf.queue with
    | none => rfl
    | some r => rfl

theorem piece_sound (parses : Parses bytes f) (ne : f.data ≠ []) :
    Sound (Carried (bytes :: received))
      (fun header => header.length = f.header.length) (piece bytes f) := by
  have long := length_pos_iff.2 ne
  obtain ⟨bytes_eq, is_header, -⟩ := id parses
  by_cases zero : f.offset = 0
  · refine ⟨f.header, f.data, ?_, rfl, parses.carried, ?_⟩
    · rw [piece]
      dsimp only
      rw [if_pos zero, bytes_eq]
    · rw [piece, Packet.stop]
      dsimp only
      rw [if_pos zero]
      exact ⟨by omega, is_header, rfl⟩
  · rw [piece, if_neg zero]
    exact sound_tail zero rfl parses.carried

/-! ### Marked pieces -/

structure Marks (received : List (List UInt8)) (ipf : Ipf) : Prop where
  mode : ipf.ipfEnd = 0
  ordered : Ordered 0 ipf.queue
  solid : Solid ipf.queue
  sound : ∃ hl, (∀ b ∈ ipf.queue, Sound (Carried received) (fun header => header.length = hl) b) ∧
    ((∃ b ∈ ipf.queue, b.start = 0) → hl + stopOf 0 ipf.queue < 2 ^ 16)
  hole : 0 ≤ tailHole ipf.queue ipf.holeCnt

theorem Marks.empty : Marks received ⟨[], junk, 0⟩ where
  mode := rfl
  ordered := trivial
  solid := fun _ => nofun
  sound := ⟨0, fun _ => nofun, fun ⟨_, mem, _⟩ => nomatch mem⟩
  hole := by
    rw [tailHole, if_pos rfl]
    exact Int.one_nonneg

theorem Marks.cons (held : Marks received ipf) : Marks (bytes :: received) ipf := by
  obtain ⟨hl, sounds, fits⟩ := held.sound
  exact ⟨held.mode, held.ordered, held.solid,
    ⟨hl, fun b mem => (sounds b mem).mono fun _ _ => Carried.cons, fits⟩, held.hole⟩

/-- A fragment goes to marked pieces. -/
theorem Marks.place (held : Marks received ipf) (parses : Parses bytes f)
    (fragment : f.more = true ∨ f.offset ≠ 0) (ne : f.data ≠ []) (harmless : Harmless f ipf) :
    ∃ queue holeCnt, place f.more (piece bytes f) ipf.holeCnt ipf.queue = some (queue, holeCnt) ∧
      Marks (bytes :: received) { ipf with queue := queue, holeCnt := holeCnt } ∧ queue ≠ [] := by
  have long := length_pos_iff.2 ne
  have short := parses.length_lt
  have nonempty : (piece bytes f).start < (piece bytes f).stop := by
    rw [piece, Packet.stop]
    dsimp only
    omega
  obtain ⟨hl, sounds, fits⟩ := held.sound
  by_cases again : f.offset = 0 ∧ ∃ b ∈ ipf.queue, b.start = 0
  · obtain ⟨zero, at_start⟩ := again
    have run := harmless.covered zero at_start
    have same := @place_covered f.more (piece bytes f) ipf.holeCnt ipf.queue held.ordered nonempty
      (fun x ge lt => covers_of_runEnd (zero_le x) (lt_of_lt_of_le lt run))
      (by
        rw [piece, Packet.stop]
        dsimp only
        rw [if_pos zero, parses.1, length_append]
        omega)
    obtain ⟨b, mem, -⟩ := at_start
    exact ⟨ipf.queue, ipf.holeCnt, same, held.cons, ne_nil_of_mem mem⟩
  · obtain ⟨hl', sounds', header_eq, fits'⟩ : ∃ hl',
        (∀ b ∈ ipf.queue, Sound (Carried (bytes :: received))
          (fun header => header.length = hl') b) ∧
        Sound (Carried (bytes :: received)) (fun header => header.length = hl') (piece bytes f) ∧
        ((f.offset = 0 ∨ ∃ b ∈ ipf.queue, b.start = 0) →
            hl' + max f.stop (stopOf 0 ipf.queue) < 2 ^ 16) := by
      by_cases zero : f.offset = 0
      · have apart : ∀ b ∈ ipf.queue, b.start ≠ 0 :=
          fun b mem at_zero => again ⟨zero, b, mem, at_zero⟩
        exact ⟨f.header.length,
          fun b mem => ((sounds b mem).mono fun _ _ => Carried.cons).rehead (apart b mem),
          piece_sound parses ne, fun _ => harmless.starts zero apart⟩
      · refine ⟨hl, fun b mem => (sounds b mem).mono fun _ _ => Carried.cons,
          (piece_sound parses ne).rehead zero, ?_⟩
        rintro (at_zero | ⟨b, mem, at_zero⟩)
        · exact absurd at_zero zero
        · have within := harmless.fits zero b mem at_zero hl ((sounds b mem).hdrLength at_zero)
          have before := fits ⟨b, mem, at_zero⟩
          omega
    obtain ⟨queue, holeCnt, placed_eq, inserted, total⟩ :=
      @place_inserted _ _ f.more (piece bytes f) ipf.holeCnt ipf.queue header_eq nonempty
      held.ordered held.solid sounds'
      (fun zero => ⟨fragment.resolve_right (not_not_intro zero),
        fun b mem at_zero => again ⟨zero, b, mem, at_zero⟩⟩)
    refine ⟨queue, holeCnt, placed_eq,
      ⟨held.mode, inserted.ordered, inserted.solid, ⟨hl', inserted.sound, ?_⟩, ?_⟩, inserted.ne⟩
    · rintro ⟨b, mem, at_zero⟩
      have bound := fits' (by
        rcases inserted.within b mem with mem | ge
        · exact .inr ⟨b, mem, at_zero⟩
        · rw [at_zero] at ge
          exact .inl (le_zero.1 ge))
      have stop_le := inserted.stop
      have stop_is : (piece bytes f).stop = f.stop := rfl
      dsimp only
      omega
    · dsimp only
      rw [total]
      cases more_eq : f.more with
      | true =>
        have before := held.hole
        simpa using before
      | false =>
        have enough := harmless.last more_eq
        have start_is : (piece bytes f).start = f.offset := rfl
        have stop_is : (piece bytes f).stop = f.stop := rfl
        rw [start_is, stop_is, if_neg (by simp)]
        omega

/-! ### What is passed on -/

theorem u16At_restored {header : List UInt8} {size : ℕ} (long : 20 ≤ header.length)
    (lt : size < 2 ^ 16) :
    u16At (restored header size) 2 = some size := by
  have high : (restored header size)[2]? = some (size / 256).toUInt8 := by
    rw [restored, getElem?_set_ne (by omega), getElem?_set_ne (by omega),
      getElem?_set_ne (by omega), getElem?_set_self (by omega)]
  have low : (restored header size)[2 + 1]? = some size.toUInt8 := by
    rw [restored, getElem?_set_ne (by omega), getElem?_set_ne (by omega),
      getElem?_set_self (by rw [length_set]; omega)]
  rw [u16At, high, low]
  simp only [toUInt8_eq, UInt8.toNat_ofNat']
  congr 1
  omega

theorem hdrLength_restored {header : List UInt8} {size : ℕ} :
    hdrLength (restored header size) = hdrLength header := by
  rw [hdrLength, hdrLength, restored, getElem?_set_ne (by omega),
    getElem?_set_ne (by omega), getElem?_set_ne (by omega),
    getElem?_set_ne (by omega)]

/-- A queue without gaps is passed on. -/
theorem complete_safe {header data : List UInt8} {rest : List (List UInt8)}
    (queue_eq : queue.map Block.bytes = (header ++ data) :: rest) (is_header : IsHeader header)
    (lt : header.length + (data ++ rest.flatten).length < 2 ^ 16)
    (right : ∀ p d, (data ++ rest.flatten)[p]? = some d → Carried received p d)
    (ordered : Ordered 0 marks) (whole : gaps 0 marks = 0) :
    ∃ mp, complete queue = some (.complete queue mp) ∧ SafeMessage received marks mp := by
  have size_eq : ((header ++ data) :: rest).flatten.length % 2 ^ 16 =
      header.length + (data ++ rest.flatten).length := by
    rw [flatten_cons, append_assoc, length_append, mod_eq_of_lt lt]
  have restored_eq := restore_eq queue_eq is_header
  rw [size_eq] at restored_eq
  generalize size_is : header.length + (data ++ rest.flatten).length = size at lt restored_eq
  have length_eq : (restored header size).length = header.length := by
    rw [restored]
    simp only [length_set]
  have flat : ((restored header size ++ data) :: rest).flatten =
      restored header size ++ (data ++ rest.flatten) := by
    rw [flatten_cons, append_assoc]
  refine ⟨_, by rw [complete, restored_eq, map_some], ordered, whole, _, _, flat, ?_, right, ?_⟩
  · have whole_header : IsHeader (restored header size) := by
      rw [IsHeader, hdrLength_restored, length_eq]
      exact is_header
    rw [flat]
    exact hdrLength_append whole_header
  · rw [flat, length_append, length_eq, size_is]
    exact u16At_append (u16At_restored is_header.2 lt)

/-- Marked pieces without holes are passed on. -/
theorem Marks.complete (held : Marks received ipf) (ne : ipf.queue ≠ [])
    (none_left : ipf.holeCnt = 0) :
    ∃ mp, complete ipf.queue = some (.complete ipf.queue mp) ∧
      SafeMessage received ipf.queue mp := by
  have hole := held.hole
  have nonneg := @gaps_nonneg ipf.queue 0
  rw [tailHole_of_ne ne] at hole
  have whole : gaps 0 ipf.queue = 0 := by omega
  obtain ⟨hl, sounds, fits⟩ := held.sound
  obtain ⟨header, data, rest, queue_eq, is_header, header_eq, length_eq, right⟩ :=
    join held.ordered ne sounds whole
  have at_start : ∃ b ∈ ipf.queue, b.start = 0 := by
    cases queue_is : ipf.queue with
    | nil => exact absurd queue_is ne
    | cons b queue =>
      refine ⟨b, mem_cons_self, ?_⟩
      by_contra start_ne
      rw [queue_is, gaps_apart (Ne.symm start_ne)] at whole
      have rest_nonneg := @gaps_nonneg queue b.stop
      omega
  have bound := fits at_start
  exact complete_safe queue_eq is_header (by omega) right held.ordered whole

/-! ### Queues in order -/

/-- A queue in order. -/
structure Sequence (received : List (List UInt8)) (ipf : Ipf) (header data : List UInt8)
    (rest : List (List UInt8)) : Prop where
  mode : ipf.ipfEnd ≠ 0
  queue : ipf.queue.map Block.bytes = (header ++ data) :: rest
  is_header : IsHeader header
  ne : data ≠ []
  stop : (data ++ rest.flatten).length = ipf.ipfEnd
  fits : header.length + ipf.ipfEnd < 2 ^ 16
  right : ∀ p d, (data ++ rest.flatten)[p]? = some d → Carried received p d

variable {header data : List UInt8} {rest : List (List UInt8)}

theorem Sequence.mark (sequence : Sequence received ipf header data rest) :
    ∃ marks, mark 0 ipf.queue = some marks ∧ Marked (Carried received)
      (fun h => h.length = header.length) 0 ipf.ipfEnd marks := by
  have fits := sequence.fits
  have stop := sequence.stop
  obtain ⟨marks, marks_eq, marked⟩ :=
    @mark_start (Carried received) ipf.queue (fun h => h.length = header.length) header data rest
    sequence.queue sequence.is_header rfl sequence.ne (by omega) sequence.right
  rw [stop] at marked
  exact ⟨marks, marks_eq, marked⟩

/-- A queue in order without empty blocks is marked. -/
theorem Sequence.toMarks (sequence : Sequence received ipf header data rest)
    (blocks : ∀ b ∈ ipf.queue, b.bytes ≠ []) :
    ∃ marks, marked ipf = some marks ∧ Marks received marks ∧ marks.queue ≠ [] := by
  obtain ⟨marks, marks_eq, held⟩ := sequence.mark
  have bytes_eq := mark_bytes marks_eq
  have ne : marks ≠ [] := by
    rintro rfl
    rw [sequence.queue] at bytes_eq
    exact nomatch bytes_eq
  have solid : Solid marks := by
    intro b mem
    have filled : b.bytes ≠ [] := by
      have mem' : b.bytes ∈ ipf.queue.map Block.bytes := by
        rw [← bytes_eq]
        exact List.mem_map_of_mem mem
      obtain ⟨c, c_mem, c_eq⟩ := List.mem_map.1 mem'
      rw [← c_eq]
      exact blocks c c_mem
    have long := length_pos_iff.2 filled
    by_cases zero : b.start = 0
    · obtain ⟨_, _, -, -, -, kind⟩ := held.sound b mem
      rw [if_pos zero] at kind
      omega
    · have length_eq := ((held.sound b mem).tail zero).1
      omega
  refine ⟨⟨marks, 1, 0⟩, by rw [Ip.marked, if_pos sequence.mode, marks_eq, map_some], ?_, ne⟩
  refine ⟨rfl, held.ordered, solid, ⟨header.length, held.sound, fun _ => ?_⟩, ?_⟩
  · dsimp only
    rw [held.stop]
    exact sequence.fits
  · dsimp only
    rw [tailHole_of_ne ne, held.whole]
    exact Int.one_nonneg

/-- A fragment goes to the end of a queue in order. -/
theorem Sequence.append {junk : ℤ} (sequence : Sequence received ipf header data rest)
    (parses : Parses bytes f) (easy : ipf.ipfEnd = f.offset)
    (fits : header.length + f.stop < 2 ^ 16) :
    Sequence (bytes :: received) ⟨ipf.queue ++ [unmarked f.data], junk, f.stop⟩ header data
      (rest ++ [f.data]) where
  mode := by
    have pos := sequence.mode
    rw [Packet.stop]
    dsimp only
    omega
  queue := by
    rw [map_append, sequence.queue]
    rfl
  is_header := sequence.is_header
  ne := sequence.ne
  stop := by
    have stop := sequence.stop
    rw [flatten_append, flatten_singleton, ← append_assoc, length_append, stop, Packet.stop, easy]
  fits := fits
  right := by
    have stop := sequence.stop
    rw [flatten_append, flatten_singleton, ← append_assoc]
    intro p d at_p
    have joined := @ok_append (Carried (bytes :: received)) (data ++ rest.flatten) f.data 0
      (fun i d at_i => by rw [zero_add]; exact (sequence.right i d at_i).cons)
      (fun i d at_i => by rw [zero_add, stop, easy]; exact parses.carried i d at_i) p d at_p
    rwa [zero_add] at joined

/-! ### Runs -/

/-- What is queued, with the fragments that came since the queue was made. -/
def Guarded (received : List (List UInt8)) : Option Ipf → Prop
  | none => True
  | some ipf => (∃ header data rest, Sequence received ipf header data rest) ∨ Marks received ipf ∧
      ipf.queue ≠ []

theorem Marks.safe {offset : ℕ} (held : Marks received ipf) (ne : ipf.queue ≠ []) :
    Safe received slot offset (.queued ipf) := by
  have hole := held.hole
  have nonneg := @gaps_nonneg ipf.queue 0
  rw [tailHole_of_ne ne] at hole
  have mode := held.mode
  refine ⟨fun _ => by omega, ipf.queue, ?_, held.ordered⟩
  simp [placed, mode]

theorem Sequence.safe {offset : ℕ} (sequence : Sequence received ipf header data rest) :
    Safe received slot offset (.queued ipf) := by
  obtain ⟨marks, marks_eq, marked⟩ := sequence.mark
  have mode := sequence.mode
  refine ⟨fun zero => absurd zero mode, marks, ?_, marked.ordered⟩
  simp [placed, mode, marks_eq]

theorem Accepted.fragment (accepted : Accepted bytes) (parses : Parses bytes f) :
    f.more = true ∨ f.offset ≠ 0 := by
  obtain ⟨hdr, field, -, -, -, -, field_eq, kind⟩ := accepted
  obtain ⟨bytes_eq, -, -, field', field_eq', more_eq, offset_eq⟩ := parses
  have same : field = field' := by
    rw [bytes_eq, u16At_append field_eq'] at field_eq
    exact (some.inj field_eq).symm
  subst same
  rcases kind with more | pos
  · exact .inl (by rw [more_eq]; exact decide_eq_true more)
  · exact .inr (by omega)

/-- The first fragment of a queue. -/
theorem step_first (parses : Parses bytes f) (fragment : f.more = true ∨ f.offset ≠ 0)
    (ne : f.data ≠ []) :
    ∃ ipf, ipRputLocal junk none [bytes] = some (.queued ipf) ∧ Guarded [bytes] (some ipf) ∧
      Safe [bytes] none f.offset (.queued ipf) := by
  have long := length_pos_iff.2 ne
  rw [ipRputLocal_parses parses fragment]
  dsimp only
  by_cases zero : f.offset = 0
  · have short := parses.length_lt
    obtain ⟨bytes_eq, is_header, -⟩ := id parses
    have sequence : Sequence [bytes] ⟨[unmarked bytes], junk, f.stop⟩ f.header f.data [] := by
      refine ⟨?_, ?_, is_header, ne, ?_, ?_, ?_⟩
      · rw [Packet.stop]
        dsimp only
        omega
      · rw [← bytes_eq]
        rfl
      · rw [flatten_nil, append_nil, Packet.stop, zero, Nat.zero_add]
      · rw [Packet.stop, zero, Nat.zero_add]
        exact short
      · intro p d at_p
        rw [flatten_nil, append_nil] at at_p
        have carried := @Parses.carried f bytes [] parses p d at_p
        rwa [zero, Nat.zero_add] at carried
    rw [if_pos zero]
    exact ⟨_, rfl, .inl ⟨_, _, _, sequence⟩, sequence.safe⟩
  · have harmless : Harmless f ⟨[], junk, 0⟩ := by
      refine ⟨fun at_zero => absurd at_zero zero, fun at_zero => absurd at_zero zero,
        fun _ _ => nofun, fun _ => ?_⟩
      rw [losses, tailHole, if_pos rfl]
    obtain ⟨queue, holeCnt, placed_eq, held, queue_ne⟩ :=
      (@Marks.empty [] junk).place parses fragment ne harmless
    have looped := @pieces_single f bytes ⟨[], junk, 0⟩ parses
    rw [if_neg zero, if_neg ne, placed_eq, map_some] at looped
    -- The place of the only piece leaves a hole.
    have left : holeCnt ≠ 0 := by
      rw [← (Prod.mk.inj (some.inj placed_eq)).2]
      split_ifs <;> decide
    rw [if_neg zero, ipReassemble, if_neg (by simp)]
    dsimp only
    rw [looped, map_some, if_pos left]
    exact ⟨_, rfl, .inr ⟨held, queue_ne⟩, held.safe queue_ne⟩

/-- A fragment that goes to the end of a queue in order. -/
theorem Sequence.step (sequence : Sequence received ipf header data rest) (parses : Parses bytes f)
    (fragment : f.more = true ∨ f.offset ≠ 0) (easy : inOrder ipf f.offset = true)
    (fits : ∀ b, ipf.queue.head? = some b → ∀ hdr, hdrLength b.bytes = some hdr →
      hdr + f.stop < 2 ^ 16) :
    ∃ outcome, ipRputLocal junk (some ipf) [bytes] = some outcome ∧
      Safe (bytes :: received) (some ipf) f.offset outcome ∧
      ∀ ipf', outcome = .queued ipf' → Guarded (bytes :: received) (some ipf') := by
  obtain ⟨pos, at_end⟩ := of_decide_eq_true easy
  have fits_first : header.length + f.stop < 2 ^ 16 := by
    have queue_eq := sequence.queue
    cases queue_is : ipf.queue with
    | nil =>
      rw [queue_is] at queue_eq
      exact nomatch queue_eq
    | cons b queue =>
      rw [queue_is, map_cons, cons.injEq] at queue_eq
      exact fits b (by rw [queue_is]; rfl) _
        (by rw [queue_eq.1]; exact hdrLength_append sequence.is_header)
  have longer := @Sequence.append f bytes received ipf header data rest ipf.holeCnt sequence parses
    at_end fits_first
  rw [ipRputLocal_parses parses fragment]
  dsimp only
  rw [if_pos easy]
  cases more_eq : f.more with
  | true =>
    rw [if_pos rfl]
    refine ⟨_, rfl, longer.safe, ?_⟩
    rintro _ ⟨⟩
    exact .inl ⟨_, _, _, longer⟩
  | false =>
    rw [if_neg (by simp)]
    obtain ⟨marks, marks_eq, marked⟩ := longer.mark
    have stop := longer.stop
    obtain ⟨mp, complete_eq, safe⟩ := complete_safe longer.queue longer.is_header
      (by rw [stop]; exact fits_first) longer.right marked.ordered marked.whole
    refine ⟨_, complete_eq, ⟨ipf, rfl, marks, ?_, safe⟩, nofun⟩
    rw [placed, if_pos easy]
    exact marks_eq

/-- A fragment that goes to marked pieces. -/
theorem Marks.step {marks : Ipf} (held : Marks received marks) (queue_ne : marks.queue ≠ [])
    (marks_eq : marked ipf = some marks) (parses : Parses bytes f)
    (fragment : f.more = true ∨ f.offset ≠ 0) (not_easy : inOrder ipf f.offset = false)
    (harmless : f.data ≠ [] → Harmless f marks) :
    ∃ outcome, ipRputLocal junk (some ipf) [bytes] = some outcome ∧
      Safe (bytes :: received) (some ipf) f.offset outcome ∧
      ∀ ipf', outcome = .queued ipf' → Guarded (bytes :: received) (some ipf') := by
  obtain ⟨ipf', looped, held', queue_ne'⟩ : ∃ ipf',
    pieces f.more [if f.offset = 0 then bytes else f.data] f.offset marks = some ipf' ∧
      Marks (bytes :: received) ipf' ∧ ipf'.queue ≠ [] := by
    rw [pieces_single parses]
    by_cases empty : f.data = []
    · rw [if_pos empty]
      exact ⟨marks, rfl, held.cons, queue_ne⟩
    · obtain ⟨queue, holeCnt, placed_eq, held', queue_ne'⟩ :=
        held.place parses fragment empty (harmless empty)
      rw [if_neg empty, placed_eq]
      exact ⟨_, rfl, held', queue_ne'⟩
  rw [ipRputLocal_parses parses fragment]
  dsimp only
  rw [if_neg (by rw [not_easy]; simp), ipReassemble]
  rw [marked] at marks_eq
  rw [marks_eq]
  dsimp only
  rw [looped, map_some]
  by_cases left : ipf'.holeCnt ≠ 0
  · rw [if_pos left]
    refine ⟨_, rfl, held'.safe queue_ne', ?_⟩
    rintro _ ⟨⟩
    exact .inr ⟨held', queue_ne'⟩
  · rw [if_neg left]
    obtain ⟨mp, complete_eq, safe⟩ := held'.complete queue_ne' (not_not.1 left)
    refine ⟨_, complete_eq, ⟨ipf, rfl, ipf'.queue, ?_, safe⟩, nofun⟩
    rw [placed, not_easy]
    rfl

/-- What a fragment does. -/
theorem Guarded.step (guarded : Guarded received slot) (start : slot = none → received = [])
    (accepted : Accepted bytes) (innocent : Innocent slot bytes) :
    SafeStep received junk slot bytes ∧ ∀ ipf, ipRputLocal junk slot [bytes] = some (.queued ipf) →
        Guarded (bytes :: received) (some ipf) := by
  obtain ⟨f, parses, kind⟩ := innocent
  have fragment := accepted.fragment parses
  obtain ⟨bytes_eq, -, -, field, field_eq, -, offset_eq⟩ := id parses
  have field_at : u16At bytes 6 = some field := by
    rw [bytes_eq]
    exact u16At_append field_eq
  suffices stepped : ∃ outcome, ipRputLocal junk slot [bytes] = some outcome ∧
    Safe (bytes :: received) slot f.offset outcome ∧
      ∀ ipf', outcome = .queued ipf' → Guarded (bytes :: received) (some ipf') by
    obtain ⟨outcome, outcome_eq, safe, next⟩ := stepped
    refine ⟨⟨field, outcome, field_at, outcome_eq, offset_eq ▸ safe⟩, fun ipf queued => ?_⟩
    rw [outcome_eq] at queued
    exact next ipf (some.inj queued)
  cases slot with
  | none =>
    obtain rfl := start rfl
    obtain ⟨ipf, queued, next, safe⟩ := @step_first f bytes junk parses fragment kind
    refine ⟨_, queued, safe, ?_⟩
    rintro _ ⟨⟩
    exact next
  | some ipf =>
    dsimp only at kind
    cases easy : inOrder ipf f.offset with
    | true =>
      rw [easy, if_pos rfl] at kind
      rcases guarded with ⟨header, data, rest, sequence⟩ | ⟨held, -⟩
      · exact sequence.step parses fragment easy kind
      · obtain ⟨pos, at_end⟩ := of_decide_eq_true easy
        exact absurd (at_end.symm.trans held.mode) pos
    | false =>
      rw [easy, if_neg (by simp)] at kind
      rcases guarded with ⟨header, data, rest, sequence⟩ | ⟨held, queue_ne⟩
      · obtain ⟨marks, marks_eq, held, queue_ne⟩ := sequence.toMarks (kind.1 sequence.mode)
        exact held.step queue_ne marks_eq parses fragment easy (kind.2 marks marks_eq)
      · have marks_eq : marked ipf = some ipf := if_neg (not_not_intro held.mode)
        exact held.step queue_ne marks_eq parses fragment easy (kind.2 ipf marks_eq)

theorem Runs.guarded (runs : Runs Innocent slot received) :
    Guarded received slot ∧ (slot = none → received = []) := by
  induction runs with
  | start => exact ⟨trivial, fun _ => rfl⟩
  | queued _ accepted innocent next ih => exact ⟨(ih.1.step ih.2 accepted innocent).2 _ next, nofun⟩
  | complete => exact ⟨trivial, fun _ => rfl⟩

/-- Whatever fragments came before, one that does no harm is dealt with safely. -/
theorem fragments_safe (runs : Runs Innocent slot received) (accepted : Accepted bytes)
    (innocent : Innocent slot bytes) :
    SafeStep received junk slot bytes :=
  (runs.guarded.1.step runs.guarded.2 accepted innocent).1

/-- A fragment overlaps the last one, which came first. -/
theorem fragments_safe_overlap :
    SafeStep [shortHeader 28 0x0002 ++ [17, 18, 19, 20, 21, 22, 23, 24]] 0
      (some ⟨[⟨16, 24, [17, 18, 19, 20, 21, 22, 23, 24]⟩], 1, 0⟩)
      (shortHeader 36 0x2001 ++ [9, 10, 11, 12, 13, 14, 15, 16, 0, 0, 0, 0, 0, 0, 0, 0]) := by
  have first : Runs Innocent (some ⟨[⟨16, 24, [17, 18, 19, 20, 21, 22, 23, 24]⟩], 1, 0⟩)
      [shortHeader 28 0x0002 ++ [17, 18, 19, 20, 21, 22, 23, 24]] := by
    refine @Runs.queued _ none
      [] (shortHeader 28 0x0002 ++ [17, 18, 19, 20, 21, 22, 23, 24]) 0 _ Runs.start ?_ ?_
        (by decide +kernel)
    · exact ⟨20, 0x0002, rfl, by decide, fun ne => absurd rfl ne, rfl, rfl, .inr (by decide)⟩
    · exact ⟨⟨shortHeader 28 0x0002, [17, 18, 19, 20, 21, 22, 23, 24], 16, false⟩,
        ⟨rfl, ⟨rfl, by decide⟩, rfl, 0x0002, rfl, by decide, rfl⟩, by decide⟩
  refine fragments_safe first ?_ ?_
  · exact ⟨20, 0x2001, rfl, by decide, fun ne => absurd rfl ne, rfl, rfl, .inl (by decide)⟩
  · refine ⟨⟨shortHeader 36 0x2001,
      [9, 10, 11, 12, 13, 14, 15, 16, 0, 0, 0, 0, 0, 0, 0, 0], 8, true⟩,
      ⟨rfl, ⟨rfl, by decide⟩, rfl, 0x2001, rfl, by decide, rfl⟩, fun marked =>
        absurd rfl marked, ?_⟩
    rintro _ ⟨⟩ -
    refine ⟨nofun, nofun, fun _ b mem zero => ?_, nofun⟩
    obtain rfl := mem_singleton.1 mem
    exact nomatch zero

/-- Two last fragments, one behind the other.  The hole in front of them is taken off the count with
the second, and they are passed on as a datagram. -/
theorem two_last_fragments :
    ¬ ∀ (slot : Option Ipf) (received : List (List UInt8)) (bytes : List UInt8) (junk : ℤ),
      Runs (fun _ _ => True) slot received → Accepted bytes →
        SafeStep received junk slot bytes := by
  intro always
  have first : Runs (fun _ _ => True) (some ⟨[⟨8, 16, [9, 10, 11, 12, 13, 14, 15, 16]⟩], 1, 0⟩)
      [shortHeader 28 0x0001 ++ [9, 10, 11, 12, 13, 14, 15, 16]] :=
    @Runs.queued _ none [] (shortHeader 28 0x0001 ++ [9, 10, 11, 12, 13, 14, 15, 16]) 0 _ Runs.start
      ⟨20, 0x0001, rfl, by decide, fun ne => absurd rfl ne, rfl, rfl, .inr (by decide)⟩ trivial
        (by decide +kernel)
  obtain ⟨field, outcome, field_eq, outcome_eq, safe⟩ :=
    always _ _ (shortHeader 28 0x0002 ++ [17, 18, 19, 20, 21, 22, 23, 24]) 0 first
    ⟨20, 0x0002, rfl, by decide, fun ne => absurd rfl ne, rfl, rfl, .inr (by decide)⟩
  have passed : ipRputLocal 0 (some ⟨[⟨8, 16, [9, 10, 11, 12, 13, 14, 15, 16]⟩], 1, 0⟩)
      [shortHeader 28 0x0002 ++ [17, 18, 19, 20, 21, 22, 23, 24]] =
        some (.complete [⟨8, 16, [9, 10, 11, 12, 13, 14, 15, 16]⟩,
          ⟨16, 24, [17, 18, 19, 20, 21, 22, 23, 24]⟩]
          [[9, 10, 0, 16, 13, 14, 0, 0], [17, 18, 19, 20, 21, 22, 23, 24]]) := by decide +kernel
  rw [passed] at outcome_eq
  obtain rfl := some.inj outcome_eq
  obtain ⟨ipf, slot_eq, marks, marks_eq, -, whole, -⟩ := safe
  obtain rfl := some.inj slot_eq
  obtain rfl : field = 2 := by
    have field_is : u16At (shortHeader 28 0x0002 ++ [17, 18, 19, 20, 21, 22, 23, 24]) 6 = some 2 :=
      rfl
    rw [field_is] at field_eq
    exact (some.inj field_eq).symm
  have marks_is : marks = [⟨8, 16, [9, 10, 11, 12, 13, 14, 15, 16]⟩,
      ⟨16, 24, [17, 18, 19, 20, 21, 22, 23, 24]⟩] :=
    (some.inj marks_eq).symm
  rw [marks_is] at whole
  exact absurd whole (by decide)

end Sol25.Ip
