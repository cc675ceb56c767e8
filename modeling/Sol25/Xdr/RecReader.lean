import Sol25.Xdr.RecStream

/-!
# Reading records

A stream that holds whole records, each cut into fragments in some way, is read as the records it
holds, whatever the chunks are in which the transport hands it over.
-/

namespace Sol25.Xdr

open List Option

/-! ### Fragments -/

/-- A fragment behind its header. -/
def frame (last : Bool) (data : List (BitVec 8)) : List (BitVec 8) :=
  bytes (BitVec.ofNat 32 data.length ||| if last then lastFrag else 0) ++ data

/-- A record that was cut into fragments. -/
structure Cut where
  /-- The fragments in front of the last one. -/
  front : List (List (BitVec 8))
  /-- The last fragment. -/
  final : List (BitVec 8)

namespace Cut

/-- The bytes of the record. -/
def payload (c : Cut) : List (BitVec 8) := c.front.flatten ++ c.final

def wire (c : Cut) : List (BitVec 8) := c.front.flatMap (frame false) ++ frame true c.final

/-- The lengths of the fragments fit into their headers. -/
structure Fits (c : Cut) : Prop where
  front : ∀ data ∈ c.front, data.length < 2 ^ 31
  final : c.final.length < 2 ^ 31

end Cut

theorem lastFrag_getElem {i : ℕ} (bound : i < 32) : lastFrag[i] = decide (i = 31) := by
  revert i
  decide

theorem length_getElem {n : ℕ} (small : n < 2 ^ 31) : (BitVec.ofNat 32 n)[31] = false := by
  rw [← BitVec.getLsbD_eq_getElem, BitVec.getLsbD_ofNat, Nat.testBit_lt_two_pow small,
    Bool.and_false]

theorem header_last {n : ℕ} (small : n < 2 ^ 31) (last : Bool) :
    decide ((BitVec.ofNat 32 n ||| if last then lastFrag else 0) &&& lastFrag ≠ 0) = last := by
  have marked : (BitVec.ofNat 32 n ||| if last then lastFrag else 0) &&& lastFrag =
      if last then lastFrag else 0 := by
    ext i bound
    by_cases top : i = 31
    · subst top
      cases last <;> simp [lastFrag_getElem, length_getElem small]
    · cases last <;> simp [top, lastFrag_getElem bound]
  rw [marked]
  cases last <;> decide

theorem header_length {n : ℕ} (small : n < 2 ^ 31) (last : Bool) :
    ((BitVec.ofNat 32 n ||| if last then lastFrag else 0) &&& ~~~lastFrag).toNat = n := by
  have kept : (BitVec.ofNat 32 n ||| if last then lastFrag else 0) &&& ~~~lastFrag =
      BitVec.ofNat 32 n := by
    ext i bound
    by_cases top : i = 31
    · subst top
      cases last <;> simp [lastFrag_getElem, length_getElem small]
    · cases last <;> simp [top, lastFrag_getElem bound]
  rw [kept, BitVec.toNat_ofNat, Nat.mod_eq_of_lt (by omega)]

theorem intLen_of_lt {len : ℕ} (small : len < 2 ^ 31) : intLen len = len := by
  rw [intLen, BitVec.toInt_eq_toNat_of_lt (by rw [BitVec.toNat_ofNat]; omega), BitVec.toNat_ofNat]
  omega

namespace Reader

variable {chunk : ℕ → ℕ}

/-! ### Input bytes -/

/-- The reader `s` is `r` after `n` more bytes of the stream were consumed. -/
structure Consumed (r : Reader) (n : ℕ) (s : Reader) : Prop where
  view : s.view = r.view.drop n
  fbtbc : s.fbtbc = r.fbtbc
  last : s.last = r.last

theorem view_fbtbc (r : Reader) (n : ℕ) : ({ r with fbtbc := n } : Reader).view = r.view := rfl

theorem Consumed.refl (r : Reader) : Consumed r 0 r := ⟨by simp, rfl, rfl⟩

theorem Consumed.trans {r s t : Reader} {m n : ℕ} (first : Consumed r m s)
    (second : Consumed s n t) :
    Consumed r (m + n) t := by
  refine ⟨?_, second.fbtbc.trans first.fbtbc, second.last.trans first.last⟩
  rw [second.view, first.view, drop_drop]

theorem fillInputBuf_spec {r : Reader} (empty : r.buf = []) (more : r.view ≠ []) (doAlign : Bool) :
    ∃ s, r.fillInputBuf chunk doAlign = some s ∧ s.buf ≠ [] ∧ Consumed r 0 s := by
  rw [view, empty, nil_append] at more
  refine ⟨_, if_neg more, ?_, ?_, rfl, rfl⟩
  · obtain ⟨b, bs, input_eq⟩ := exists_cons_of_ne_nil more
    simp only [input_eq, ne_eq, take_eq_nil_iff, reduceCtorEq, or_false]
    omega
  · simp [view, empty]

theorem consumed_buf {r : Reader} {n finger : ℕ} (held : n ≤ r.buf.length) :
    Consumed r n { r with finger := finger, buf := r.buf.drop n } := by
  refine ⟨?_, rfl, rfl⟩
  simp only [view]
  rw [drop_append_of_le_length held]

theorem getInputBytes_spec {fuel : ℕ} {r : Reader} {len : ℕ} {doAlign : Bool}
    {addr : List (BitVec 8)} (there : len ≤ r.view.length) (some_fuel : 0 < fuel)
    (enough : 2 * len ≤ fuel) (more : r.buf = [] → 2 * len < fuel) :
    ∃ s, getInputBytes chunk fuel r len doAlign addr = some (addr ++ r.view.take len, s) ∧
      Consumed r len s := by
  induction fuel generalizing r len doAlign addr with
  | zero => omega
  | succ fuel ih =>
    rw [getInputBytes]
    rcases Nat.eq_zero_or_pos len with rfl | positive
    · rw [if_pos rfl]
      exact ⟨r, by simp, Consumed.refl r⟩
    rw [if_neg (by omega)]
    by_cases empty : r.buf = []
    · have view_ne : r.view ≠ [] := ne_nil_of_length_pos (by omega)
      obtain ⟨s, fills, filled, moved⟩ := @fillInputBuf_spec chunk r empty view_ne doAlign
      have same : s.view = r.view := by rw [moved.view, drop_zero]
      have := more empty
      obtain ⟨t, gets, consumed⟩ := @ih s len doAlign addr (by rw [same]; exact there)
        (by omega) (by omega) (fun none => absurd none filled)
      rw [if_pos empty, fills]
      refine ⟨t, by rw [← same]; exact gets, ?_⟩
      simpa using moved.trans consumed
    · rw [if_neg empty]
      have held : 0 < r.buf.length := length_pos_of_ne_nil empty
      generalize current_eq : min len r.buf.length = current
      have moved := @consumed_buf r current (r.finger + current) (by omega)
      have taken : r.buf.take current = r.view.take current := by
        rw [view, take_append_of_le_length (by omega)]
      have rest : len - current ≤ (r.view.drop current).length := by
        rw [length_drop]
        omega
      obtain ⟨t, gets, consumed⟩ := @ih _ (len - current) false (addr ++ r.buf.take current)
        (by rw [moved.view]; exact rest) (by omega) (by omega) (fun _ => by omega)
      refine ⟨t, ?_, ?_⟩
      · simp only
        rw [gets, taken, moved.view, append_assoc, ← take_add, Nat.add_sub_cancel' (by omega)]
      · have := moved.trans consumed
        rwa [Nat.add_sub_cancel' (by omega)] at this

theorem skipInputBytes_spec {fuel : ℕ} {r : Reader} {cnt : ℕ} (there : cnt ≤ r.view.length)
    (some_fuel : 0 < fuel) (enough : 2 * cnt ≤ fuel) (more : r.buf = [] → 2 * cnt < fuel) :
    ∃ s, skipInputBytes chunk fuel r cnt = some s ∧ Consumed r cnt s := by
  induction fuel generalizing r cnt with
  | zero => omega
  | succ fuel ih =>
    rw [skipInputBytes]
    rcases Nat.eq_zero_or_pos cnt with rfl | positive
    · rw [if_pos rfl]
      exact ⟨r, rfl, Consumed.refl r⟩
    rw [if_neg (by omega)]
    by_cases empty : r.buf = []
    · have view_ne : r.view ≠ [] := ne_nil_of_length_pos (by omega)
      obtain ⟨s, fills, filled, moved⟩ := @fillInputBuf_spec chunk r empty view_ne false
      have same : s.view = r.view := by rw [moved.view, drop_zero]
      have := more empty
      obtain ⟨t, skips, consumed⟩ := @ih s cnt (by rw [same]; exact there) (by omega) (by omega)
        (fun none => absurd none filled)
      rw [if_pos empty, fills]
      exact ⟨t, skips, by simpa using moved.trans consumed⟩
    · rw [if_neg empty]
      have held : 0 < r.buf.length := length_pos_of_ne_nil empty
      generalize current_eq : min cnt r.buf.length = current
      have moved := @consumed_buf r current (r.finger + current) (by omega)
      have rest : cnt - current ≤ (r.view.drop current).length := by
        rw [length_drop]
        omega
      obtain ⟨t, skips, consumed⟩ := @ih _ (cnt - current) (by rw [moved.view]; exact rest)
        (by omega) (by omega) (fun _ => by omega)
      refine ⟨t, skips, ?_⟩
      have := moved.trans consumed
      rwa [Nat.add_sub_cancel' (by omega)] at this

/-- The header of a fragment is taken off the stream. -/
theorem setInputFragment_spec {r : Reader} {last : Bool} {data rest : List (BitVec 8)}
    (view_eq : r.view = frame last data ++ rest) (small : data.length < 2 ^ 31) :
    ∃ s, r.setInputFragment chunk = some s ∧ s.view = data ++ rest ∧ s.fbtbc = data.length ∧
      s.last = last := by
  have there : 4 ≤ r.view.length := by
    simp only [view_eq, frame, length_append, length_bytes]
    omega
  obtain ⟨s, gets, consumed⟩ := @getInputBytes_spec chunk 9 r 4 r.last [] there (by omega)
    (by omega) (fun _ => by omega)
  have head : r.view.take 4 = bytes (BitVec.ofNat 32 data.length ||| if last then lastFrag
      else 0) := by
    rw [view_eq, frame, append_assoc]
    exact take_left' (length_bytes _)
  have tail : r.view.drop 4 = data ++ rest := by
    rw [view_eq, frame, append_assoc]
    exact drop_left' (length_bytes _)
  rw [setInputFragment, gets, nil_append, head]
  refine ⟨_, rfl, ?_, ?_, ?_⟩
  · exact consumed.view.trans tail
  · simp only [word_bytes, header_length small]
  · simp only [word_bytes, header_last small]

/-! ### The current record -/

/-- What is left of the current record is `current`, and the stream goes on with `rest`. -/
structure Reads (r : Reader) (current rest : List (BitVec 8)) : Prop where
  split : ∃ data after, r.view = data ++ after ∧ r.fbtbc = data.length ∧
    (if r.last then current = data ∧ after = rest
      else ∃ c : Cut, c.Fits ∧ current = data ++ c.payload ∧ after = c.wire ++ rest)

theorem Reads.of_wire {r : Reader} {c : Cut} {rest : List (BitVec 8)} (fits : c.Fits)
    (view_eq : r.view = c.wire ++ rest) (done : r.fbtbc = 0) (open' : r.last = false) :
    Reads r c.payload rest := by
  refine ⟨[], c.wire ++ rest, view_eq, done, ?_⟩
  rw [open', if_neg (by decide)]
  exact ⟨c, fits, rfl, rfl⟩

theorem Reads.of_last {r : Reader} {data rest : List (BitVec 8)} (view_eq : r.view = data ++ rest)
    (left : r.fbtbc = data.length) (closed : r.last = true) : Reads r data rest := by
  refine ⟨data, rest, view_eq, left, ?_⟩
  rw [closed, if_pos rfl]
  exact ⟨rfl, rfl⟩

/-- Consuming bytes of the current fragment. -/
theorem Reads.consume {r s : Reader} {current rest : List (BitVec 8)} {n : ℕ}
    (reads : Reads r current rest) (inside : n ≤ r.fbtbc) (moved : Consumed r n s) :
    Reads { s with fbtbc := s.fbtbc - n } (current.drop n) rest ∧
      r.view.take n = current.take n ∧ n ≤ current.length := by
  obtain ⟨data, after, view_eq, left, parts⟩ := reads.split
  have short : n ≤ data.length := by omega
  have view_drop : s.view = data.drop n ++ after := by
    rw [moved.view, view_eq, drop_append_of_le_length short]
  have left' : s.fbtbc - n = (data.drop n).length := by
    rw [moved.fbtbc, left, length_drop]
  rw [view_eq, take_append_of_le_length short]
  by_cases closed : r.last = true
  · rw [if_pos closed] at parts
    obtain ⟨rfl, rfl⟩ := parts
    exact ⟨Reads.of_last view_drop left' (moved.last.trans closed), rfl, short⟩
  · rw [if_neg closed] at parts
    obtain ⟨c, fits, rfl, rfl⟩ := parts
    rw [take_append_of_le_length short, drop_append_of_le_length short]
    refine ⟨⟨data.drop n, _, view_drop, left', ?_⟩, rfl, ?_⟩
    · simp only [moved.last, closed]
      exact ⟨c, fits, rfl, rfl⟩
    · rw [length_append]
      omega

/-- Going on to the next fragment of the record. -/
theorem Reads.next {r : Reader} {current rest : List (BitVec 8)} (reads : Reads r current rest)
    (done : r.fbtbc = 0) (open' : r.last = false) :
    ∃ s, r.setInputFragment chunk = some s ∧ Reads s current rest ∧
      s.view.length < r.view.length := by
  obtain ⟨data, after, view_eq, left, parts⟩ := reads.split
  rw [open', if_neg (by decide)] at parts
  obtain ⟨⟨front, final⟩, fits, rfl, rfl⟩ := parts
  obtain rfl : data = [] := eq_nil_of_length_eq_zero (by omega)
  rw [nil_append] at view_eq
  have shorter {last : Bool} {data rest : List (BitVec 8)} :
      (data ++ rest).length < (frame last data ++ rest).length := by
    simp only [frame, length_append, length_bytes]
    omega
  cases front with
  | nil =>
    have framed : r.view = frame true final ++ rest := by
      rw [view_eq]
      simp [Cut.wire]
    obtain ⟨s, sets, view_eq', left', last_eq⟩ :=
      @setInputFragment_spec chunk _ _ _ _ framed fits.final
    refine ⟨s, sets, ?_, by rw [view_eq', framed]; exact shorter⟩
    exact Reads.of_last view_eq' left' last_eq
  | cons first front =>
    have framed : r.view = frame false first ++ ((⟨front, final⟩ : Cut).wire ++ rest) := by
      rw [view_eq]
      simp [Cut.wire]
    obtain ⟨s, sets, view_eq', left', last_eq⟩ :=
      @setInputFragment_spec chunk _ _ _ _ framed (fits.front _ mem_cons_self)
    refine ⟨s, sets, ?_, by rw [view_eq', framed]; exact shorter⟩
    refine ⟨first, _, view_eq', left', ?_⟩
    rw [last_eq, if_neg (by decide)]
    refine ⟨⟨front, final⟩, ⟨?_, fits.final⟩, ?_, rfl⟩
    · exact fun data mem => fits.front data (mem_cons_of_mem _ mem)
    · simp [Cut.payload]

theorem Reads.fbtbc_le {r : Reader} {current rest : List (BitVec 8)}
    (reads : Reads r current rest) :
    r.fbtbc ≤ r.view.length := by
  obtain ⟨data, after, view_eq, left, -⟩ := reads.split
  rw [view_eq, length_append]
  omega

theorem Reads.finished {r : Reader} {current rest : List (BitVec 8)} (reads : Reads r current rest)
    (done : r.fbtbc = 0) (closed : r.last = true) : current = [] ∧ r.view = rest := by
  obtain ⟨data, after, view_eq, left, parts⟩ := reads.split
  rw [if_pos closed] at parts
  obtain ⟨rfl, rfl⟩ := parts
  obtain rfl : current = [] := eq_nil_of_length_eq_zero (by omega)
  exact ⟨rfl, by simpa using view_eq⟩

/-! ### Calls -/

theorem getbytesLoop_spec {fuel : ℕ} {r : Reader} {current rest addr : List (BitVec 8)} {len : ℕ}
    (reads : Reads r current rest) (enough : r.view.length < fuel) :
    ∃ s, getbytesLoop chunk fuel r len addr =
        some (if len ≤ current.length then some (addr ++ current.take len) else none, s) ∧
      Reads s (current.drop len) rest := by
  induction fuel generalizing r current len addr with
  | zero => omega
  | succ fuel ih =>
    rw [getbytesLoop]
    rcases Nat.eq_zero_or_pos len with rfl | positive
    · rw [if_pos rfl]
      exact ⟨r, by simp, reads⟩
    rw [if_neg (by omega)]
    rcases Nat.eq_zero_or_pos r.fbtbc with done | left
    · rw [if_pos done]
      by_cases closed : r.last = true
      · rw [if_pos closed]
        obtain ⟨rfl, -⟩ := reads.finished done closed
        refine ⟨r, ?_, by simpa using reads⟩
        rw [if_neg (by simp only [length_nil]; omega)]
      · rw [if_neg closed]
        obtain ⟨s, sets, reads', shorter⟩ :=
          @Reads.next chunk _ _ _ reads done (Bool.eq_false_iff.2 closed)
        rw [sets]
        exact ih reads' (by omega)
    · rw [if_neg (by omega)]
      generalize current_eq : min len r.fbtbc = n
      have bound := reads.fbtbc_le
      obtain ⟨s, gets, moved⟩ := @getInputBytes_spec chunk (2 * n + 1) r n false [] (by omega)
        (by omega) (by omega) (fun _ => by omega)
      obtain ⟨reads', taken, short⟩ := reads.consume (by omega) moved
      have shorter : s.view.length < r.view.length := by
        rw [moved.view, length_drop]
        omega
      obtain ⟨t, loops, reads''⟩ := @ih _ (current.drop n) (addr ++ current.take n) (len - n) reads'
        (by rw [view_fbtbc]; omega)
      have fits_iff : len - n ≤ (current.drop n).length ↔ len ≤ current.length := by
        rw [length_drop]
        omega
      simp only [fits_iff] at loops
      rw [append_assoc, ← take_add, Nat.add_sub_cancel' (by omega)] at loops
      rw [drop_drop, Nat.add_sub_cancel' (by omega)] at reads''
      refine ⟨t, ?_, reads''⟩
      simp only [gets, nil_append, taken]
      exact loops

theorem getbytes_spec {r : Reader} {current rest : List (BitVec 8)} (reads : Reads r current rest)
    {len : ℕ} (small : len < 2 ^ 31) :
    ∃ s, r.getbytes chunk len =
        some (if len ≤ current.length then some (current.take len) else none, s) ∧
      Reads s (current.drop len) rest := by
  rw [getbytes, intLen_of_lt small]
  exact getbytesLoop_spec reads (Nat.lt_succ_self _)

theorem getlong_spec {r : Reader} {current rest : List (BitVec 8)} (reads : Reads r current rest) :
    ∃ s, r.getlong chunk =
        some (if 4 ≤ current.length then some (word (current.take 4)) else none, s) ∧
      Reads s (current.drop 4) rest := by
  rw [getlong]
  by_cases fast : 4 ≤ r.fbtbc ∧ 4 ≤ r.buf.length
  · rw [if_pos fast]
    have in_buf : r.buf.take 4 = r.view.take 4 := by
      rw [view, take_append_of_le_length fast.2]
    have taken (finger : ℕ) := reads.consume fast.1 (@consumed_buf r 4 finger fast.2)
    obtain ⟨-, same, short⟩ := taken 0
    rw [if_pos short, ← same, ← in_buf]
    split_ifs with crooked
    · exact ⟨_, rfl, (taken _).1⟩
    · exact ⟨_, rfl, (taken _).1⟩
  · rw [if_neg fast]
    obtain ⟨s, gets, reads'⟩ := @getbytes_spec chunk _ _ _ reads 4 (by decide)
    refine ⟨s, ?_, reads'⟩
    rw [gets]
    split_ifs <;> rfl

/-- Skipping a record leaves the reader in front of the next one. -/
theorem skiprecordLoop_spec {fuel : ℕ} {r : Reader} {current rest : List (BitVec 8)}
    (reads : Reads r current rest) (enough : r.view.length < fuel) :
    ∃ s, skiprecordLoop chunk fuel r = some s ∧ s.view = rest ∧ s.fbtbc = 0 ∧ s.last = false := by
  induction fuel generalizing r current with
  | zero => omega
  | succ fuel ih =>
    rw [skiprecordLoop]
    by_cases goes_on : 0 < r.fbtbc ∨ r.last = false
    · rw [if_pos goes_on]
      obtain ⟨s, skips, moved⟩ := @skipInputBytes_spec chunk (2 * r.fbtbc + 1) r r.fbtbc
        reads.fbtbc_le (by omega) (by omega) (fun _ => by omega)
      obtain ⟨reads', -, -⟩ := reads.consume (Nat.le_refl _) moved
      rw [moved.fbtbc, Nat.sub_self] at reads'
      have length_eq : s.view.length = r.view.length - r.fbtbc := by
        rw [moved.view, length_drop]
      have bound := reads.fbtbc_le
      simp only [skips]
      by_cases closed : s.last = true
      · rw [if_pos closed]
        have left : 0 < r.fbtbc := by
          rcases goes_on with left | open'
          · exact left
          · rw [moved.last, open'] at closed
            exact absurd closed (by decide)
        exact ih reads' (by rw [view_fbtbc]; omega)
      · rw [if_neg closed]
        obtain ⟨t, sets, reads'', shorter⟩ :=
          @Reads.next chunk _ _ _ reads' rfl (Bool.eq_false_iff.2 closed)
        rw [sets]
        exact ih reads'' (by rw [view_fbtbc s 0] at shorter; omega)
    · rw [if_neg goes_on]
      obtain ⟨not_left, not_open⟩ := not_or.1 goes_on
      have done : r.fbtbc = 0 := by omega
      obtain ⟨-, view_eq⟩ := reads.finished done (by simpa using not_open)
      exact ⟨_, rfl, view_eq, done, rfl⟩

/-! ### Runs -/

/-- The reader stands where the reader of records does. -/
def Agrees (r : Reader) (s : Records) : Prop :=
  ∃ cuts : List Cut, (∀ c ∈ cuts, c.Fits) ∧ Reads r s.current (cuts.flatMap Cut.wire) ∧
    s.later = cuts.map Cut.payload

theorem Agrees.step {r : Reader} {s s' : Records} {call : Step} {v : Option Value}
    (agrees : Agrees r s) (small : ∀ len, call = .get (.getbytes len) → len < 2 ^ 31)
    (steps : s.step call = some (v, s')) :
    ∃ r', r.step chunk call = some (v, r') ∧ Agrees r' s' := by
  obtain ⟨cuts, fits, reads, later_eq⟩ := agrees
  cases call with
  | skiprecord =>
    cases cuts with
    | nil => simp [Records.step, later_eq] at steps
    | cons c cuts =>
      simp only [Records.step, later_eq, map_cons, some.injEq, Prod.mk.injEq] at steps
      obtain ⟨rfl, rfl⟩ := steps
      obtain ⟨r', skips, view_eq, done, open'⟩ :=
        @skiprecordLoop_spec chunk (r.view.length + 2) _ _ _ reads (by omega)
      refine ⟨r', by rw [Reader.step, skiprecord, skips]; rfl, cuts, ?_, ?_, rfl⟩
      · exact fun c mem => fits c (mem_cons_of_mem _ mem)
      · exact Reads.of_wire (fits c mem_cons_self) (by simpa using view_eq) done open'
  | get get =>
    have dropped {n : ℕ}
      {r' : Reader} (reads' : Reads r' (s.current.drop n) (cuts.flatMap Cut.wire)) :
        Agrees r' (s.take n).2 := by
      refine ⟨cuts, fits, ?_, ?_⟩
      · rw [Records.take]
        split_ifs with short
        · exact reads'
        · rwa [drop_eq_nil_of_le (by omega)] at reads'
      · rw [Records.take]
        split_ifs <;> exact later_eq
    have taken (n : ℕ) : (s.take n).1 =
        if n ≤ s.current.length then some (s.current.take n) else none := by
      rw [Records.take]
      split_ifs <;> rfl
    cases get with
    | getlong =>
      obtain ⟨r', gets, reads'⟩ := @getlong_spec chunk _ _ _ reads
      simp only [Records.step, some.injEq, Prod.mk.injEq] at steps
      obtain ⟨rfl, rfl⟩ := steps
      refine ⟨r', ?_, dropped reads'⟩
      rw [Reader.step, gets, taken]
      split_ifs <;> rfl
    | getbytes len =>
      obtain ⟨r', gets, reads'⟩ := @getbytes_spec chunk _ _ _ reads len (small len rfl)
      simp only [Records.step, some.injEq, Prod.mk.injEq] at steps
      obtain ⟨rfl, rfl⟩ := steps
      refine ⟨r', ?_, dropped reads'⟩
      rw [Reader.step, gets, taken]
      rfl

/-- Whatever is read of the records is read of the stream. -/
theorem Agrees.run {r : Reader} {s s' : Records} {calls : List Step} {vs : List (Option Value)}
    (agrees : Agrees r s) (small : ∀ len, .get (.getbytes len) ∈ calls → len < 2 ^ 31)
    (runs : s.run calls = some (vs, s')) :
    ∃ r', r.run chunk calls = some (vs, r') ∧ Agrees r' s' := by
  induction calls generalizing r s vs with
  | nil =>
    simp only [Records.run, some.injEq, Prod.mk.injEq] at runs
    obtain ⟨rfl, rfl⟩ := runs
    exact ⟨r, rfl, agrees⟩
  | cons call calls ih =>
    simp only [Records.run, bind_eq_some_iff, map_eq_some_iff, Prod.exists, Prod.mk.injEq] at runs
    obtain ⟨v, s₁, steps, vs', s₂, runs', rfl, rfl⟩ := runs
    obtain ⟨r₁, steps', agrees₁⟩ := @Agrees.step chunk _ _ _ _ _ agrees
      (fun len here => small len (here ▸ mem_cons_self)) steps
    obtain ⟨r₂, runs'', agrees₂⟩ := ih agrees₁ (fun len mem => small len (mem_cons_of_mem _ mem))
      runs'
    refine ⟨r₂, ?_, agrees₂⟩
    simp only [Reader.run, steps', bind_some, runs'', map_some]

theorem Agrees.create (recvsize : ℕ) {cuts : List Cut} (fits : ∀ c ∈ cuts, c.Fits) :
    Agrees (create recvsize (cuts.flatMap Cut.wire)) ⟨[], cuts.map Cut.payload⟩ :=
  ⟨cuts, fits, Reads.of_last rfl rfl rfl, rfl⟩

end Reader

end Sol25.Xdr
