import Sol25.Xdr.MblkRoundTrip
import Sol25.Xdr.RecReader

/-!
# The round trip of record streams

A writer keeps the finished records that were not yet sent and the current fragment in one buffer.
What it has given to the transport are whole records, and fragments of the current one; a reader
that goes from record to record finds the values that were put.
-/

namespace Sol25.Xdr

open List Option

namespace Writer

/-! ### The buffer -/

/-- The records `sent` are on the wire, with the fragments `front` of the current one; the records
`pending` wait in the buffer, with the current fragment `data`. -/
structure Holds (w : Writer) (sent pending : List Cut) (front : List (List (BitVec 8)))
    (data : List (BitVec 8)) : Prop where
  buf : ∃ header, header.length = 4 ∧ w.buf = pending.flatMap Cut.wire ++ header ++ data
  header : w.header = (pending.flatMap Cut.wire).length
  written : w.written = sent.flatMap Cut.wire ++ front.flatMap (frame false)
  /-- A flush in the middle of a record empties the buffer. -/
  alone : front ≠ [] → pending = [] ∧ w.fragSent = true
  room : w.buf.length ≤ w.boundry
  large : 100 ≤ w.boundry
  small : w.boundry < 2 ^ 31
  /-- The header and the end of the buffer lie at multiples of 4. -/
  even : w.header % 4 = 0 ∧ w.boundry % 4 = 0
  even_front : front.flatten.length % 4 = 0
  fits : ∀ c ∈ sent ++ pending, c.Fits
  fits_front : ∀ data ∈ front, data.length < 2 ^ 31

variable {w : Writer} {sent pending : List Cut} {front : List (List (BitVec 8))}
  {data : List (BitVec 8)}

/-- An empty fragment behind records that were all sent. -/
theorem Holds.emptied {cuts : List Cut} (four : w.buf.length = 4) (header : w.header = 0)
    (written : w.written = cuts.flatMap Cut.wire ++ front.flatMap (frame false))
    (alone : front ≠ [] → w.fragSent = true) (large : 100 ≤ w.boundry) (small : w.boundry < 2 ^ 31)
    (even : w.boundry % 4 = 0) (even_front : front.flatten.length % 4 = 0)
    (fits : ∀ c ∈ cuts, c.Fits) (fits_front : ∀ data ∈ front, data.length < 2 ^ 31) :
    Holds w cuts [] front [] where
  buf := ⟨w.buf, four, by simp⟩
  header := header
  written := written
  alone := fun some_front => ⟨rfl, alone some_front⟩
  room := by omega
  large := large
  small := small
  even := ⟨by omega, even⟩
  even_front := even_front
  fits := by simpa using fits
  fits_front := fits_front

section

variable (holds : Holds w sent pending front data)

include holds

theorem Holds.length_buf :
    w.buf.length = w.header + 4 + data.length := by
  obtain ⟨header, four, buf_eq⟩ := holds.buf
  rw [buf_eq, holds.header, length_append, length_append, four]

theorem Holds.fits_data : data.length < 2 ^ 31 := by
  have := holds.length_buf
  have := holds.room
  have := holds.small
  omega

theorem Holds.patched (last : Bool) : w.patched (if last then lastFrag else 0) =
    some (pending.flatMap Cut.wire ++ frame last data) := by
  obtain ⟨header, four, buf_eq⟩ := holds.buf
  have before : w.buf.take w.header = pending.flatMap Cut.wire := by
    rw [buf_eq, append_assoc]
    exact take_left' holds.header.symm
  have after : w.buf.drop (w.header + 4) = data := by
    rw [buf_eq]
    exact drop_left' (by rw [length_append, four, holds.header])
  have fragLen : w.fragLen = data.length := by
    have := holds.length_buf
    rw [Writer.fragLen]
    omega
  rw [Writer.patched, if_neg (not_not.2 holds.even.1), before, after, fragLen, frame, append_assoc]

theorem Holds.store {bs : List (BitVec 8)} (space : w.buf.length + bs.length ≤ w.boundry) :
    Holds { w with buf := w.buf ++ bs } sent pending front (data ++ bs) := by
  obtain ⟨header, four, buf_eq⟩ := holds.buf
  refine { holds with buf := ⟨header, four, ?_⟩, room := ?_ }
  · simp only [buf_eq, append_assoc]
  · rw [length_append]
    exact space

/-- What `flush_out` gives to the transport; only room for a header is left in the buffer. -/
theorem Holds.flushOut (fragSent eor : Bool) :
    ({ w with fragSent := fragSent } : Writer).flushOut eor = some { w with
      fragSent := fragSent, header := 0, buf := (pending.flatMap Cut.wire ++ frame eor data).take 4
      written := w.written ++ (pending.flatMap Cut.wire ++ frame eor data) } := by
  have buf_eq : ({ w with fragSent := fragSent } : Writer).patched (if eor then lastFrag else 0) =
      some (pending.flatMap Cut.wire ++ frame eor data) := holds.patched eor
  rw [Writer.flushOut, buf_eq]
  rfl

omit holds in
theorem length_emptied (cuts : List (BitVec 8)) (last : Bool) (data : List (BitVec 8)) :
    ((cuts ++ frame last data).take 4).length = 4 := by
  simp only [frame, length_take, length_append, length_bytes]
  omega

theorem Holds.fits_end : ∀ c ∈ sent ++ pending ++ [⟨front, data⟩], c.Fits := by
  intro c mem
  rcases mem_append.1 mem with mem | mem
  · exact holds.fits c mem
  · rw [mem_singleton.1 mem]
    exact ⟨holds.fits_front, holds.fits_data⟩

/-- A flush in the middle of a record sends the finished records and the fragment. -/
theorem Holds.flush (even : data.length % 4 = 0) :
    ∃ w', { w with fragSent := true }.flushOut false = some w' ∧ w'.boundry = w.boundry ∧
      w'.buf.length = 4 ∧ Holds w' (sent ++ pending) [] (front ++ [data]) [] := by
  have four := length_emptied (pending.flatMap Cut.wire) false data
  refine ⟨_, holds.flushOut true false, rfl, four, Holds.emptied four rfl ?_ (fun _ => rfl)
    holds.large holds.small holds.even.2 ?_ holds.fits ?_⟩
  · simp only [holds.written]
    by_cases fresh : front = []
    · simp [fresh]
    · simp [(holds.alone fresh).1]
  · have := holds.even_front
    rw [flatten_append, flatten_singleton, length_append]
    omega
  · intro d mem
    rcases mem_append.1 mem with mem | mem
    · exact holds.fits_front d mem
    · rw [mem_singleton.1 mem]
      exact holds.fits_data

theorem Holds.endFlush : ∃ w', { w with fragSent := false }.flushOut true = some w' ∧
    Holds w' (sent ++ pending ++ [⟨front, data⟩]) [] [] [] := by
  refine ⟨_, holds.flushOut false true, Holds.emptied (length_emptied _ true data) rfl ?_ (by simp)
    holds.large holds.small holds.even.2 rfl holds.fits_end (by simp)⟩
  simp only [holds.written]
  by_cases fresh : front = []
  · simp [fresh, Cut.wire]
  · simp [(holds.alone fresh).1, Cut.wire]

/-- The end of a record that is kept in the buffer. -/
theorem Holds.endKeep (unsent : w.fragSent = false) (space : w.buf.length + 4 < w.boundry)
    (even : data.length % 4 = 0) : ∃ w', (w.patched lastFrag).map (fun buf =>
        { w with buf := buf ++ [0, 0, 0, 0], header := w.buf.length }) = some w' ∧
      Holds w' sent (pending ++ [⟨[], data⟩]) [] [] ∧ front = [] := by
  have fresh : front = [] := by
    by_contra some_front
    rw [(holds.alone some_front).2] at unsent
    exact absurd unsent (by decide)
  have buf_eq := holds.patched true
  rw [if_pos rfl] at buf_eq
  have wire_eq : pending.flatMap Cut.wire ++ frame true data =
      (pending ++ [(⟨[], data⟩ : Cut)]).flatMap Cut.wire := by
    simp [Cut.wire]
  have length_eq : w.buf.length = ((pending ++ [(⟨[], data⟩ : Cut)]).flatMap Cut.wire).length := by
    rw [← wire_eq, length_append, holds.length_buf, holds.header, frame, length_append,
      length_bytes]
    omega
  rw [buf_eq, map_some]
  refine ⟨_, rfl, ⟨⟨[0, 0, 0, 0], rfl, ?_⟩, length_eq, ?_, by simp, ?_, holds.large,
    holds.small, ⟨?_, holds.even.2⟩, rfl, ?_, by simp⟩, fresh⟩
  · rw [← wire_eq, append_nil]
  · simp only [holds.written, fresh]
  · simp only [length_append, length_cons, length_nil]
    rw [← length_append, wire_eq, ← length_eq]
    omega
  · have := holds.length_buf
    have := holds.even.1
    simp only
    omega
  · rw [← append_assoc, ← fresh]
    exact holds.fits_end

end

/-! ### Putting values -/

/-- The writer has the finished records `cuts`, of which `least` are sent, and in the current record
`bs` was put. -/
def Carries (w : Writer) (cuts : List Cut) (least : ℕ) (bs : List (BitVec 8)) : Prop :=
  ∃ sent pending front data, Holds w sent pending front data ∧ sent ++ pending = cuts ∧
    least ≤ sent.length ∧ front.flatten ++ data = bs

variable {cuts : List Cut} {least : ℕ} {bs : List (BitVec 8)}

theorem Carries.store {more : List (BitVec 8)} (carries : Carries w cuts least bs)
    (space : w.buf.length + more.length ≤ w.boundry) :
    Carries { w with buf := w.buf ++ more } cuts least (bs ++ more) := by
  obtain ⟨sent, pending, front, data, holds, order, kept, rfl⟩ := carries
  exact ⟨sent, pending, front, _, holds.store space, order, kept, by simp⟩

/-- The place in the buffer and the number of bytes put into the record agree modulo 4. -/
theorem Carries.even (carries : Carries w cuts least bs) : w.buf.length % 4 = bs.length % 4 := by
  obtain ⟨sent, pending, front, data, holds, -, -, rfl⟩ := carries
  have := holds.length_buf
  have := holds.even
  have := holds.even_front
  rw [length_append]
  omega

theorem Carries.flush (carries : Carries w cuts least bs) (even : bs.length % 4 = 0) :
    ∃ w', { w with fragSent := true }.flushOut false = some w' ∧ w'.boundry = w.boundry ∧
      w'.buf.length = 4 ∧ Carries w' cuts least bs := by
  have same := carries.even
  obtain ⟨sent, pending, front, data, holds, rfl, kept, rfl⟩ := carries
  have := holds.length_buf
  have := holds.even
  obtain ⟨w', flushes, boundry_eq, four, holds'⟩ := holds.flush (by omega)
  exact ⟨w', flushes, boundry_eq, four, _, _, _, _, holds', by simp, by simp; omega, by simp⟩

theorem Carries.large (carries : Carries w cuts least bs) :
    100 ≤ w.boundry ∧ w.boundry % 4 = 0 ∧ w.buf.length ≤ w.boundry := by
  obtain ⟨_, _, _, _, holds, -⟩ := carries
  exact ⟨holds.large, holds.even.2, holds.room⟩

theorem putlong_spec (carries : Carries w cuts least bs) (aligned : bs.length % 4 = 0)
    (v : BitVec 32) :
    ∃ w', w.putlong v = some w' ∧ Carries w' cuts least (bs ++ bytes v) := by
  have := carries.large
  rw [putlong]
  by_cases full : w.boundry < w.buf.length + 4
  · obtain ⟨w', flushes, boundry_eq, four, carries'⟩ := carries.flush aligned
    rw [if_pos full, flushes, bind_some, if_neg (by omega)]
    exact ⟨_, rfl, carries'.store (by rw [length_bytes]; omega)⟩
  · have := carries.even
    rw [if_neg full, bind_some, if_neg (by omega)]
    exact ⟨_, rfl, carries.store (by rw [length_bytes]; omega)⟩

/-- Once a byte is put, every round puts one more; a full buffer may have to be sent first. -/
theorem putbytesLoop_spec {fuel : ℕ} {more : List (BitVec 8)} (carries : Carries w cuts least bs)
    (enough : more.length < fuel) (again : w.buf.length = w.boundry → more.length + 1 < fuel) :
    ∃ w', putbytesLoop fuel w more = some w' ∧ Carries w' cuts least (bs ++ more) := by
  induction fuel generalizing w bs more with
  | zero => omega
  | succ fuel ih =>
    rw [putbytesLoop]
    by_cases none_left : more = []
    · rw [if_pos none_left, none_left, append_nil]
      exact ⟨w, rfl, carries⟩
    rw [if_neg none_left]
    have left : 0 < more.length := length_pos_of_ne_nil none_left
    obtain ⟨large, even, room⟩ := carries.large
    generalize current_eq : min more.length (w.boundry - w.buf.length) = current
    have short : (more.take current).length = current := by
      rw [length_take]
      omega
    have rest : (more.drop current).length = more.length - current := length_drop
    have stored := @Carries.store _ _ _ _ (more.take current) carries (by omega)
    have split : bs ++ more = bs ++ more.take current ++ more.drop current := by
      rw [append_assoc, take_append_drop]
    have length_eq : (w.buf ++ more.take current).length = w.buf.length + current := by
      rw [length_append, short]
    simp only
    rw [split]
    by_cases full : (w.buf ++ more.take current).length = w.boundry
    · have same := stored.even
      simp only [full] at same
      obtain ⟨w', flushes, boundry_eq, four, carries'⟩ := stored.flush (by omega)
      simp only at boundry_eq
      rw [if_pos full, flushes, bind_some]
      exact ih carries' (by omega) (fun _ => by omega)
    · rw [if_neg full, bind_some]
      exact ih stored (by omega) (fun again => absurd again full)

/-- What may be put into a record: the length of a byte string is that of an `int`, every word comes
behind a multiple of 4 bytes, and so does the end of a record that is not to be sent now. -/
structure Puttable (rec : List Value × Bool) : Prop where
  ints : ∀ bs, .bytes bs ∈ rec.1 → bs.length < 2 ^ 31
  words : WordAligned 0 rec.1
  units : rec.2 = false → (rec.1.flatMap Value.wire).length % 4 = 0

theorem putAll_spec {vs : List Value} (carries : Carries w cuts least bs)
    (ints : ∀ bs, .bytes bs ∈ vs → bs.length < 2 ^ 31) (words : WordAligned bs.length vs) :
    ∃ w', w.putAll vs = some w' ∧ Carries w' cuts least (bs ++ vs.flatMap Value.wire) := by
  induction vs generalizing w bs with
  | nil => exact ⟨w, rfl, by rwa [flatMap_nil, append_nil]⟩
  | cons v vs ih =>
    have ints' : ∀ bs, .bytes bs ∈ vs → bs.length < 2 ^ 31 :=
      fun bs mem => ints bs (mem_cons_of_mem _ mem)
    rw [flatMap_cons, ← append_assoc, putAll]
    cases v with
    | long v =>
      obtain ⟨w', puts, carries'⟩ := putlong_spec carries words.1 v
      rw [put, puts, bind_some]
      exact ih carries' ints' (by rw [length_append]; exact words.2)
    | bytes more =>
      have small := ints more mem_cons_self
      obtain ⟨w', puts, carries'⟩ := @putbytesLoop_spec _ _ _ _ (more.length + 2) more carries
        (by omega) (fun _ => by omega)
      rw [put, putbytes, intLen_of_lt small, take_length, puts, bind_some]
      exact ih carries' ints' (by rw [length_append]; exact words)

/-! ### Records -/

/-- The records `recs` are written, the last of them perhaps only into the buffer. -/
structure Wrote (w : Writer) (recs : List (List Value × Bool))
    (sent pending : List Cut) : Prop where
  holds : Holds w sent pending [] []
  payloads : (sent ++ pending).map Cut.payload = recs.map fun rec => rec.1.flatMap Value.wire
  /-- A record that was to be sent now is sent, and so are those in front of it. -/
  kept : ∀ rec ∈ recs.drop sent.length, rec.2 = false

theorem Wrote.length_eq {recs : List (List Value × Bool)} (wrote : Wrote w recs sent pending) :
    sent.length + pending.length = recs.length := by
  have := congrArg List.length wrote.payloads
  simpa using this

theorem create_wrote {sendsize recvsize : ℕ} (admits : Admits sendsize recvsize) :
    Wrote (create sendsize) [] [] [] := by
  have := admits.1
  refine ⟨⟨⟨[0, 0, 0, 0], rfl, rfl⟩, rfl, rfl, by simp, ?_, ?_, ?_, ⟨rfl, ?_⟩, rfl, by simp,
    by simp⟩, rfl, by simp⟩
  all_goals
    simp only [create, fixBufSize, rndup, length_cons, length_nil]
    split_ifs <;> omega

/-- A record is put and ended. -/
theorem Wrote.record {recs : List (List Value × Bool)} (wrote : Wrote w recs sent pending)
    {rec : List Value × Bool} (puttable : Puttable rec) :
    ∃ w' sent' pending', (w.putAll rec.1).bind (fun w => w.endofrecord rec.2) = some w' ∧
      Wrote w' (recs ++ [rec]) sent' pending' := by
  have carries : Carries w (sent ++ pending) sent.length [] :=
    ⟨sent, pending, [], [], wrote.holds, rfl, Nat.le_refl _, rfl⟩
  obtain ⟨w', puts, carries'⟩ := putAll_spec carries puttable.ints puttable.words
  have same := carries'.even
  obtain ⟨sent', pending', front, data, holds, order, least, payload_eq⟩ := carries'
  rw [nil_append] at payload_eq same
  have counted := wrote.length_eq
  have order_length := congrArg List.length order
  simp only [length_append] at order_length
  rw [puts, bind_some, endofrecord]
  by_cases now : (rec.2 || w'.fragSent || decide (w'.boundry ≤ w'.buf.length + 4)) = true
  · obtain ⟨w'', ends, holds'⟩ := holds.endFlush
    rw [if_pos now, ends]
    refine ⟨w'', _, [], rfl, holds', ?_, ?_⟩
    · rw [order, append_nil, map_append, wrote.payloads]
      simp [Cut.payload, payload_eq]
    · rw [drop_eq_nil_of_le]
      · simp
      · simp only [length_append, length_cons, length_nil]
        omega
  · rw [if_neg now]
    simp only [Bool.or_eq_true, not_or, decide_eq_true_eq, Bool.not_eq_true] at now
    obtain ⟨⟨later, unsent⟩, space⟩ := now
    have := puttable.units later
    have := holds.length_buf
    have := holds.even.1
    obtain ⟨w'', ends, kept, rfl⟩ := holds.endKeep unsent (by omega) (by omega)
    rw [ends]
    refine ⟨w'', sent', _, rfl, kept, ?_, ?_⟩
    · rw [← append_assoc, order, map_append, wrote.payloads]
      simpa [Cut.payload] using payload_eq
    · intro r mem
      rw [drop_append_of_le_length (by omega)] at mem
      rcases mem_append.1 mem with mem | mem
      · exact wrote.kept r ((drop_sublist_drop_left recs least).subset mem)
      · rw [mem_singleton.1 mem]
        exact later

theorem Wrote.writeAll {recs more : List (List Value × Bool)} (wrote : Wrote w recs sent pending)
    (puttable : ∀ rec ∈ more, Puttable rec) :
    ∃ w' sent' pending', w.writeAll more = some w' ∧ Wrote w' (recs ++ more) sent' pending' := by
  induction more generalizing w recs sent pending with
  | nil => exact ⟨w, sent, pending, rfl, by rwa [append_nil]⟩
  | cons rec more ih =>
    obtain ⟨w₁, _, _, ends, wrote₁⟩ := wrote.record (puttable rec mem_cons_self)
    obtain ⟨w₂, sent₂, pending₂, writes, wrote₂⟩ :=
      ih wrote₁ fun rec mem => puttable rec (mem_cons_of_mem _ mem)
    refine ⟨w₂, sent₂, pending₂, ?_, by simpa using wrote₂⟩
    rw [Writer.writeAll, ends, bind_some, writes]

end Writer

/-! ### The round trip -/

namespace Records

/-- The values of the current record are read back one by one. -/
theorem run_gets {vs : List Value} {later : List (List (BitVec 8))} :
    Records.run ⟨vs.flatMap Value.wire, later⟩ (vs.map fun v => .get v.get) =
      some (vs.map some, ⟨[], later⟩) := by
  induction vs with
  | nil => rfl
  | cons v vs ih =>
    have first : Records.step ⟨(v :: vs).flatMap Value.wire, later⟩ (.get v.get) =
        some (some v, ⟨vs.flatMap Value.wire, later⟩) := by
      cases v with
      | long v =>
        simp only [Value.get, step, take, flatMap_cons, Value.wire, length_append, length_bytes]
        rw [if_pos (by omega), take_left' (length_bytes v), drop_left' (length_bytes v)]
        simp
      | bytes bs =>
        simp [Value.get, step, take, Value.wire]
    simp only [map_cons, run, first, bind_some, ih, map_some]

theorem run_append {s₁ s₂ s₃ : Records} {calls₁ calls₂ : List Reader.Step}
    {vs₁ vs₂ : List (Option Value)} (first : s₁.run calls₁ = some (vs₁, s₂))
    (second : s₂.run calls₂ = some (vs₂, s₃)) :
    s₁.run (calls₁ ++ calls₂) = some (vs₁ ++ vs₂, s₃) := by
  induction calls₁ generalizing s₁ vs₁ with
  | nil =>
    simp only [run, some.injEq, Prod.mk.injEq] at first
    obtain ⟨rfl, rfl⟩ := first
    exact second
  | cons call calls ih =>
    simp only [run, bind_eq_some_iff, map_eq_some_iff, Prod.exists, Prod.mk.injEq] at first
    obtain ⟨v, s, steps, vs, _, runs, rfl, rfl⟩ := first
    simp only [cons_append, run, steps, bind_some, ih runs, map_some]

/-- The calls that match records: each is gone to with `xdrrec_skiprecord`. -/
def matching (recs : List (List Value)) : List Reader.Step :=
  recs.flatMap fun vs => .skiprecord :: vs.map fun v => .get v.get

/-- What the matching calls should return. -/
def expected (recs : List (List Value)) : List (Option Value) :=
  recs.flatMap fun vs => none :: vs.map some

theorem run_matching {recs : List (List Value)} {current : List (BitVec 8)} :
    ∃ s, Records.run ⟨current, recs.map fun vs => vs.flatMap Value.wire⟩ (matching recs) =
      some (expected recs, s) := by
  induction recs generalizing current with
  | nil => exact ⟨_, rfl⟩
  | cons vs recs ih =>
    obtain ⟨s, runs⟩ := @ih []
    refine ⟨s, ?_⟩
    have skips : Records.run ⟨current, (vs :: recs).map fun vs => vs.flatMap Value.wire⟩
      [.skiprecord] =
        some ([none], ⟨vs.flatMap Value.wire, recs.map fun vs => vs.flatMap Value.wire⟩) := rfl
    have record := run_append (run_append skips run_gets) runs
    simpa [matching, expected] using record

end Records

/-- For every sequence of records that keep words at multiples of 4 and every way the transport cuts
the stream, the reader does what the reader of records does that were sent: the calls that match get
the values that were put, a get that asks for more than is left fails, and a skip goes to the next
record.  Only records that were not to be sent now may still be in the buffer. -/
theorem record_round_trip {sendsize recvsize : ℕ} (admits : Admits sendsize recvsize)
    {recs : List (List Value × Bool)} (puttable : ∀ rec ∈ recs, Writer.Puttable rec)
    (chunk : ℕ → ℕ) :
    ∃ w sent pending, (Writer.create sendsize).writeAll recs = some w ∧ recs = sent ++ pending ∧
      (∀ rec ∈ pending, rec.2 = false) ∧
      (∀ calls vs s, (∀ len, .get (.getbytes len) ∈ calls → len < 2 ^ 31) →
        Records.run ⟨[], sent.map fun rec => rec.1.flatMap Value.wire⟩ calls = some (vs, s) →
        ∃ r, (Reader.create recvsize w.written).run chunk calls = some (vs, r)) ∧
      ∃ r, (Reader.create recvsize w.written).run chunk (Records.matching (sent.map Prod.fst)) =
        some (Records.expected (sent.map Prod.fst), r) := by
  obtain ⟨w, cuts, kept, writes, wrote⟩ := (Writer.create_wrote admits).writeAll puttable
  rw [nil_append] at wrote
  have payloads : cuts.map Cut.payload =
      (recs.take cuts.length).map fun rec => rec.1.flatMap Value.wire := by
    rw [map_take, ← wrote.payloads, map_append]
    exact (take_left' (by simp)).symm
  have written_eq : w.written = cuts.flatMap Cut.wire := by
    rw [wrote.holds.written]
    simp
  have agrees := Reader.Agrees.create recvsize fun c mem =>
    wrote.holds.fits c (mem_append_left _ mem)
  rw [← written_eq, payloads] at agrees
  refine ⟨w, recs.take cuts.length, recs.drop cuts.length, writes, (take_append_drop _ _).symm,
    wrote.kept, ?_, ?_⟩
  · intro calls vs s small runs
    obtain ⟨r, reads, -⟩ := @Reader.Agrees.run chunk _ _ _ _ _ agrees small runs
    exact ⟨r, reads⟩
  · obtain ⟨s, runs⟩ := @Records.run_matching ((recs.take cuts.length).map Prod.fst) []
    rw [List.map_map] at runs
    refine ⟨_, (@Reader.Agrees.run chunk _ _ _ _ _ agrees ?_ runs).choose_spec.1⟩
    intro len mem
    obtain ⟨vs, among, mem⟩ := mem_flatMap.1 mem
    obtain ⟨rec, taken, rfl⟩ := mem_map.1 among
    rcases mem_cons.1 mem with skip | mem
    · cases skip
    obtain ⟨v, put, same⟩ := mem_map.1 mem
    cases v with
    | long v => cases same
    | bytes bs =>
      cases same
      exact (puttable rec (mem_of_mem_take taken)).ints bs put

/-- Two records that share a buffer, handed over byte by byte; the second ends at an odd place. -/
theorem record_round_trip_run : ∃ w r, (Writer.create 100).writeAll
      [([.long 7, .bytes [1, 2, 3], .bytes [0]], false), ([.long 8, .bytes [9]], true)] = some w ∧
    (Reader.create 100 w.written).run (fun _ => 1)
      [.skiprecord, .get .getlong, .get (.getbytes 3), .skiprecord, .get .getlong] =
        some ([none, some (.long 7), some (.bytes [1, 2, 3]), none, some (.long 8)], r) := by
  generalize recs_eq : [([.long 7, .bytes [1, 2, 3], .bytes [0]], false),
    ([Value.long 8, .bytes [9]], true)] = recs
  have puttable : ∀ rec ∈ recs, Writer.Puttable rec := by
    rw [← recs_eq]
    intro rec mem
    rcases mem_cons.1 mem with rfl | mem
    · exact ⟨by simp, ⟨rfl, trivial⟩, fun _ => rfl⟩
    · rw [mem_singleton.1 mem]
      exact ⟨by simp, ⟨rfl, trivial⟩, fun now => absurd now (by decide)⟩
  obtain ⟨w, sent, pending, writes, split, kept, reads, -⟩ := @record_round_trip 100 100
    ⟨by decide, by decide⟩ recs puttable fun _ => 1
  have all_sent : pending = [] := by
    rcases eq_nil_or_concat pending with none | ⟨front, last, rfl⟩
    · exact none
    · rw [← recs_eq, concat_eq_append, ← append_assoc] at split
      have same := (append_inj' (show [_] ++ [_] = _ from split) rfl).2
      rw [concat_eq_append, ← same] at kept
      exact absurd (kept _ (mem_append_right _ mem_cons_self)) (by decide)
  rw [all_sent, append_nil] at split
  rw [← split, ← recs_eq] at reads
  obtain ⟨r, run⟩ := reads
    [.skiprecord, .get .getlong, .get (.getbytes 3), .skiprecord, .get .getlong]
    [none, some (.long 7), some (.bytes [1, 2, 3]), none, some (.long 8)] ⟨[9], []⟩ (by simp) rfl
  exact ⟨w, r, writes, run⟩

/-- A word behind three bytes is stored at an odd place, and the processor traps.  Besides, a get of
2^31 bytes returns `TRUE` without any, and a buffer of nearly 2^32 bytes is rounded up to none. -/
theorem record_stream_traps :
    (¬ ∃ w, (Writer.create 100).writeAll [([.bytes [1, 2, 3], .long 7], true)] = some w) ∧
    (∀ chunk r, Reader.getbytes chunk r (2 ^ 31) = some (some [], r)) ∧
    fixBufSize 0xffffffff = 0 := by
  refine ⟨?_, fun _ _ => rfl, rfl⟩
  rintro ⟨w, writes⟩
  cases writes

end Sol25.Xdr
