import Sol25.Xdr.MblkStream

/-!
# Encoding into mblks and decoding

The chain that an encoding stream builds holds the bytes of the flat stream, and the decoding stream
reads the values back.  A word never lies in two blocks, since a block that has no room for one is
left.
-/

namespace Sol25.Xdr

open List Option

/-! ### Decoding a chain -/

variable {x : Encoder} {m : Mblk} {y : Mem}

theorem init_advance {len : ℕ} (enough : len ≤ m.data.length) (cont : List Mblk) :
    (⟨Decoder.advance m len :: cont, (m.data.length : ℤ) - len⟩ : Decoder) =
      Decoder.init (Decoder.advance m len :: cont) := by
  rw [Decoder.init]
  congr 1
  simp only [Decoder.advance, length_drop]
  omega

theorem getlongLoop_here (enough : 4 ≤ m.data.length) (cont : List Mblk) :
    Decoder.getlongLoop (m :: cont) m.data.length =
      (some (word (m.data.take 4)), Decoder.init (Decoder.advance m 4 :: cont)) := by
  have room : ¬ ((m.data.length : ℤ) - 4 < 0) := by omega
  rw [← init_advance enough, Decoder.getlongLoop.eq_def]
  exact if_neg room

theorem getbytesLoop_here {len : ℕ} (enough : len ≤ m.data.length) (cont : List Mblk)
    (addr : List (BitVec 8)) : Decoder.getbytesLoop (m :: cont) m.data.length len addr =
      (some (addr ++ m.data.take len), Decoder.init (Decoder.advance m len :: cont)) := by
  have room : ¬ ((m.data.length : ℤ) - (len : ℤ) < 0) := by omega
  rw [← init_advance enough, Decoder.getbytesLoop.eq_def]
  exact if_neg room

theorem contents_append (xs ys : List Mblk) : contents (xs ++ ys) = contents xs ++ contents ys :=
  flatMap_append

theorem contents_eq_nil {blocks : List Mblk} (none_left : contents blocks = []) :
    ∀ m ∈ blocks, m.data = [] :=
  flatMap_eq_nil_iff.1 none_left

theorem store_store (m : Mblk) (a b : List (BitVec 8)) :
    (m.store a).store b = m.store (a ++ b) := by
  simp [Mblk.store]

theorem wptr_store (m : Mblk) (bs : List (BitVec 8)) : (m.store bs).wptr = m.wptr + bs.length := by
  simp only [Mblk.store, Mblk.wptr, length_append]
  omega

theorem getlong_spec {empty : List Mblk} (all_empty : ∀ d ∈ empty, d.data = [])
    (enough : 4 ≤ m.data.length) (es : List Mblk) :
    (Decoder.init (empty ++ m :: es)).getlong =
      (some (word (m.data.take 4)), Decoder.init (Decoder.advance m 4 :: es)) := by
  induction empty with
  | nil => exact getlongLoop_here enough es
  | cons d ds ih =>
    have reads := ih fun d member => all_empty d (mem_cons_of_mem _ member)
    cases more : ds ++ m :: es with
    | nil => exact absurd more (by simp)
    | cons m' cont' =>
      rw [more] at reads
      rw [← reads, cons_append, more]
      simp [Decoder.init, Decoder.getlong, Decoder.getlongLoop, all_empty d mem_cons_self]

/-- Read all bytes of some blocks and those that a block holds before more are written to it. -/
theorem getbytesLoop_spec {parts : List Mblk} (c : Mblk) :
    ∃ empty, (∀ d ∈ empty, d.data = []) ∧ ∃ c' : Mblk, c'.data = [] ∧ c'.wptr = c.wptr ∧
      ∀ e es addr, Decoder.getbytesLoop (parts ++ c.store e :: es)
          (Decoder.init (parts ++ c.store e :: es)).handy (contents parts ++ c.data).length addr =
        (some (addr ++ (contents parts ++ c.data)), Decoder.init (empty ++ c'.store e :: es)) := by
  induction parts with
  | nil =>
    refine ⟨[], by simp, Decoder.advance c c.data.length, by simp [Decoder.advance], ?_, ?_⟩
    · simp [Decoder.advance, Mblk.wptr]
    intro e es addr
    have enough : c.data.length ≤ (c.store e).data.length := by simp [Mblk.store]
    have here := getbytesLoop_here enough es addr
    simpa [Mblk.store, Decoder.advance, contents, Decoder.init] using here
  | cons p ps ih =>
    by_cases more : (contents ps ++ c.data).length = 0
    · obtain ⟨ps_nil, c_nil⟩ := append_eq_nil_iff.1 (length_eq_zero_iff.1 more)
      refine ⟨Decoder.advance p p.data.length :: ps, ?_, c, c_nil, rfl, ?_⟩
      · intro d member
        rcases mem_cons.1 member with rfl | later
        · simp [Decoder.advance]
        · exact contents_eq_nil ps_nil d later
      · intro e es addr
        have total : contents (p :: ps) ++ c.data = p.data := by
          rw [contents, flatMap_cons, ← contents, ps_nil, c_nil]
          simp
        rw [total, cons_append, cons_append, Decoder.init, getbytesLoop_here (Nat.le_refl _),
          take_length]
    · obtain ⟨empty, all_empty, c', c'_nil, wptr_eq, reads⟩ := ih
      refine ⟨empty, all_empty, c', c'_nil, wptr_eq, fun e es addr => ?_⟩
      have total : contents (p :: ps) ++ c.data = p.data ++ (contents ps ++ c.data) := by
        simp [contents]
      have short : (p.data.length : ℤ) - ((p.data ++ (contents ps ++ c.data)).length : ℤ) < 0 := by
        rw [length_append]
        omega
      have rest := reads e es (addr ++ p.data)
      rw [total]
      cases blocks : ps ++ c.store e :: es with
      | nil => exact absurd blocks (by simp)
      | cons m' cont' =>
        rw [blocks] at rest
        rw [cons_append, blocks, Decoder.init, Decoder.getbytesLoop, if_pos short, length_append,
          Int.toNat_natCast, Nat.add_sub_cancel_left, take_length, ← append_assoc]
        exact rest

theorem decodeAll_append {x y : Decoder} {gets more : List Get} {vs : List Value}
    (reads : decodeAll x gets = some (vs, y)) : decodeAll x (gets ++ more) =
      (decodeAll y more).map fun (ws, z) => (vs ++ ws, z) := by
  induction gets generalizing x vs with
  | nil =>
    simp only [decodeAll, some.injEq, Prod.mk.injEq] at reads
    obtain ⟨rfl, rfl⟩ := reads
    simp
  | cons get gets ih =>
    simp only [decodeAll, bind_eq_some_iff, map_eq_some_iff, Prod.exists, Prod.mk.injEq] at reads
    obtain ⟨v, x', decodes, ws, z, rest, rfl, rfl⟩ := reads
    rw [cons_append, decodeAll, decodes, bind_some]
    simp only
    rw [ih rest, Option.map_map]
    rfl

/-! ### Chains that can be read -/

def Value.wire : Value → List (BitVec 8)
  | long v => Xdr.bytes v
  | bytes bs => bs

/-- The blocks hold the values, and after them these bytes follow up to the end of the chain.  The
last block is kept apart, since more may be written to it. -/
def Readable (vs : List Value) (part : List (BitVec 8)) (ds : List Mblk) (d : Mblk) : Prop :=
  contents ds ++ d.data = vs.flatMap Value.wire ++ part ∧ ∃ (parts : List Mblk) (c : Mblk),
    contents parts ++ c.data = part ∧ c.wptr = d.wptr ∧ ∀ e es,
      decodeAll (Decoder.init (ds ++ d.store e :: es)) (vs.map Value.get) =
        some (vs, Decoder.init (parts ++ c.store e :: es))

namespace Readable

variable {vs : List Value} {part b : List (BitVec 8)} {ds : List Mblk} {d : Mblk}

theorem nil (empty : d.data = []) : Readable [] [] [] d :=
  ⟨by simpa [contents] using empty, [], d, by simpa [contents] using empty, rfl, fun _ _ => rfl⟩

theorem extend (readable : Readable vs part ds d) (b : List (BitVec 8)) :
    Readable vs (part ++ b) ds (d.store b) := by
  obtain ⟨held, parts, c, rfl, wptr_eq, reads⟩ := readable
  refine ⟨?_, parts, c.store b, ?_, by rw [wptr_store, wptr_store, wptr_eq], fun e es => ?_⟩
  · rw [Mblk.store, ← append_assoc, held, append_assoc]
  · rw [Mblk.store, append_assoc]
  · rw [store_store, store_store]
    exact reads (b ++ e) es

theorem link (readable : Readable vs part ds d) {m : Mblk} (empty : m.data = []) :
    Readable vs part (ds ++ [d]) m := by
  obtain ⟨held, parts, c, part_eq, -, reads⟩ := readable
  have whole (m : Mblk) : m.store [] = m := by simp [Mblk.store]
  have one (c : Mblk) : contents [c] = c.data := by simp [contents]
  refine ⟨?_, parts ++ [c], m, ?_, rfl, fun e es => ?_⟩
  · rw [contents_append, one, empty, append_nil, held]
  · rw [contents_append, one, empty, append_nil, part_eq]
  · have decodes := reads [] (m.store e :: es)
    rw [whole, whole] at decodes
    simpa using decodes

theorem bytes (readable : Readable vs part ds d) : Readable (vs ++ [.bytes part]) [] ds d := by
  obtain ⟨held, parts, c, rfl, wptr_eq, reads⟩ := readable
  obtain ⟨empty, all_empty, c', c'_nil, wptr_eq', loops⟩ := @getbytesLoop_spec parts c
  refine ⟨by simpa [Value.wire] using held, empty, c', ?_, wptr_eq'.trans wptr_eq, fun e es => ?_⟩
  · rw [c'_nil, append_nil]
    exact flatMap_eq_nil_iff.2 all_empty
  · rw [map_append, decodeAll_append (reads e es)]
    have all_blocks : (Decoder.init (parts ++ c.store e :: es)).blocks =
        parts ++ c.store e :: es := by
      cases parts <;> rfl
    simp only [map_cons, map_nil, Value.get, decodeAll, Get.decode, Decoder.getbytes, all_blocks,
      loops, nil_append, map_some, bind_some]

/-- A word is written to the last block, at a multiple of 4. -/
theorem long (readable : Readable vs [] ds d) (even : d.wptr % 4 = 0) (v : BitVec 32) :
    Readable (vs ++ [.long v]) [] ds (d.store (Xdr.bytes v)) := by
  obtain ⟨held, parts, c, none_left, wptr_eq, reads⟩ := readable
  obtain ⟨parts_nil, c_nil⟩ := append_eq_nil_iff.1 none_left
  have rptr_eq : c.rptr = d.wptr := by
    rw [← wptr_eq, Mblk.wptr, c_nil, length_nil, Nat.add_zero]
  refine ⟨?_, [], ⟨c.lim, c.rptr + 4, []⟩, rfl, ?_, fun e es => ?_⟩
  · rw [Mblk.store, ← append_assoc, held]
    simp [Value.wire]
  · rw [wptr_store, ← rptr_eq]
    rfl
  have got := getlong_spec (m := c.store (Xdr.bytes v ++ e)) (contents_eq_nil parts_nil)
    (by simp only [Mblk.store, length_append, length_bytes]; omega) es
  have read : word ((c.store (Xdr.bytes v ++ e)).data.take 4) = v := by
    rw [Mblk.store, c_nil, nil_append, take_left' (length_bytes v), word_bytes]
  have after : Decoder.advance (c.store (Xdr.bytes v ++ e)) 4 =
      (⟨c.lim, c.rptr + 4, []⟩ : Mblk).store e := by
    simp [Decoder.advance, Mblk.store, c_nil, drop_left' (length_bytes v)]
  have decodes : Get.decode (Decoder.init (parts ++ c.store (Xdr.bytes v ++ e) :: es)) .getlong =
      some (.long v, Decoder.init ((⟨c.lim, c.rptr + 4, []⟩ : Mblk).store e :: es)) := by
    rw [read, after] at got
    rw [Get.decode, got]
    exact if_neg (by simp only [Mblk.store]; omega)
  rw [store_store, map_append, decodeAll_append (reads _ es)]
  simp only [map_cons, map_nil, Value.get, decodeAll, decodes, bind_some, map_some, nil_append]

end Readable

/-! ### Continuation blocks -/

theorem allocb_spec {size : ℕ} (positive : 0 < size) (even : size % 4 = 0) :
    size ≤ allocb size ∧ 40 ≤ allocb size ∧ allocb size % 4 = 0 := by
  rw [allocb]
  split_ifs with large
  · simp only [mhMaxCache, sizeofMh] at large
    omega
  · cases found : mhSizes.find? fun total => decide (size + sizeofMh ≤ total) with
    | none =>
      have := find?_eq_none.1 found mhMaxCache (by simp [mhSizes])
      simp only [decide_eq_true_eq, not_le] at this
      omega
    | some total =>
      have fits : size + sizeofMh ≤ total := by simpa using find?_some found
      have listed := mem_of_find?_eq_some found
      have least : ∀ total ∈ mhSizes, 112 ≤ total ∧ total % 4 = 0 := by decide
      have := least total listed
      simp only [sizeofMh, getD_some] at fits ⊢
      omega

/-- A block that is empty, has room for a word, and starts and ends at a multiple of 4. -/
structure Fresh (m : Mblk) : Prop where
  empty : m.data = []
  room : m.rptr + 4 ≤ m.lim
  start : m.rptr % 4 = 0
  stop : m.lim % 4 = 0

theorem sethandy_spec {mpsize blen : ℕ} (large : 40 ≤ mpsize) (fits : blen ≤ mpsize)
    (even : mpsize % 4 = 0) (even' : blen % 4 = 0) : Fresh (sethandy mpsize blen) := by
  rw [sethandy]
  split_ifs with cut
  · exact ⟨rfl, by simp only; omega, by simp only; omega, even⟩
  · exact ⟨rfl, by simp only; omega, rfl, even⟩

theorem alloc_spec {grant : ℕ → Bool} (even : x.size % 4 = 0) (allocs : x.alloc grant = some m) :
    Fresh m := by
  rw [Encoder.alloc] at allocs
  split_ifs at allocs with zero granted
  obtain rfl := some.inj allocs
  obtain ⟨fits, large, whole⟩ := allocb_spec (Nat.pos_of_ne_zero zero) even
  exact sethandy_spec large fits whole even

theorem alloc_some {grant : ℕ → Bool} (positive : 0 < x.size) (granted : grant x.asked = true) :
    ∃ m, x.alloc grant = some m := by
  rw [Encoder.alloc, if_neg (by omega), if_pos granted]
  exact ⟨_, rfl⟩

/-! ### Encoding -/

/-- The number of bytes of the values and behind them. -/
def amount (vs : List Value) (part : List (BitVec 8)) : ℕ := (vs.flatMap Value.wire ++ part).length

theorem amount_append (vs : List Value) (part bs : List (BitVec 8)) :
    amount vs (part ++ bs) = amount vs part + bs.length := by
  rw [amount, ← append_assoc, length_append, ← amount]

theorem amount_value (vs : List Value) (v : Value) : amount (vs ++ [v]) [] = amount vs v.wire := by
  simp [amount]

/-- The stream writes to a last block that it may fill up to `x_handy`. -/
structure Holding (size : ℕ) (x : Encoder) (m : Mblk) (vs : List Value) (part : List (BitVec 8)) :
    Prop where
  base : x.base = some m
  cont : x.cont = []
  size : x.size = size
  past : x.past = false
  trap : x.trap = false
  handy : 0 ≤ x.handy
  /-- A linked block is not written to. -/
  room : x.handy = 0 ∨ (m.wptr : ℤ) + x.handy ≤ m.lim ∧ m.wptr % 4 = amount vs part % 4
  /-- A full block ends behind a multiple of 4 bytes. -/
  even : (amount vs part + x.handy) % 4 = 0
  readable : Readable vs part x.front m

structure Refused (grant : ℕ → Bool) (size : ℕ) (x : Encoder) : Prop where
  base : x.base = none
  past : x.past = false
  trap : x.trap = false
  cause : ¬ (0 < size ∧ ∀ n, grant n = true)

section Steps

variable {grant : ℕ → Bool} {size : ℕ} {x : Encoder} {m : Mblk} {vs : List Value}
  {part bs : List (BitVec 8)}

theorem Holding.init {lim : ℕ} (even : lim % 4 = 0) (size : ℕ) :
    Holding size (Encoder.init lim size) ⟨lim, 0, []⟩ [] [] :=
  ⟨rfl, rfl, rfl, rfl, rfl, Int.natCast_nonneg _, .inr ⟨by simp [Encoder.init, Mblk.wptr], rfl⟩,
    by simp only [amount, Encoder.init, flatMap_nil, append_nil, length_nil]; omega,
    Readable.nil rfl⟩

/-- A stream whose block is full goes on to a new one. -/
theorem Holding.advance (even : size % 4 = 0) (holding : Holding size x m vs part)
    (full : x.handy = 0) :
    (∃ m', Holding size (x.advance grant m) m' vs part ∧ 4 ≤ (x.advance grant m).handy) ∨
      Refused grant size (x.advance grant m) := by
  have cont := holding.cont
  cases allocs : x.alloc grant with
  | none =>
    right
    have eq : x.advance grant m = { x with
        front := x.front ++ [m], base := none, handy := 0, asked := x.asked + 1 } := by
      simp [Encoder.advance, cont, allocs]
    rw [eq]
    refine ⟨rfl, holding.past, holding.trap, ?_⟩
    rintro ⟨positive, granted⟩
    obtain ⟨m', some_block⟩ := alloc_some (holding.size ▸ positive) (granted x.asked)
    rw [some_block] at allocs
    exact absurd allocs (by simp)
  | some m' =>
    left
    obtain ⟨empty, fits, start, stop⟩ := alloc_spec (holding.size ▸ even) allocs
    have before := holding.even
    have eq : x.advance grant m = { x with
        front := x.front ++ [m], base := some m', handy := m'.lim - m'.rptr
        asked := x.asked + 1 } := by
      simp [Encoder.advance, cont, allocs]
    rw [eq]
    refine ⟨m', ⟨rfl, holding.cont, holding.size, holding.past, holding.trap, ?_, .inr ⟨?_, ?_⟩, ?_,
      holding.readable.link empty⟩, ?_⟩
    · simp only
      omega
    · simp only [Mblk.wptr, empty, length_nil]
      omega
    · simp only [Mblk.wptr, empty, length_nil]
      omega
    · simp only
      omega
    · simp only
      omega

/-- Bytes are written where there is room. -/
theorem Holding.write (holding : Holding size x m vs part) (fits : (bs.length : ℤ) ≤ x.handy) :
    Holding size (x.write m bs) (m.store bs) vs (part ++ bs) := by
  have even := holding.even
  refine ⟨rfl, holding.cont, holding.size, ?_, holding.trap, ?_, ?_, ?_, holding.readable.extend bs⟩
  · have within : ¬ (bs ≠ [] ∧ m.lim < m.wptr + bs.length) := by
      rintro ⟨nonempty, beyond⟩
      have := length_pos_iff.2 nonempty
      rcases holding.room with zero | room
      · omega
      · omega
    simp only [Encoder.write, holding.past, within, decide_false, Bool.or_self]
  · simp only [Encoder.write]
    omega
  · rcases holding.room with zero | room
    · left
      simp only [Encoder.write]
      omega
    · right
      rw [wptr_store, amount_append]
      simp only [Encoder.write, Mblk.store]
      omega
  · rw [amount_append]
    simp only [Encoder.write]
    omega

/-- A word is written where there is room, behind a multiple of 4 bytes. -/
theorem Holding.writeLong (holding : Holding size x m vs []) (fits : 4 ≤ x.handy)
    (aligned : amount vs [] % 4 = 0) (v : BitVec 32) :
    Holding size (x.writeLong m v) (m.store (bytes v)) (vs ++ [.long v]) [] := by
  have even : m.wptr % 4 = 0 := by
    rcases holding.room with zero | room
    · omega
    · omega
  have written := @Holding.write size x m vs [] (bytes v) holding (by simpa using fits)
  rw [nil_append] at written
  refine ⟨written.base, written.cont, written.size, written.past, ?_, written.handy, ?_, ?_,
    holding.readable.long even v⟩
  · simp [Encoder.writeLong, holding.trap, even]
  · rw [amount_value]
    exact written.room
  · rw [amount_value]
    exact written.even

/-- `xdrmblk_putlong` writes the word or has no block for it. -/
theorem Holding.putlong (even : size % 4 = 0) (holding : Holding size x m vs [])
    (aligned : amount vs [] % 4 = 0) (v : BitVec 32) :
    (∃ x' m', x.putlong grant v = (true, x') ∧ Holding size x' m' (vs ++ [.long v]) []) ∨
      ∃ x', x.putlong grant v = (false, x') ∧ Refused grant size x' := by
  have := holding.even
  have := holding.handy
  by_cases full : x.handy - 4 < 0
  · rcases @Holding.advance grant size x m vs [] even holding (by omega) with
      ⟨m', next, room⟩ | refused
    · left
      refine ⟨_, _, ?_, next.writeLong room aligned v⟩
      simp only [Encoder.putlong, holding.base, full, if_true, next.base]
    · right
      refine ⟨_, ?_, refused⟩
      simp only [Encoder.putlong, holding.base, full, if_true, refused.base]
  · left
    refine ⟨_, _, ?_, holding.writeLong (by omega) aligned v⟩
    simp only [Encoder.putlong, holding.base, full, if_false]

theorem putbytesLoop_refused {fuel : ℕ} (refused : Refused grant size x) :
    Encoder.putbytesLoop grant (fuel + 1) x bs = (false, x) := by
  rw [Encoder.putbytesLoop, refused.base]

/-- The loop of `xdrmblk_putbytes`; each round but the first fills a block. -/
theorem putbytesLoop_spec {fuel : ℕ} (even : size % 4 = 0) (holding : Holding size x m vs part)
    (enough : bs.length + (if x.handy = 0 then 2 else 1) ≤ fuel) :
    (∃ x' m', Encoder.putbytesLoop grant fuel x bs = (true, x') ∧
        Holding size x' m' vs (part ++ bs)) ∨
      ∃ x', Encoder.putbytesLoop grant fuel x bs = (false, x') ∧ Refused grant size x' := by
  induction fuel generalizing x m part bs with
  | zero =>
    split_ifs at enough <;> omega
  | succ fuel ih =>
    have nonneg := holding.handy
    by_cases full : x.handy - bs.length < 0
    · have take_length : ((bs.take x.handy.toNat).length : ℤ) = x.handy := by
        rw [length_take]
        omega
      have written := @Holding.write size x m vs part (bs.take x.handy.toNat) holding
        (Int.le_of_eq take_length)
      rw [Encoder.putbytesLoop, holding.base]
      simp only [full, if_true]
      have filled : (x.write m (bs.take x.handy.toNat)).handy = 0 := by
        simp only [Encoder.write]
        omega
      rcases @Holding.advance grant size _ _ vs _ even written filled with
        ⟨m', next, room⟩ | refused
      · have drop_length : (bs.drop x.handy.toNat).length = bs.length - x.handy.toNat := length_drop
        have positive : ¬ ((x.write m (bs.take x.handy.toNat)).advance grant
            (m.store (bs.take x.handy.toNat))).handy = 0 := by omega
        have shorter : (bs.drop x.handy.toNat).length + 1 ≤ fuel := by
          split_ifs at enough <;> omega
        have rest := ih next (by rwa [if_neg positive])
        rwa [append_assoc, take_append_drop] at rest
      · right
        obtain ⟨fuel, rfl⟩ : ∃ fuel', fuel = fuel' + 1 := by
          split_ifs at enough <;> exact ⟨fuel - 1, by omega⟩
        exact ⟨_, putbytesLoop_refused refused, refused⟩
    · left
      refine ⟨_, _, ?_, holding.write (by omega)⟩
      rw [Encoder.putbytesLoop, holding.base]
      simp only [full, if_false]

/-- `xdrmblk_putbytes` writes the bytes or has no block for them. -/
theorem Holding.putbytes (even : size % 4 = 0) (holding : Holding size x m vs [])
    (bs : List (BitVec 8)) :
    (∃ x' m', x.putbytes grant bs = (true, x') ∧ Holding size x' m' (vs ++ [.bytes bs]) []) ∨
      ∃ x', x.putbytes grant bs = (false, x') ∧ Refused grant size x' := by
  have enough : bs.length + (if x.handy = 0 then 2 else 1) ≤ 2 * bs.length + x.cont.length + 2 := by
    split_ifs <;> omega
  rcases @putbytesLoop_spec grant size x m vs [] bs _ even holding enough with
    ⟨x', m', writes, holds⟩ | refused
  · rw [nil_append] at holds
    refine .inl ⟨x', m', writes, holds.base, holds.cont, holds.size, holds.past, holds.trap,
      holds.handy, ?_, ?_, holds.readable.bytes⟩
    · rw [amount_value]
      exact holds.room
    · rw [amount_value]
      exact holds.even
  · exact .inr refused

theorem Refused.encode (refused : Refused grant size x) (op : Op) :
    op.encode grant x = (false, x) := by
  cases op with
  | putlong v => simp only [Op.encode, Encoder.putlong, refused.base]
  | putbytes bs => exact putbytesLoop_refused refused
  | putmblk m cont =>
    simp only [Op.encode, Encoder.putmblk, Encoder.putlong, refused.base]
    split_ifs <;> rfl

/-- The chain is complete: it holds the values and nothing more. -/
structure Built (x : Encoder) (vs : List Value) : Prop where
  base : x.base ≠ none
  past : x.past = false
  trap : x.trap = false
  readable : ∃ ds d, x.chain = ds ++ [d] ∧ Readable vs [] ds d

theorem Holding.built (holding : Holding size x m vs []) : Built x vs := by
  refine ⟨by simp [holding.base], holding.past, holding.trap, x.front, m, ?_, holding.readable⟩
  simp [Encoder.chain, holding.base, holding.cont]

theorem Readable.link_data {ds : List Mblk} {d : Mblk} (readable : Readable vs part ds d)
    (m : Mblk) :
    Readable vs (part ++ m.data) (ds ++ [d]) m :=
  (readable.link (m := { m with data := [] }) rfl).extend m.data

theorem Readable.link_all {ds : List Mblk} {d : Mblk} (readable : Readable vs part ds d)
    (blocks : List Mblk) :
    ∃ ds' d', ds ++ [d] ++ blocks = ds' ++ [d'] ∧ Readable vs (part ++ contents blocks) ds' d' := by
  induction blocks generalizing part ds d with
  | nil => exact ⟨ds, d, by simp, by simpa [contents] using readable⟩
  | cons m cont ih =>
    obtain ⟨ds', d', chain_eq, linked⟩ := ih (readable.link_data m)
    refine ⟨ds', d', ?_, ?_⟩
    · rw [← chain_eq]
      simp
    · simpa [contents] using linked

/-- The values that the accepted operations put on a stream. -/
def valuesOf (ops : List Op) : List Value := (ops.filter Op.accepted).flatMap Op.values

/-- One operation: it is done, or it is not accepted, or a block is refused. -/
theorem Holding.encode (even : size % 4 = 0) (holding : Holding size x m vs []) {op : Op}
    (aligned : WordAligned (amount vs []) (valuesOf [op])) :
    (∃ x', op.encode grant x = (op.accepted, x') ∧ Built x' (vs ++ valuesOf [op]) ∧
        (op.Single → ∃ m', Holding size x' m' (vs ++ valuesOf [op]) [])) ∨
      ∃ x', op.encode grant x = (false, x') ∧ Refused grant size x' := by
  cases op with
  | putlong v =>
    rcases @Holding.putlong grant size x m vs even holding aligned.1 v with
      ⟨x', m', puts, holds⟩ | refused
    · exact .inl ⟨x', puts, holds.built, fun _ => ⟨m', holds⟩⟩
    · exact .inr refused
  | putbytes bs =>
    rcases @Holding.putbytes grant size x m vs even holding bs with ⟨x', m', puts, holds⟩ | refused
    · exact .inl ⟨x', puts, holds.built, fun _ => ⟨m', holds⟩⟩
    · exact .inr refused
  | putmblk m' cont =>
    by_cases padded : (contents (m' :: cont)).length % 4 = 0
    · have values_eq : valuesOf [Op.putmblk m' cont] =
          [.long (BitVec.ofNat 32 (contents (m' :: cont)).length),
            .bytes (contents (m' :: cont))] := by
        simp [valuesOf, Op.accepted, padded, Op.values]
      rw [values_eq] at aligned
      rcases @Holding.putlong grant size x m vs even holding aligned.1
          (BitVec.ofNat 32 (contents (m' :: cont)).length) with
        ⟨x₁, m₁, puts, holds⟩ | ⟨x₁, puts, refused⟩
      · left
        refine ⟨{ x₁ with
          front := x₁.front ++ x₁.base.toList, base := some m', cont, handy := 0 }, ?_, ?_, ?_⟩
        · simp [Op.encode, Encoder.putmblk, padded, puts, Op.accepted]
        · obtain ⟨ds, d, data_eq, linked⟩ := holds.readable.link_all (m' :: cont)
          refine ⟨by simp, holds.past, holds.trap, ds, d, ?_, ?_⟩
          · rw [← data_eq]
            simp [Encoder.chain, holds.base]
          · rw [values_eq]
            simpa using linked.bytes
        · intro single
          obtain rfl : cont = [] := single
          refine ⟨m', rfl, rfl, holds.size, holds.past, holds.trap, Int.le_refl 0, .inl rfl, ?_, ?_⟩
          · have := aligned.1
            rw [values_eq, append_cons, amount_value, Value.wire, ← nil_append (contents _),
              amount_append, amount_value, Value.wire, ← nil_append (bytes _), amount_append,
              length_bytes]
            simp only
            omega
          · have linked := (holds.readable.link_data m').bytes
            rw [values_eq]
            simpa [contents, holds.base] using linked
      · right
        refine ⟨x₁, ?_, refused⟩
        simp [Op.encode, Encoder.putmblk, padded, puts]
    · left
      have values_eq : valuesOf [Op.putmblk m' cont] = [] := by
        simp [valuesOf, Op.accepted, padded]
      rw [values_eq, append_nil]
      refine ⟨x, ?_, holding.built, fun _ => ⟨m, holding⟩⟩
      simp [Op.encode, Encoder.putmblk, padded, Op.accepted]

theorem Refused.encodeAll (refused : Refused grant size x) (ops : List Op) :
    (encodeAll grant x ops).2 = x := by
  induction ops with
  | nil => rfl
  | cons op ops ih => simp only [Xdr.encodeAll, refused.encode op, ih]

theorem wordAligned_append {n : ℕ} {us vs : List Value} (aligned : WordAligned n (us ++ vs)) :
    WordAligned n us ∧ WordAligned (n + (us.flatMap Value.wire).length) vs := by
  induction us generalizing n with
  | nil => exact ⟨trivial, aligned⟩
  | cons u us ih =>
    rw [flatMap_cons, length_append, ← Nat.add_assoc]
    cases u with
    | long v => exact ⟨⟨aligned.1, (ih aligned.2).1⟩, (ih aligned.2).2⟩
    | bytes bs => exact ih aligned

theorem valuesOf_cons (op : Op) (ops : List Op) :
    valuesOf (op :: ops) = valuesOf [op] ++ valuesOf ops := by
  simp only [valuesOf, filter_cons, filter_nil]
  split_ifs <;> simp

/-- A sequence of operations in which only the last may link more than one block. -/
theorem Holding.encodeAll (even : size % 4 = 0) (holding : Holding size x m vs []) {ops : List Op}
    (single : ∀ op ∈ ops.dropLast, op.Single)
    (aligned : WordAligned (amount vs []) (valuesOf ops)) :
    (∃ x', encodeAll grant x ops = (ops.map Op.accepted, x') ∧ Built x' (vs ++ valuesOf ops)) ∨
      Refused grant size (encodeAll grant x ops).2 := by
  induction ops generalizing x m vs with
  | nil => exact .inl ⟨x, rfl, by simpa [valuesOf] using holding.built⟩
  | cons op ops ih =>
    rw [valuesOf_cons] at aligned
    obtain ⟨here, later⟩ := wordAligned_append aligned
    rcases @Holding.encode grant size x m vs even holding op here with
      ⟨x', encodes, built, holds⟩ | ⟨x', encodes, refused⟩
    · cases ops with
      | nil =>
        left
        refine ⟨x', ?_, built⟩
        simp [Xdr.encodeAll, encodes]
      | cons op' ops' =>
        rw [dropLast_cons_cons] at single
        obtain ⟨m', held⟩ := holds (single op mem_cons_self)
        have so_far : amount (vs ++ valuesOf [op]) [] =
            amount vs [] + ((valuesOf [op]).flatMap Value.wire).length := by
          simp [amount]
        rcases ih held (fun op member => single op (mem_cons_of_mem _ member))
          (by rwa [so_far]) with ⟨x'', rest, done⟩ | refused
        · left
          refine ⟨x'', ?_, ?_⟩
          · rw [Xdr.encodeAll, encodes]
            simp only [rest, map_cons]
          · rw [valuesOf_cons, ← append_assoc]
            exact done
        · right
          rw [Xdr.encodeAll, encodes]
          exact refused
    · right
      rw [Xdr.encodeAll, encodes]
      simp only [refused.encodeAll]
      exact refused

end Steps

/-! ### The flat stream -/

theorem mem_putlong {v : BitVec 32} (fits : 4 ≤ y.handy) :
    y.putlong v = (true, ⟨y.out ++ bytes v, y.handy - 4⟩) := by
  rw [Mem.putlong, if_neg (by omega)]

theorem mem_putbytes {bs : List (BitVec 8)} (fits : (bs.length : ℤ) ≤ y.handy) :
    y.putbytes bs = (true, ⟨y.out ++ bs, y.handy - bs.length⟩) := by
  rw [Mem.putbytes, if_neg (by omega)]

theorem flat_spec {op : Op} (fits : (((valuesOf [op]).flatMap Value.wire).length : ℤ) ≤ y.handy) :
    op.flat y = (op.accepted, ⟨y.out ++ (valuesOf [op]).flatMap Value.wire,
      y.handy - ((valuesOf [op]).flatMap Value.wire).length⟩) := by
  cases op with
  | putlong v =>
    simp only [valuesOf, Op.accepted, filter_cons, if_true, filter_nil,
      flatMap_cons, flatMap_nil, Op.values, Value.wire, append_nil,
      length_bytes] at fits ⊢
    exact mem_putlong fits
  | putbytes bs =>
    simp only [valuesOf, Op.accepted, filter_cons, if_true, filter_nil,
      flatMap_cons, flatMap_nil, Op.values, Value.wire, append_nil] at fits ⊢
    exact mem_putbytes fits
  | putmblk m cont =>
    by_cases padded : (contents (m :: cont)).length % 4 = 0
    · have wire_eq : (valuesOf [Op.putmblk m cont]).flatMap Value.wire =
          bytes (BitVec.ofNat 32 (contents (m :: cont)).length) ++ contents (m :: cont) := by
        simp [valuesOf, Op.accepted, padded, Op.values, Value.wire]
      rw [wire_eq, length_append, length_bytes] at fits ⊢
      rw [Op.flat]
      simp only [padded, Op.accepted, decide_true, ne_eq, not_true_eq_false, if_false]
      rw [mem_putlong (by omega)]
      simp only
      rw [mem_putbytes (by simp only; omega)]
      simp only [append_assoc, Prod.mk.injEq, Mem.mk.injEq, true_and]
      omega
    · simp [Op.flat, valuesOf, Op.accepted, padded]

theorem flatAll_spec {ops : List Op}
    (fits : (((valuesOf ops).flatMap Value.wire).length : ℤ) ≤ y.handy) :
    flatAll y ops = (ops.map Op.accepted, ⟨y.out ++ (valuesOf ops).flatMap Value.wire,
      y.handy - ((valuesOf ops).flatMap Value.wire).length⟩) := by
  induction ops generalizing y with
  | nil => simp [flatAll, valuesOf]
  | cons op ops ih =>
    rw [valuesOf_cons, flatMap_append, length_append] at fits ⊢
    rw [flatAll, flat_spec (by omega)]
    simp only
    rw [ih (by simp only; omega)]
    simp only [map_cons, append_assoc, Prod.mk.injEq, Mem.mk.injEq, true_and]
    omega

/-! ### The round trip -/

/-- What the stream has encoded, when no continuation block was refused: the bytes of the flat
stream, from which every value can be read back. -/
structure Encoded (ops : List Op) (oks : List Bool) (chain : List Mblk) : Prop where
  accepted : oks = ops.map Op.accepted
  flat : ∀ size, (contents chain).length ≤ size →
    (flatAll (Mem.create size) ops).1 = oks ∧ (flatAll (Mem.create size) ops).2.out = contents chain
  decoded : ∃ y, decodeAll (Decoder.init chain) ((valuesOf ops).map Value.get) =
    some (valuesOf ops, y) ∧ contents y.blocks = []

theorem Built.encoded {ops : List Op} (built : Built x (valuesOf ops)) :
    Encoded ops (ops.map Op.accepted) x.chain := by
  obtain ⟨ds, d, chain_eq, held, parts, c, none_left, -, reads⟩ := built.readable
  rw [append_nil] at held
  have contents_eq : contents x.chain = (valuesOf ops).flatMap Value.wire := by
    rw [← held, chain_eq, contents_append]
    simp [contents]
  refine ⟨rfl, ?_, ?_⟩
  · intro size fits
    rw [contents_eq] at fits ⊢
    rw [flatAll_spec (by simp only [Mem.create]; omega)]
    exact ⟨rfl, by simp [Mem.create]⟩
  · have decodes := reads [] []
    have whole (m : Mblk) : m.store [] = m := by simp [Mblk.store]
    rw [whole, whole, ← chain_eq] at decodes
    refine ⟨_, decodes, ?_⟩
    have all_blocks : (Decoder.init (parts ++ [c])).blocks = parts ++ [c] := by
      cases parts <;> rfl
    rw [all_blocks, contents_append]
    simpa [contents] using none_left

/-- When every word comes behind a multiple of 4 bytes, an mblk stream encodes as the flat stream
does and its chain decodes to the same values, unless a continuation block is refused; no write goes
past the end of a block, and no word is stored at an odd place. -/
theorem mblk_round_trip (grant : ℕ → Bool) {lim size : ℕ} {ops : List Op} (lim_even : lim % 4 = 0)
    (size_even : size % 4 = 0) (single : ∀ op ∈ ops.dropLast, op.Single)
    (aligned : WordAligned 0 (valuesOf ops)) :
    (encodeAll grant (Encoder.init lim size) ops).2.trap = false ∧
    (encodeAll grant (Encoder.init lim size) ops).2.past = false ∧
    ((encodeAll grant (Encoder.init lim size) ops).2.base ≠ none →
      Encoded ops (encodeAll grant (Encoder.init lim size) ops).1
        (encodeAll grant (Encoder.init lim size) ops).2.chain) ∧
    (0 < size → (∀ n, grant n = true) →
      (encodeAll grant (Encoder.init lim size) ops).2.base ≠ none) := by
  rcases @Holding.encodeAll grant size _ _ [] size_even (Holding.init lim_even size) ops single
    aligned with ⟨x, encodes, built⟩ | refused
  · rw [encodes]
    rw [nil_append] at built
    exact ⟨built.trap, built.past, fun _ => built.encoded, fun _ _ => built.base⟩
  · refine ⟨refused.trap, refused.past, ?_, ?_⟩
    · exact fun kept => absurd refused.base kept
    · exact fun positive granted => absurd ⟨positive, granted⟩ refused.cause

/-- A word, five bytes that cross into a second block and three that pad them, an mblk that is
linked behind them, and a word in a third block. -/
theorem mblk_round_trip_run :
    let ops := [.putlong 7, .putbytes [1, 2, 3, 4, 5], .putbytes [0, 0, 0],
      .putmblk ⟨4, 0, [9, 9, 9, 9]⟩ [], .putlong 8]
    (encodeAll (fun _ => true) (Encoder.init 8 100) ops).2.trap = false ∧
      Encoded ops [true, true, true, true, true]
        (encodeAll (fun _ => true) (Encoder.init 8 100) ops).2.chain := by
  intro ops
  obtain ⟨straight, -, encoded, -⟩ := @mblk_round_trip (fun _ => true) 8 100 ops rfl rfl
    (by simp [ops, Op.Single]) ⟨rfl, rfl, rfl, trivial⟩
  exact ⟨straight, encoded (by decide)⟩

/-- Without a continuation size the second word has no block, and its bytes are missing; a word put
behind three bytes is stored at an odd place; and a word put behind two linked blocks goes past the
end of the second one. -/
theorem mblk_stream_not_flat :
    ¬ Encoded [.putlong 7, .putlong 8]
      (encodeAll (fun _ => true) (Encoder.init 4 0) [.putlong 7, .putlong 8]).1
      (encodeAll (fun _ => true) (Encoder.init 4 0) [.putlong 7, .putlong 8]).2.chain ∧
    (encodeAll (fun _ => true) (Encoder.init 8 100)
      [.putbytes [1, 2, 3], .putlong 7]).2.trap = true ∧
    (encodeAll (fun _ => true) (Encoder.init 8 100)
      [.putmblk ⟨4, 0, [1, 2, 3, 4]⟩ [⟨4, 0, [5, 6, 7, 8]⟩], .putlong 7]).2.past = true := by
  refine ⟨?_, by decide, by decide⟩
  intro encoded
  have := (encoded.flat 8 (by decide)).2
  exact absurd this (by decide)

end Sol25.Xdr
