import Sol25.Rpc.CallMsg

/-!
# The two ways to decode a call message

Wherever `xdr_callmsg` decodes in place it takes what the routines of `rpc/xdr.c` would have read: a
piece that lies in one block is read from there by both.
-/

namespace Sol25.Rpc

open Xdr List Option

variable {ref : ℕ → ℕ} {oa : OpaqueAuth}

/-! ### Streams -/

/-- `x_handy` counts what the current block still holds. -/
def Ready (x : Decoder) : Prop := ∃ blocks, x = Decoder.init blocks

variable {x y : Decoder} {cont : List Mblk} {m : Mblk} {len : ℕ}

/-- What it takes for a piece of the buffer to be given in place, and what the stream is then. -/
theorem decodeInline_eq_some {blocks : List Mblk} {buf : List (BitVec 8)}
    (inline : decodeInline ref (Decoder.init blocks) len = some (buf, y)) :
    ∃ m cont, blocks = m :: cont ∧ len ≤ m.data.length ∧ buf = m.data.take len ∧
      y = Decoder.init (Decoder.advance m len :: cont) := by
  cases blocks with
  | nil => cases inline
  | cons m cont =>
    have inline : (if (m.data.length : ℤ) < len ∨ ref cont.length ≠ 1 then none
        else some (m.data.take len,
          (⟨Decoder.advance m len :: cont, m.data.length - len⟩ : Decoder))) =
          some (buf, y) := inline
    by_cases refused : (m.data.length : ℤ) < len ∨ ref cont.length ≠ 1
    · rw [if_pos refused] at inline
      cases inline
    · rw [if_neg refused, some.injEq, Prod.mk.injEq] at inline
      have enough : len ≤ m.data.length := by omega
      exact ⟨m, cont, rfl, enough, inline.1.symm, inline.2.symm.trans (init_advance enough cont)⟩

theorem advance_advance (m : Mblk) (a b : ℕ) :
    Decoder.advance (Decoder.advance m a) b = Decoder.advance m (a + b) := by
  simp only [Decoder.advance, drop_drop, Nat.add_assoc]

theorem advance_data (m : Mblk) (len : ℕ) : (Decoder.advance m len).data = m.data.drop len := rfl

theorem getbytes_here (enough : len ≤ m.data.length) (cont : List Mblk) :
    (Decoder.init (m :: cont)).getbytes len =
      (some (m.data.take len), Decoder.init (Decoder.advance m len :: cont)) := by
  have loop := getbytesLoop_here enough cont []
  rwa [nil_append] at loop

theorem getWord_here {α : Type} (enough : 4 ≤ m.data.length) (value : α) (set : BitVec 32 → α)
    (next : α → Decoder → Decoded α) :
    getWord value (Decoder.init (m :: cont)) set next =
      next (set (word (m.data.take 4))) (Decoder.init (Decoder.advance m 4 :: cont)) := by
  have read : (Decoder.init (m :: cont)).getlong =
      (some (word (m.data.take 4)), Decoder.init (Decoder.advance m 4 :: cont)) :=
    getlongLoop_here enough cont
  simp only [getWord, read]

theorem getlongLoop_ready {v : BitVec 32}
    (reads : Decoder.getlongLoop (m :: cont) m.data.length = (some v, y)) : Ready y := by
  induction cont generalizing m with
  | nil =>
    by_cases enough : 4 ≤ m.data.length
    · rw [getlongLoop_here enough] at reads
      obtain ⟨-, rfl⟩ := Prod.mk.inj reads
      exact ⟨_, rfl⟩
    · have short : ((m.data.length : ℤ) - 4 < 0) := by omega
      rw [Decoder.getlongLoop.eq_def] at reads
      simp only [if_pos short] at reads
      split_ifs at reads <;> cases reads
  | cons m' cont ih =>
    by_cases enough : 4 ≤ m.data.length
    · rw [getlongLoop_here enough] at reads
      obtain ⟨-, rfl⟩ := Prod.mk.inj reads
      exact ⟨_, rfl⟩
    · have short : ((m.data.length : ℤ) - 4 < 0) := by omega
      rw [Decoder.getlongLoop.eq_def] at reads
      simp only [if_pos short] at reads
      split_ifs at reads with rest
      · cases reads
      · exact ih reads

theorem getbytesLoop_ready {addr bs : List (BitVec 8)}
    (reads : Decoder.getbytesLoop (m :: cont) m.data.length len addr = (some bs, y)) :
    Ready y := by
  induction cont generalizing m len addr with
  | nil =>
    by_cases enough : len ≤ m.data.length
    · rw [getbytesLoop_here enough] at reads
      obtain ⟨-, rfl⟩ := Prod.mk.inj reads
      exact ⟨_, rfl⟩
    · have short : ((m.data.length : ℤ) - len < 0) := by omega
      rw [Decoder.getbytesLoop.eq_def] at reads
      simp only [if_pos short] at reads
      cases reads
  | cons m' cont ih =>
    by_cases enough : len ≤ m.data.length
    · rw [getbytesLoop_here enough] at reads
      obtain ⟨-, rfl⟩ := Prod.mk.inj reads
      exact ⟨_, rfl⟩
    · have short : ((m.data.length : ℤ) - len < 0) := by omega
      rw [Decoder.getbytesLoop.eq_def] at reads
      simp only [if_pos short] at reads
      exact ih reads

theorem Ready.getlong {v : BitVec 32} (ready : Ready x) (reads : x.getlong = (some v, y)) :
    Ready y := by
  obtain ⟨blocks, rfl⟩ := ready
  cases blocks with
  | nil => cases reads
  | cons m cont => exact getlongLoop_ready reads

theorem Ready.getbytes {bs : List (BitVec 8)} (ready : Ready x)
    (reads : x.getbytes len = (some bs, y)) : Ready y := by
  obtain ⟨blocks, rfl⟩ := ready
  cases blocks with
  | nil => cases reads
  | cons m cont => exact getbytesLoop_ready reads

theorem Ready.getOpaque {cnt : ℕ} (ready : Ready x) (ok : (getOpaque oa cnt x).ok = true) :
    Ready (getOpaque oa cnt x).stream := by
  rcases read : x.getbytes cnt with ⟨_ | bs, y⟩
  · simp only [Rpc.getOpaque, read] at ok ⊢
    split_ifs at ok ⊢ with empty
    exact ready
  · have ready' := ready.getbytes read
    rcases crud : y.getbytes (padding cnt) with ⟨_ | bs', z⟩
    · simp only [Rpc.getOpaque, read, crud] at ok ⊢
      split_ifs at ok ⊢ with empty full
      · exact ready
      · exact ready'
      · cases ok
    · simp only [Rpc.getOpaque, read, crud] at ok ⊢
      split_ifs at ok ⊢ with empty full
      · exact ready
      · exact ready'
      · exact ready'.getbytes crud

/-! ### Credentials and verifiers -/

/-- Two ways of decoding a credential or verifier accept the same, and what they accept is the
same. -/
structure Agree (fast slow : Decoded OpaqueAuth) : Prop where
  ok : fast.ok = slow.ok
  flavor : slow.ok = true → fast.value.flavor = slow.value.flavor
  length : slow.ok = true → fast.value.length = slow.value.length
  body : slow.ok = true → fast.value.body = slow.value.body
  stream : slow.ok = true → fast.stream = slow.stream
  ready : slow.ok = true → Ready slow.stream

theorem Agree.rfl {r : Decoded OpaqueAuth} (ready : r.ok = true → Ready r.stream) : Agree r r :=
  ⟨Eq.refl _, fun _ => Eq.refl _, fun _ => Eq.refl _, fun _ => Eq.refl _, fun _ => Eq.refl _, ready⟩

theorem Agree.of_not {fast slow : Decoded OpaqueAuth} (fast_fails : fast.ok = false)
    (slow_fails : slow.ok = false) : Agree fast slow := by
  have absurd_ok : slow.ok ≠ true := by simp [slow_fails]
  exact ⟨fast_fails.trans slow_fails.symm, fun ok => (absurd_ok ok).elim,
    fun ok => (absurd_ok ok).elim,
    fun ok => (absurd_ok ok).elim, fun ok => (absurd_ok ok).elim, fun ok => (absurd_ok ok).elim⟩

/-- What `xdr_bytes` does behind the length. -/
def getBody (oa : OpaqueAuth) (x : Decoder) : Decoded OpaqueAuth :=
  if maxAuthBytes < oa.length.toNat then ⟨false, oa, x⟩
  else if oa.length.toNat = 0 then ⟨true, oa, x⟩
  else getOpaque oa oa.length.toNat x

theorem getOpaque_here {cnt : ℕ} (positive : cnt ≠ 0) (enough : rndup cnt ≤ m.data.length) :
    getOpaque oa cnt (Decoder.init (m :: cont)) =
      ⟨true, { oa with base := some (m.data.take cnt ++ (oa.base.getD []).drop cnt) },
        Decoder.init (Decoder.advance m (rndup cnt) :: cont)⟩ := by
  rw [rndup_eq] at enough ⊢
  have first := @getbytes_here m cnt (by omega) cont
  simp only [getOpaque, if_neg positive, first]
  by_cases full : padding cnt = 0
  · simp only [full, if_true, Nat.add_zero]
  · have second := @getbytes_here (Decoder.advance m cnt) (padding cnt)
      (by rw [advance_data, length_drop]; omega) cont
    simp only [if_neg full, second, advance_advance, isSome_some]

theorem getInlineBody_agrees (ready : Ready x) (oa : OpaqueAuth) :
    Agree (getInlineBody ref oa x) (getBody oa x) := by
  have zero_iff : oa.length = 0 ↔ oa.length.toNat = 0 := BitVec.toNat_eq
  by_cases empty : oa.length = 0
  · have positive : ¬ maxAuthBytes < oa.length.toNat := by
      rw [zero_iff.1 empty]
      exact Nat.not_lt_zero _
    simp only [getInlineBody, getBody, if_pos empty, if_neg positive, if_pos (zero_iff.1 empty)]
    exact Agree.rfl fun _ => ready
  · have nonzero := mt zero_iff.2 empty
    by_cases large : maxAuthBytes < oa.length.toNat
    · simp only [getInlineBody, getBody, if_neg empty, if_pos large]
      exact Agree.of_not (Eq.refl _) (Eq.refl _)
    · simp only [getInlineBody, getBody, if_neg empty, if_neg large, if_neg nonzero]
      rcases inline : decodeInline ref x (rndup oa.length.toNat) with _ | ⟨buf, y⟩
      · exact Agree.rfl fun ok => ready.getOpaque ok
      · obtain ⟨blocks, rfl⟩ := ready
        obtain ⟨m, cont, rfl, enough, rfl, rfl⟩ := decodeInline_eq_some inline
        have ready : Ready (Decoder.init (Decoder.advance m (rndup oa.length.toNat) :: cont)) :=
          ⟨_, Eq.refl _⟩
        rw [getOpaque_here nonzero enough]
        refine ⟨Eq.refl _, fun _ => Eq.refl _, fun _ => Eq.refl _, fun _ => ?_, fun _ => Eq.refl _,
          fun _ => ready⟩
        have longer : oa.length.toNat ≤ rndup oa.length.toNat := by
          rw [rndup_eq]
          omega
        simp only [OpaqueAuth.body, getD_some]
        rw [take_take, min_eq_left longer, take_append_of_le_length (by simp; omega),
          take_take, min_self]

theorem getOpaqueAuth_eq (oa : OpaqueAuth) (x : Decoder) :
    getOpaqueAuth oa x = getWord oa x (fun v => { oa with flavor := v }) fun oa x =>
        getWord oa x (fun v => { oa with length := v }) getBody := Eq.refl _

theorem getInlineVerf_agrees (ready : Ready x) (oa : OpaqueAuth) :
    Agree (getInlineVerf ref oa x) (getOpaqueAuth oa x) := by
  rw [getOpaqueAuth_eq, getInlineVerf]
  rcases inline : decodeInline ref x (2 * 4) with _ | ⟨buf, y⟩
  · rcases flavor : x.getlong with ⟨_ | v, y⟩
    · simp only [getWord, flavor]
      exact Agree.of_not (Eq.refl _) (Eq.refl _)
    · have ready₁ := ready.getlong flavor
      simp only [getWord, flavor]
      rcases length : y.getlong with ⟨_ | w, z⟩
      · simp only
        exact Agree.of_not (Eq.refl _) (Eq.refl _)
      · simp only
        exact getInlineBody_agrees (ready₁.getlong length) _
  · obtain ⟨blocks, rfl⟩ := ready
    obtain ⟨m, cont, rfl, enough, rfl, rfl⟩ := decodeInline_eq_some inline
    simp only [ixdrGetLong]
    rw [getWord_here (by omega), getWord_here (by rw [advance_data, length_drop]; omega)]
    simp only [advance_advance, advance_data, take_take, drop_take]
    exact getInlineBody_agrees ⟨_, Eq.refl _⟩ _

/-! ### Call messages -/

/-- What the callers of `xdr_callmsg` see of a message. -/
structure SameCall (a b : RpcMsg) : Prop where
  xid : a.xid = b.xid
  prog : a.prog = b.prog
  vers : a.vers = b.vers
  proc : a.proc = b.proc
  cred_flavor : a.cred.flavor = b.cred.flavor
  cred_length : a.cred.length = b.cred.length
  cred_body : a.cred.body = b.cred.body
  verf_flavor : a.verf.flavor = b.verf.flavor
  verf_length : a.verf.length = b.verf.length
  verf_body : a.verf.body = b.verf.body

/-- Behind the words of the header, the inline branch decodes what the slow one does. -/
theorem getAuths_agree (ready : Ready x) (cmsg : RpcMsg) (cred : OpaqueAuth) :
    let fast_cred := getInlineBody ref cred x
    let slow_cred := getBody cred x
    let fast : Decoded RpcMsg :=
      if !fast_cred.ok then ⟨false, { cmsg with cred := fast_cred.value }, fast_cred.stream⟩
      else
        let verf := getInlineVerf ref cmsg.verf fast_cred.stream
        ⟨verf.ok, { cmsg with cred := fast_cred.value, verf := verf.value }, verf.stream⟩
    let slow : Decoded RpcMsg :=
      if !slow_cred.ok then ⟨false, { cmsg with cred := slow_cred.value }, slow_cred.stream⟩
      else
        let verf := getOpaqueAuth cmsg.verf slow_cred.stream
        ⟨verf.ok, { cmsg with cred := slow_cred.value, verf := verf.value }, verf.stream⟩
    fast.ok = slow.ok ∧
      (slow.ok = true → SameCall fast.value slow.value ∧ fast.stream = slow.stream) := by
  have first := @getInlineBody_agrees ref x ready cred
  intro fast_cred slow_cred fast slow
  simp only [fast, slow, fast_cred, slow_cred]
  rw [first.ok]
  rcases accepted : (getBody cred x).ok with _ | _
  · simp
  · simp only [Bool.not_true, Bool.false_eq_true, if_false]
    rw [first.stream accepted]
    have second := @getInlineVerf_agrees ref _ (first.ready accepted) cmsg.verf
    refine ⟨second.ok, fun ok => ⟨?_, second.stream ok⟩⟩
    exact ⟨Eq.refl _, Eq.refl _, Eq.refl _, Eq.refl _, first.flavor accepted, first.length accepted,
      first.body accepted, second.flavor ok, second.length ok, second.body ok⟩

theorem getInline_agrees (enough : 8 * 4 ≤ m.data.length) (cmsg : RpcMsg) :
    let fast := getInline ref cmsg (m.data.take (8 * 4))
      (Decoder.init (Decoder.advance m (8 * 4) :: cont))
    let slow := getSlow cmsg (Decoder.init (m :: cont))
    fast.ok = slow.ok ∧
      (slow.ok = true → SameCall fast.value slow.value ∧ fast.stream = slow.stream) := by
  have long : ∀ len, len ≤ 28 → 4 ≤ (Decoder.advance m len).data.length := by
    intro len small
    rw [advance_data, length_drop]
    omega
  intro fast slow
  simp only [fast, slow, getInline, getSlow, ixdrGetLong]
  rw [getWord_here (by omega), getWord_here (long 4 (by omega))]
  simp (disch := omega) only [advance_advance, advance_data, take_take, drop_take,
    drop_drop, Nat.min_eq_left]
  by_cases not_call : word ((m.data.drop 4).take 4) ≠ call
  · simp only [if_pos not_call, Bool.false_eq_true, false_implies, and_self]
  · simp only [if_neg not_call]
    rw [getWord_here (long 8 (by omega))]
    simp only [advance_advance, advance_data]
    by_cases not_version : word ((m.data.drop 8).take 4) ≠ rpcMsgVersion
    · simp only [Nat.reduceAdd, if_pos not_version, Bool.false_eq_true, false_implies, and_self]
    · simp only [Nat.reduceAdd, if_neg not_version]
      rw [getWord_here (long 12 (by omega)), advance_advance, getWord_here (long 16 (by omega)),
        advance_advance, getWord_here (long 20 (by omega)), advance_advance, getOpaqueAuth_eq,
        getWord_here (long 24 (by omega)), advance_advance, getWord_here (long 28 (by omega)),
        advance_advance]
      exact getAuths_agree ⟨Decoder.advance m (8 * 4) :: cont, Eq.refl _⟩
        { cmsg with
          xid := word (m.data.take 4), direction := word ((m.data.drop 4).take 4)
          rpcvers := word ((m.data.drop 8).take 4), prog := word ((m.data.drop 12).take 4)
          vers := word ((m.data.drop 16).take 4), proc := word ((m.data.drop 20).take 4) }
        { cmsg.cred with
          flavor := word ((m.data.drop 24).take 4), length := word ((m.data.drop 28).take 4) }

/-- Whatever blocks a call message lies in, and wherever pieces of it are given in place,
`xdr_callmsg` accepts what it accepts when nothing is, and finds the same message and leaves the
stream at the same place. -/
theorem inline_decoding_agrees (ref none_inline : ℕ → ℕ) (shared : ∀ behind, none_inline behind ≠ 1)
    (cmsg : RpcMsg) (blocks : List Mblk) :
    let fast := decodeCallmsg ref cmsg (Decoder.init blocks)
    let slow := decodeCallmsg none_inline cmsg (Decoder.init blocks)
    fast.ok = slow.ok ∧
      (slow.ok = true → SameCall fast.value slow.value ∧ fast.stream = slow.stream) := by
  have refused : decodeInline none_inline (Decoder.init blocks) (8 * 4) = none := by
    cases blocks with
    | nil => rfl
    | cons m cont => exact if_pos (.inr (shared _))
  intro fast slow
  simp only [fast, slow, decodeCallmsg, refused]
  rcases inline : decodeInline ref (Decoder.init blocks) (8 * 4) with _ | ⟨buf, y⟩
  · exact ⟨Eq.refl _,
      fun _ => ⟨⟨Eq.refl _, Eq.refl _, Eq.refl _, Eq.refl _, Eq.refl _, Eq.refl _, Eq.refl _,
      Eq.refl _, Eq.refl _, Eq.refl _⟩, Eq.refl _⟩⟩
  · obtain ⟨m, cont, rfl, enough, rfl, rfl⟩ := decodeInline_eq_some inline
    exact getInline_agrees enough cmsg

/-- A call with a credential of one byte, whose verifier lies in a block of its own. -/
def twoBlocks : List Mblk :=
  [⟨64, 0, bytes 1 ++ bytes call ++ bytes rpcMsgVersion ++ bytes 100003 ++ bytes 2 ++
    bytes 0 ++ bytes 1 ++ bytes 1 ++ [7, 0, 0, 0]⟩, ⟨64, 0, bytes 0 ++ bytes 0⟩]

/-- A message to decode into. -/
def blankMsg : RpcMsg := ⟨0, 0, 0, 0, 0, 0, ⟨0, none, 0⟩, ⟨0, none, 0⟩⟩

/-- `twoBlocks` is accepted both ways. -/
theorem inline_decoding_agrees_two_blocks :
    (decodeCallmsg (fun _ => 2) blankMsg (Decoder.init twoBlocks)).ok = true ∧
      (decodeCallmsg (fun _ => 1) blankMsg (Decoder.init twoBlocks)).ok =
        (decodeCallmsg (fun _ => 2) blankMsg (Decoder.init twoBlocks)).ok :=
  ⟨by decide +kernel,
    (inline_decoding_agrees (fun _ => 1) (fun _ => 2) (fun _ => by decide) blankMsg twoBlocks).1⟩

end Sol25.Rpc
