import Sol25.Rpc.CallMsg

/-!
# The two ways to encode a call message

The inline branch of `xdr_callmsg` copies the bodies of the credential and the verifier and steps
over what fills up their last units, without writing it; `xdr_opaque` writes zeros there.  The two
emit the same bytes exactly when the buffer held zeros in those places.
-/

namespace Sol25.Rpc

open Xdr List

variable {grant : ℕ → Bool} {x : Encoder} {m : Mblk} {cmsg : RpcMsg} {old : List (BitVec 8)}

/-! ### What is on the wire -/

/-- The bytes of a credential or verifier whose last unit is filled up with `fill`. -/
def authWire (oa : OpaqueAuth) (fill : List (BitVec 8)) : List (BitVec 8) :=
  bytes oa.flavor ++ bytes oa.length ++ oa.body ++ fill

/-- The words in front of the credential. -/
def headWire (cmsg : RpcMsg) : List (BitVec 8) :=
  bytes cmsg.xid ++ bytes cmsg.direction ++ bytes cmsg.rpcvers ++ bytes cmsg.prog ++
    bytes cmsg.vers ++
    bytes cmsg.proc

/-- What the buffer held where the last unit of the credential is filled up. -/
def staleCred (cmsg : RpcMsg) (old : List (BitVec 8)) : List (BitVec 8) :=
  (old.drop (8 * 4 + cmsg.cred.length.toNat)).take (padding cmsg.cred.length.toNat)

/-- What the buffer held where the last unit of the verifier is filled up. -/
def staleVerf (cmsg : RpcMsg) (old : List (BitVec 8)) : List (BitVec 8) :=
  (old.drop (8 * 4 + rndup cmsg.cred.length.toNat + 2 * 4 + cmsg.verf.length.toNat)).take
    (padding cmsg.verf.length.toNat)

/-- The bytes of the padding of `cnt` bytes. -/
def zeros (cnt : ℕ) : List (BitVec 8) := List.replicate (padding cnt) 0

/-- The buffer held zeros wherever a last unit is filled up. -/
def Clean (cmsg : RpcMsg) (old : List (BitVec 8)) : Prop :=
  staleCred cmsg old = zeros cmsg.cred.length.toNat ∧
    staleVerf cmsg old = zeros cmsg.verf.length.toNat

instance : Decidable (Clean cmsg old) := inferInstanceAs (Decidable (_ ∧ _))

/-- A message that `xdr_callmsg` encodes. -/
structure Callable (cmsg : RpcMsg) : Prop where
  direction : cmsg.direction = call
  rpcvers : cmsg.rpcvers = rpcMsgVersion
  cred_le : cmsg.cred.length.toNat ≤ maxAuthBytes
  verf_le : cmsg.verf.length.toNat ≤ maxAuthBytes
  cred : cmsg.cred.Valid
  verf : cmsg.verf.Valid

theorem length_zeros (cnt : ℕ) : (zeros cnt).length = padding cnt := length_replicate

theorem length_authWire {oa : OpaqueAuth} (valid : oa.Valid) {fill : List (BitVec 8)}
    (fills : fill.length = padding oa.length.toNat) :
    (authWire oa fill).length = 2 * 4 + rndup oa.length.toNat := by
  have body := valid
  simp only [OpaqueAuth.Valid] at body
  simp only [authWire, length_append, length_bytes, body, fills, rndup_eq]
  omega

theorem body_eq_nil {oa : OpaqueAuth} (zero : oa.length = 0) : oa.body = [] := by
  simp [OpaqueAuth.body, zero]

/-! ### The inline branch -/

theorem bcopy_advance {room : Room} {oa : OpaqueAuth} (valid : oa.Valid) :
    (if oa.length ≠ 0 then (room.bcopy oa.body).advance (rndup oa.length.toNat) else room) =
      ⟨room.front ++ oa.body ++ (room.buf.drop oa.length.toNat).take (padding oa.length.toNat),
        room.buf.drop (rndup oa.length.toNat)⟩ := by
  have body : oa.body.length = oa.length.toNat := valid
  by_cases empty : oa.length = 0
  · simp [empty, body_eq_nil empty, padding, rndup]
  · rw [if_pos empty]
    simp only [Room.bcopy, Room.advance, rndup_eq, body]
    rw [← body, take_length_add_append, drop_length_add_append, append_assoc, drop_drop]

theorem bcopy_contents {room : Room} {oa : OpaqueAuth} (valid : oa.Valid) :
    (if oa.length ≠ 0 then room.bcopy oa.body else room).contents =
      room.front ++ oa.body ++ room.buf.drop oa.length.toNat := by
  have body : oa.body.length = oa.length.toNat := valid
  by_cases empty : oa.length = 0
  · simp [empty, body_eq_nil empty, Room.contents]
  · rw [if_pos empty]
    simp only [Room.bcopy, Room.contents, body, append_assoc]

theorem putInline_contents (callable : Callable cmsg) (old : List (BitVec 8)) :
    (putInline cmsg ⟨[], old.take (wireSize cmsg)⟩).1 = true ∧
      (putInline cmsg ⟨[], old.take (wireSize cmsg)⟩).2.contents =
        headWire cmsg ++ authWire cmsg.cred (staleCred cmsg old) ++
          authWire cmsg.verf (staleVerf cmsg old) := by
  have cred_fill : ((old.take (wireSize cmsg)).drop (8 * 4 + cmsg.cred.length.toNat)).take
      (padding cmsg.cred.length.toNat) = staleCred cmsg old := by
    rw [drop_take, take_take, staleCred, min_eq_left]
    simp only [wireSize, rndup_eq]
    omega
  have verf_fill : (old.take (wireSize cmsg)).drop
      (8 * 4 + rndup cmsg.cred.length.toNat + 2 * 4 + cmsg.verf.length.toNat) =
        staleVerf cmsg old := by
    rw [drop_take, staleVerf]
    congr 1
    simp only [wireSize, rndup_eq]
    omega
  simp only [putInline, callable.direction, callable.rpcvers, ne_eq, not_true_eq_false, if_false,
    true_and]
  rw [bcopy_advance callable.cred, bcopy_contents callable.verf]
  simp only [Room.putLong, drop_drop, nil_append]
  rw [← cred_fill, ← verf_fill]
  simp only [headWire, authWire, append_assoc, callable.direction, callable.rpcvers]

/-! ### The slow branch -/

/-- A call went well and wrote bytes into the current block. -/
structure Wrote (x : Encoder) (m : Mblk) (s : List (BitVec 8)) (r : Bool × Encoder) : Prop where
  ok : r.1 = true
  base : r.2.base = some (m.store s)
  front : r.2.front = x.front
  cont : r.2.cont = x.cont
  handy : r.2.handy = x.handy - s.length

theorem wrote_nil (base : x.base = some m) : Wrote x m [] (true, x) := by
  refine ⟨rfl, ?_, rfl, rfl, by simp⟩
  simp only [base, Mblk.store, append_nil]

theorem Wrote.andThen {s t : List (BitVec 8)} {a : Bool × Encoder} {b : Encoder → Bool × Encoder}
    (first : Wrote x m s a) (second : Wrote a.2 (m.store s) t (b a.2)) :
    Wrote x m (s ++ t) (andThen a b) := by
  rw [Rpc.andThen, if_pos first.ok]
  refine ⟨second.ok, ?_, second.front.trans first.front, second.cont.trans first.cont, ?_⟩
  · rw [second.base]
    simp only [Mblk.store, append_assoc]
  · rw [second.handy, first.handy, length_append]
    push_cast
    omega

theorem wrote_putlong (base : x.base = some m) (room : 4 ≤ x.handy) (v : BitVec 32) :
    Wrote x m (bytes v) (x.putlong grant v) := by
  have enough : ¬ x.handy - 4 < 0 := by omega
  simp only [Encoder.putlong, base, if_neg enough]
  exact ⟨rfl, rfl, rfl, rfl, rfl⟩

theorem wrote_putbytes (base : x.base = some m) {bs : List (BitVec 8)}
    (room : bs.length ≤ x.handy) :
    Wrote x m bs (x.putbytes grant bs) := by
  have enough : ¬ x.handy - bs.length < 0 := by omega
  simp only [Encoder.putbytes, Encoder.putbytesLoop, base, if_neg enough]
  exact ⟨rfl, rfl, rfl, rfl, rfl⟩

theorem wrote_putOpaque (base : x.base = some m) {cp : List (BitVec 8)}
    (room : rndup cp.length ≤ x.handy) :
    Wrote x m (cp ++ zeros cp.length) (putOpaque grant x cp) := by
  rw [rndup_eq] at room
  push_cast at room
  by_cases empty : cp.length = 0
  · have nothing : cp = [] := length_eq_zero_iff.1 empty
    subst nothing
    exact wrote_nil base
  · have body := @wrote_putbytes grant x m base cp (by omega)
    simp only [putOpaque, if_neg empty]
    refine body.andThen ?_
    by_cases full : padding cp.length = 0
    · simp only [full, zeros, replicate_zero, if_true]
      exact wrote_nil body.base
    · rw [if_neg full]
      refine wrote_putbytes body.base ?_
      rw [body.handy, length_zeros]
      omega

theorem wrote_putOpaqueAuth (base : x.base = some m) {oa : OpaqueAuth} (valid : oa.Valid)
    (small : oa.length.toNat ≤ maxAuthBytes) (room : 2 * 4 + rndup oa.length.toNat ≤ x.handy) :
    Wrote x m (authWire oa (zeros oa.length.toNat)) (putOpaqueAuth grant x oa) := by
  have body : oa.body.length = oa.length.toNat := valid
  have flavor := @wrote_putlong grant x m base (by omega) oa.flavor
  have flavor_handy : (x.putlong grant oa.flavor).2.handy = x.handy - 4 := by
    rw [flavor.handy, length_bytes]
    rfl
  have length := @wrote_putlong grant _ _ flavor.base (by omega) oa.length
  have length_handy := length.handy
  rw [flavor_handy, length_bytes] at length_handy
  push_cast at length_handy
  have wire : authWire oa (zeros oa.length.toNat) =
      bytes oa.flavor ++ (bytes oa.length ++ (oa.body ++ zeros oa.length.toNat)) := by
    simp only [authWire, append_assoc]
  rw [wire]
  refine flavor.andThen (length.andThen ?_)
  rw [if_neg (Nat.not_lt.2 small)]
  have opaque_body := @wrote_putOpaque grant _ _ length.base oa.body (by rw [body]; omega)
  rwa [body] at opaque_body

theorem wrote_putSlow (base : x.base = some m) (callable : Callable cmsg)
    (room : wireSize cmsg ≤ x.handy) :
    Wrote x m (headWire cmsg ++ authWire cmsg.cred (zeros cmsg.cred.length.toNat) ++
      authWire cmsg.verf (zeros cmsg.verf.length.toNat)) (putSlow grant x cmsg) := by
  have cred_size := length_authWire callable.cred (length_zeros _)
  simp only [wireSize] at room
  push_cast at room
  have step : ∀ {y : Encoder} {n : Mblk} {rest : List (BitVec 8)} {b : Encoder → Bool × Encoder}
      (v : BitVec 32), y.base = some n → 4 ≤ y.handy →
      (∀ z : Encoder, z.base = some (n.store (bytes v)) → z.handy = y.handy - 4 →
        Wrote z (n.store (bytes v)) rest (b z)) →
      Wrote y n (bytes v ++ rest) (Rpc.andThen (y.putlong grant v) b) := by
    intro y n rest b v base room next
    have word := @wrote_putlong grant y n base room v
    refine word.andThen (next _ word.base ?_)
    rw [word.handy, length_bytes]
    rfl
  simp only [headWire, append_assoc, putSlow]
  refine step _ base (by omega) fun x₁ base₁ handy₁ => ?_
  refine step _ base₁ (by omega) fun x₂ base₂ handy₂ => ?_
  rw [if_neg (not_not.2 callable.direction)]
  refine step _ base₂ (by omega) fun x₃ base₃ handy₃ => ?_
  rw [if_neg (not_not.2 callable.rpcvers)]
  refine step _ base₃ (by omega) fun x₄ base₄ handy₄ => ?_
  refine step _ base₄ (by omega) fun x₅ base₅ handy₅ => ?_
  refine step _ base₅ (by omega) fun x₆ base₆ handy₆ => ?_
  have cred := @wrote_putOpaqueAuth grant x₆ _ base₆ _ callable.cred callable.cred_le (by omega)
  refine cred.andThen ?_
  have cred_handy := cred.handy
  rw [cred_size] at cred_handy
  push_cast at cred_handy
  exact wrote_putOpaqueAuth cred.base callable.verf callable.verf_le (by omega)

/-! ### The two together -/

theorem Wrote.contents {s : List (BitVec 8)} {r : Bool × Encoder} (wrote : Wrote x m s r) :
    contents r.2.chain = contents x.front ++ (m.data ++ s) ++ contents x.cont := by
  simp only [Encoder.chain, wrote.base, wrote.front, wrote.cont, Option.toList_some]
  simp [Xdr.contents, Mblk.store]

theorem wrote_inline (base : x.base = some m) (callable : Callable cmsg)
    (room : wireSize cmsg ≤ x.handy) :
    Wrote x m (headWire cmsg ++ authWire cmsg.cred (staleCred cmsg old) ++
      authWire cmsg.verf (staleVerf cmsg old)) (encodeCallmsg grant 1 old x cmsg) := by
  have enough : ¬ (x.handy < wireSize cmsg ∨ (1 : ℕ) ≠ 1) := by omega
  obtain ⟨ok, written⟩ := putInline_contents callable old
  simp only [encodeCallmsg, if_neg (Nat.not_lt.2 callable.cred_le),
    if_neg (Nat.not_lt.2 callable.verf_le), encodeInline, if_neg enough, base]
  rw [← written]
  exact ⟨ok, rfl, rfl, rfl, rfl⟩

theorem encodeCallmsg_shared {ref : ℕ} (shared : ref ≠ 1) (callable : Callable cmsg) :
    encodeCallmsg grant ref old x cmsg = putSlow grant x cmsg := by
  have refused : x.handy < wireSize cmsg ∨ ref ≠ 1 := Or.inr shared
  simp only [encodeCallmsg, if_neg (Nat.not_lt.2 callable.cred_le),
    if_neg (Nat.not_lt.2 callable.verf_le), encodeInline, if_pos refused]

theorem length_staleCred (fits : wireSize cmsg ≤ old.length) :
    (staleCred cmsg old).length = padding cmsg.cred.length.toNat := by
  simp only [wireSize, rndup_eq] at fits
  simp only [staleCred, length_take, length_drop]
  omega

/-- Both branches put a callable message on the chain, and they put the same bytes there exactly
when the buffer held zeros where the last units of the credential and the verifier are filled up. -/
theorem inline_encoding_agrees (grant : ℕ → Bool) {ref : ℕ} (shared : ref ≠ 1) {x : Encoder}
    {m : Mblk} (base : x.base = some m) {cmsg : RpcMsg} (callable : Callable cmsg)
    (room : wireSize cmsg ≤ x.handy) {old : List (BitVec 8)} (fits : wireSize cmsg ≤ old.length) :
    ((encodeCallmsg grant 1 old x cmsg).1 = true ∧ (encodeCallmsg grant ref old x cmsg).1 = true) ∧
    (contents (encodeCallmsg grant 1 old x cmsg).2.chain =
        contents (encodeCallmsg grant ref old x cmsg).2.chain ↔
      Clean cmsg old) := by
  have fast := @wrote_inline grant x m cmsg old base callable room
  have slow := @wrote_putSlow grant x m cmsg base callable room
  rw [encodeCallmsg_shared shared callable]
  refine ⟨⟨fast.ok, slow.ok⟩, ?_⟩
  rw [fast.contents, slow.contents]
  simp only [append_assoc, append_cancel_left_eq, authWire]
  rw [Clean]
  constructor
  · intro same
    have split := append_inj same (by rw [length_staleCred fits, length_zeros])
    refine ⟨split.1, ?_⟩
    have rest := split.2
    simp only [append_cancel_left_eq, append_cancel_right_eq] at rest
    exact rest
  · rintro ⟨cred, verf⟩
    rw [cred, verf]

def oneByteCall : RpcMsg :=
  { xid := 1, direction := call, rpcvers := rpcMsgVersion, prog := 100003, vers := 2, proc := 0
    cred := ⟨1, some [7], 1⟩, verf := ⟨0, none, 0⟩ }

/-- On a buffer of zeros the two branches agree on `oneByteCall`. -/
theorem inline_encoding_agrees_clean :
    contents (encodeCallmsg
      (fun _ => true) 1 (List.replicate 64 0) (Encoder.init 64 64) oneByteCall).2.chain =
      contents (encodeCallmsg (fun _ => true) 2 (List.replicate 64 0) (Encoder.init 64 64)
        oneByteCall).2.chain :=
  (inline_encoding_agrees (fun _ => true) (by decide) rfl
    ⟨rfl, rfl, by decide, by decide, by decide, by decide⟩ (by decide) (by decide)).2.2 (by decide)

/-- On a buffer that held other bytes the inline branch leaves three of them behind the
credential. -/
theorem inline_encoding_leaves_old_bytes :
    Callable oneByteCall ∧ wireSize oneByteCall ≤ (Encoder.init 64 64).handy ∧
      contents (encodeCallmsg (fun _ => true) 1 (List.replicate 64 255) (Encoder.init 64 64)
          oneByteCall).2.chain ≠
        contents (encodeCallmsg (fun _ => true) 2 (List.replicate 64 255) (Encoder.init 64 64)
          oneByteCall).2.chain := by
  refine ⟨⟨rfl, rfl, by decide, by decide, by decide, by decide⟩, by decide, ?_⟩
  decide +kernel

end Sol25.Rpc
