import Sol25.Rpc.CallDecode
import Sol25.Rpc.CallEncode

/-!
# The round trip of a call message

What `xdr_callmsg` encodes into a new block it decodes to the same message, on each of its branches.
-/

namespace Sol25.Rpc

open Xdr List

variable {cont : List Mblk} {lim r : ℕ} {oa : OpaqueAuth} {cmsg : RpcMsg}
  {s fill fill' : List (BitVec 8)}

theorem getWord_wire {α : Type} (v : BitVec 32) (value : α) (set : BitVec 32 → α)
    (next : α → Decoder → Decoded α) :
    getWord value (Decoder.init (⟨lim, r, bytes v ++ s⟩ :: cont)) set next =
      next (set v) (Decoder.init (⟨lim, r + 4, s⟩ :: cont)) := by
  have read := @getWord_here cont ⟨lim, r, bytes v ++ s⟩ α (by simp) value set next
  rwa [show (bytes v ++ s).take 4 = bytes v from rfl, word_bytes] at read

theorem getOpaqueAuth_wire (valid : oa.Valid) (small : oa.length.toNat ≤ maxAuthBytes)
    (full : fill.length = padding oa.length.toNat) (into : OpaqueAuth) :
    ∃ got r', getOpaqueAuth into (Decoder.init (⟨lim, r, authWire oa fill ++ s⟩ :: cont)) =
        ⟨true, got, Decoder.init (⟨lim, r', s⟩ :: cont)⟩ ∧
      got.flavor = oa.flavor ∧ got.length = oa.length ∧ got.body = oa.body := by
  have body : oa.body.length = oa.length.toNat := valid
  have wire : (oa.body ++ fill).length = rndup oa.length.toNat := by
    rw [length_append, body, full, rndup_eq]
  rw [getOpaqueAuth_eq]
  simp only [authWire, append_assoc, getWord_wire, getBody, if_neg (Nat.not_lt.2 small)]
  rw [← append_assoc oa.body]
  by_cases empty : oa.length.toNat = 0
  · rw [empty] at wire
    rw [length_eq_zero_iff.1 wire, if_pos empty]
    refine ⟨_, _, rfl, rfl, rfl, ?_⟩
    rw [OpaqueAuth.body, OpaqueAuth.body, empty, take_zero, take_zero]
  · rw [if_neg empty, getOpaque_here empty (by rw [← wire]; simp), Decoder.advance, ← wire,
      drop_left]
    refine ⟨_, _, rfl, rfl, rfl, ?_⟩
    rw [OpaqueAuth.body, Option.getD_some, ← body, append_assoc, take_left, take_left]

/-- A call message that `xdr_callmsg` puts into a new block, in place or word by word, it reads back
from there, in place or word by word, whatever the buffer and the message read into held. -/
theorem call_round_trip (grant : ℕ → Bool) (ref size : ℕ) (ref' : ℕ → ℕ) {old : List (BitVec 8)}
    (into : RpcMsg) (callable : Callable cmsg) (room : wireSize cmsg ≤ lim)
    (fits : wireSize cmsg ≤ old.length) :
    let written := encodeCallmsg grant ref old (Encoder.init lim size) cmsg
    let read := decodeCallmsg ref' into (Decoder.init written.2.chain)
    written.1 = true ∧ read.ok = true ∧ SameCall read.value cmsg ∧
      contents read.stream.blocks = [] := by
  have room : (wireSize cmsg : ℤ) ≤ (Encoder.init lim size).handy := Int.ofNat_le.2 room
  obtain ⟨fill, fill', cred_fill, verf_fill, wrote⟩ : ∃ fill fill',
      fill.length = padding cmsg.cred.length.toNat ∧
      fill'.length = padding cmsg.verf.length.toNat ∧
      Wrote (Encoder.init lim size) ⟨lim, 0, []⟩ (headWire cmsg ++ authWire cmsg.cred fill ++
        authWire cmsg.verf fill') (encodeCallmsg grant ref old (Encoder.init lim size) cmsg) := by
    by_cases shared : ref = 1
    · subst shared
      refine ⟨_, _, length_staleCred fits, ?_, wrote_inline rfl callable room⟩
      simp only [wireSize, rndup_eq] at fits
      simp only [staleVerf, length_take, length_drop, rndup_eq]
      omega
    · rw [encodeCallmsg_shared shared callable]
      exact ⟨_, _, length_zeros _, length_zeros _, wrote_putSlow rfl callable room⟩
  obtain ⟨cred, r, cred_eq, cred_same⟩ := @getOpaqueAuth_wire [] lim (0 + 4 + 4 + 4 + 4 + 4 + 4)
    cmsg.cred (authWire cmsg.verf fill') fill callable.cred callable.cred_le cred_fill into.cred
  obtain ⟨verf, r', verf_eq, verf_same⟩ := @getOpaqueAuth_wire [] lim r cmsg.verf [] fill'
    callable.verf callable.verf_le verf_fill into.verf
  intro written read
  have slow : getSlow into (Decoder.init written.2.chain) =
      ⟨true, { cmsg with cred, verf }, Decoder.init [⟨lim, r', []⟩]⟩ := by
    rw [append_nil] at verf_eq
    simp only [written, Encoder.chain]
    rw [wrote.front, wrote.base, wrote.cont]
    simp only [Encoder.init, Mblk.store, Option.toList_some, nil_append, append_nil,
      getSlow, headWire, append_assoc, getWord_wire, callable.direction, callable.rpcvers,
      cred_eq, verf_eq]
    rfl
  have same : ∀ got : RpcMsg, SameCall got { cmsg with cred, verf } → SameCall got cmsg :=
    fun got alike => ⟨alike.1, alike.2, alike.3, alike.4, alike.5.trans cred_same.1,
      alike.6.trans cred_same.2.1, alike.7.trans cred_same.2.2, alike.8.trans verf_same.1,
      alike.9.trans verf_same.2.1, alike.10.trans verf_same.2.2⟩
  refine ⟨wrote.ok, ?_⟩
  simp only [read, decodeCallmsg]
  rcases inline : decodeInline ref' (Decoder.init written.2.chain) (8 * 4) with _ | ⟨buf, y⟩
  · dsimp only
    rw [slow]
    exact ⟨rfl, same _ ⟨rfl, rfl, rfl, rfl, rfl, rfl, rfl, rfl, rfl, rfl⟩, rfl⟩
  · obtain ⟨m, cont, blocks, enough, rfl, rfl⟩ := decodeInline_eq_some inline
    have agrees := @getInline_agrees ref' cont m enough into
    rw [← blocks, slow] at agrees
    obtain ⟨alike, stream⟩ := agrees.2 rfl
    exact ⟨agrees.1, same _ alike, congrArg (fun x : Decoder => contents x.blocks) stream⟩

/-- A call is put over other bytes and read from there, both in place. -/
theorem call_round_trip_one_byte : SameCall (decodeCallmsg (fun _ => 1) blankMsg (Decoder.init
    (encodeCallmsg (fun _ => true) 1 (List.replicate 64 255) (Encoder.init 64 0)
      oneByteCall).2.chain)).value oneByteCall :=
  (call_round_trip (fun _ => true) 1 0 (fun _ => 1) blankMsg
    ⟨rfl, rfl, by decide, by decide, by decide, by decide⟩ (by decide) (by decide)).2.2.1

end Sol25.Rpc
