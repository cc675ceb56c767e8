import Sol25.Xdr.MblkRoundTrip

/-!
# Call messages

`xdr_callmsg` of `rpc/rpc_calmsg.c` with the routines of `rpc/xdr.c` and `rpc/rpc_prot.c` it calls,
over the mblk streams of `rpc/xdr_mblk.c`.  A stream can offer a piece of its buffer in place
(`XDR_INLINE`); where it does not, each word goes through the stream's own operations.
-/

namespace Sol25.Rpc

open Xdr

def maxAuthBytes : ℕ := 400

def call : BitVec 32 := 0

def rpcMsgVersion : BitVec 32 := 2

def rndup (x : ℕ) : ℕ := (x + 4 - 1) / 4 * 4

/-- The bytes that fill up the last unit of `cnt` bytes. -/
def padding (cnt : ℕ) : ℕ := if cnt % 4 ≠ 0 then 4 - cnt % 4 else 0

theorem rndup_eq (cnt : ℕ) : rndup cnt = cnt + padding cnt := by
  simp only [rndup, padding]
  split_ifs <;> omega

/-- `struct opaque_auth` -/
structure OpaqueAuth where
  flavor : BitVec 32
  /-- The memory at `oa_base`, unless that is null. -/
  base : Option (List (BitVec 8))
  length : BitVec 32
deriving Repr, DecidableEq

namespace OpaqueAuth

/-- The `oa_length` bytes at `oa_base`. -/
def body (oa : OpaqueAuth) : List (BitVec 8) := (oa.base.getD []).take oa.length.toNat

/-- `oa_base` points to `oa_length` bytes. -/
def Valid (oa : OpaqueAuth) : Prop := oa.body.length = oa.length.toNat

instance (oa : OpaqueAuth) : Decidable oa.Valid := inferInstanceAs (Decidable (_ = _))

end OpaqueAuth

/-- `struct rpc_msg` with a call body. -/
structure RpcMsg where
  xid : BitVec 32
  direction : BitVec 32
  rpcvers : BitVec 32
  prog : BitVec 32
  vers : BitVec 32
  proc : BitVec 32
  cred : OpaqueAuth
  verf : OpaqueAuth
deriving Repr, DecidableEq

/-! ### Encoding -/

/-- `a && b` on an encoding stream. -/
def andThen (a : Bool × Encoder) (b : Encoder → Bool × Encoder) : Bool × Encoder :=
  if a.1 then b a.2 else a

/-- `xdrmblk_inline` in `XDR_ENCODE` mode: the current block, when it has the room and `db_ref` is
1. -/
def encodeInline (ref : ℕ) (x : Encoder) (len : ℕ) : Option Mblk :=
  if x.handy < len ∨ ref ≠ 1 then none else x.base

/-- The piece of the buffer that `XDR_INLINE` gave. -/
structure Room where
  /-- The bytes in front of `buf`. -/
  front : List (BitVec 8)
  /-- The bytes from `buf` on. -/
  buf : List (BitVec 8)
deriving Repr, DecidableEq

namespace Room

/-- `IXDR_PUT_LONG` -/
def putLong (room : Room) (v : BitVec 32) : Room := ⟨room.front ++ bytes v, room.buf.drop 4⟩

/-- `bcopy` to `buf`. -/
def bcopy (room : Room) (bs : List (BitVec 8)) : Room :=
  { room with buf := bs ++ room.buf.drop bs.length }

/-- `buf += len` -/
def advance (room : Room) (len : ℕ) : Room := ⟨room.front ++ room.buf.take len, room.buf.drop len⟩

def contents (room : Room) : List (BitVec 8) := room.front ++ room.buf

end Room

def wireSize (cmsg : RpcMsg) : ℕ :=
  8 * 4 + rndup cmsg.cred.length.toNat + 2 * 4 + rndup cmsg.verf.length.toNat

/-- The inline branch of `xdr_callmsg` in `XDR_ENCODE` mode. -/
def putInline (cmsg : RpcMsg) (room : Room) : Bool × Room :=
  let room := (room.putLong cmsg.xid).putLong cmsg.direction
  if cmsg.direction ≠ call then (false, room)
  else
    let room := room.putLong cmsg.rpcvers
    if cmsg.rpcvers ≠ rpcMsgVersion then (false, room)
    else
      let room := ((room.putLong cmsg.prog).putLong cmsg.vers).putLong cmsg.proc
      let oa := cmsg.cred
      let room := (room.putLong oa.flavor).putLong oa.length
      let room :=
        if oa.length ≠ 0 then (room.bcopy oa.body).advance (rndup oa.length.toNat) else room
      let oa := cmsg.verf
      let room := (room.putLong oa.flavor).putLong oa.length
      let room := if oa.length ≠ 0 then room.bcopy oa.body else room
      (true, room)

variable (grant : ℕ → Bool)

/-- `xdr_opaque` in `XDR_ENCODE` mode. -/
def putOpaque (x : Encoder) (cp : List (BitVec 8)) : Bool × Encoder :=
  if cp.length = 0 then (true, x)
  else andThen (x.putbytes grant cp) fun x =>
    if padding cp.length = 0 then (true, x)
    else x.putbytes grant (List.replicate (padding cp.length) 0)

/-- `xdr_bytes` in `XDR_ENCODE` mode, of the body of a credential or verifier. -/
def putBytes (x : Encoder) (oa : OpaqueAuth) (maxsize : ℕ) : Bool × Encoder :=
  andThen (x.putlong grant oa.length) fun x =>
    if maxsize < oa.length.toNat then (false, x) else putOpaque grant x oa.body

/-- `xdr_opaque_auth` in `XDR_ENCODE` mode. -/
def putOpaqueAuth (x : Encoder) (oa : OpaqueAuth) : Bool × Encoder :=
  andThen (x.putlong grant oa.flavor) fun x => putBytes grant x oa maxAuthBytes

/-- The last part of `xdr_callmsg` in `XDR_ENCODE` mode. -/
def putSlow (x : Encoder) (cmsg : RpcMsg) : Bool × Encoder :=
  andThen (x.putlong grant cmsg.xid) fun x =>
  andThen (x.putlong grant cmsg.direction) fun x =>
  if cmsg.direction ≠ call then (false, x) else
  andThen (x.putlong grant cmsg.rpcvers) fun x =>
  if cmsg.rpcvers ≠ rpcMsgVersion then (false, x) else
  andThen (x.putlong grant cmsg.prog) fun x =>
  andThen (x.putlong grant cmsg.vers) fun x =>
  andThen (x.putlong grant cmsg.proc) fun x =>
  andThen (putOpaqueAuth grant x cmsg.cred) fun x =>
  putOpaqueAuth grant x cmsg.verf

/-- `xdr_callmsg` in `XDR_ENCODE` mode.  `old` is what the current block's buffer holds from
`b_wptr` on, and `ref` the `db_ref` of that block. -/
def encodeCallmsg (ref : ℕ) (old : List (BitVec 8)) (x : Encoder)
    (cmsg : RpcMsg) : Bool × Encoder :=
  if maxAuthBytes < cmsg.cred.length.toNat then (false, x)
  else if maxAuthBytes < cmsg.verf.length.toNat then (false, x)
  else match encodeInline ref x (wireSize cmsg) with
    | some m =>
      let (ok, room) := putInline cmsg ⟨[], old.take (wireSize cmsg)⟩
      (ok, x.write m room.contents)
    | none => putSlow grant x cmsg

/-! ### Decoding -/

/-- `xdrmblk_inline` in `XDR_DECODE` mode.  `ref` tells the `db_ref` of each block by the blocks
behind it. -/
def decodeInline (ref : ℕ → ℕ) (x : Decoder) (len : ℕ) : Option (List (BitVec 8) × Decoder) :=
  match x.blocks with
  | [] => none
  | m :: cont =>
    if x.handy < len ∨ ref cont.length ≠ 1 then none
    else some (m.data.take len, ⟨Decoder.advance m len :: cont, x.handy - len⟩)

def ixdrGetLong (buf : List (BitVec 8)) : BitVec 32 × List (BitVec 8) :=
  (word (buf.take 4), buf.drop 4)

/-- What a decoding routine leaves: what it returns, the object and the stream. -/
structure Decoded (α : Type) where
  ok : Bool
  value : α
  stream : Decoder
deriving Repr, DecidableEq

/-- `xdr_u_long`, `xdr_u_int` and `xdr_enum` in `XDR_DECODE` mode, on a field of an object. -/
def getWord {α : Type} (value : α) (x : Decoder) (set : BitVec 32 → α)
    (next : α → Decoder → Decoded α) : Decoded α :=
  match x.getlong with
  | (none, x) => ⟨false, value, x⟩
  | (some v, x) => next (set v) x

/-- `xdr_opaque` in `XDR_DECODE` mode, into the memory at `oa_base`, which is allocated when that is
null. -/
def getOpaque (oa : OpaqueAuth) (cnt : ℕ) (x : Decoder) : Decoded OpaqueAuth :=
  if cnt = 0 then ⟨true, oa, x⟩
  else match x.getbytes cnt with
    | (none, x) => ⟨false, oa, x⟩
    | (some bs, x) =>
      let oa := { oa with base := some (bs ++ (oa.base.getD []).drop cnt) }
      if padding cnt = 0 then ⟨true, oa, x⟩
      else
        let (crud, x) := x.getbytes (padding cnt)
        ⟨crud.isSome, oa, x⟩

/-- `xdr_bytes` in `XDR_DECODE` mode, of the body of a credential or verifier. -/
def getBytes (oa : OpaqueAuth) (maxsize : ℕ) (x : Decoder) : Decoded OpaqueAuth :=
  getWord oa x (fun v => { oa with length := v }) fun oa x =>
    if maxsize < oa.length.toNat then ⟨false, oa, x⟩
    else if oa.length.toNat = 0 then ⟨true, oa, x⟩
    else getOpaque oa oa.length.toNat x

/-- `xdr_opaque_auth` in `XDR_DECODE` mode. -/
def getOpaqueAuth (oa : OpaqueAuth) (x : Decoder) : Decoded OpaqueAuth :=
  getWord oa x (fun v => { oa with flavor := v }) fun oa x => getBytes oa maxAuthBytes x

/-- The last part of `xdr_callmsg` in `XDR_DECODE` mode. -/
def getSlow (cmsg : RpcMsg) (x : Decoder) : Decoded RpcMsg :=
  getWord cmsg x (fun v => { cmsg with xid := v }) fun cmsg x =>
  getWord cmsg x (fun v => { cmsg with direction := v }) fun cmsg x =>
  if cmsg.direction ≠ call then ⟨false, cmsg, x⟩ else
  getWord cmsg x (fun v => { cmsg with rpcvers := v }) fun cmsg x =>
  if cmsg.rpcvers ≠ rpcMsgVersion then ⟨false, cmsg, x⟩ else
  getWord cmsg x (fun v => { cmsg with prog := v }) fun cmsg x =>
  getWord cmsg x (fun v => { cmsg with vers := v }) fun cmsg x =>
  getWord cmsg x (fun v => { cmsg with proc := v }) fun cmsg x =>
  let cred := getOpaqueAuth cmsg.cred x
  let cmsg := { cmsg with cred := cred.value }
  if !cred.ok then ⟨false, cmsg, cred.stream⟩ else
  let verf := getOpaqueAuth cmsg.verf cred.stream
  ⟨verf.ok, { cmsg with verf := verf.value }, verf.stream⟩

/-- The body of a credential or verifier on the inline branch: in place when it lies in one
block. -/
def getInlineBody (ref : ℕ → ℕ) (oa : OpaqueAuth) (x : Decoder) : Decoded OpaqueAuth :=
  if oa.length = 0 then ⟨true, oa, x⟩
  else if maxAuthBytes < oa.length.toNat then ⟨false, oa, x⟩
  else match decodeInline ref x (rndup oa.length.toNat) with
    | none => getOpaque oa oa.length.toNat x
    | some (buf, x) => ⟨true, { oa with base := some buf }, x⟩

/-- The verifier on the inline branch of `xdr_callmsg`. -/
def getInlineVerf (ref : ℕ → ℕ) (oa : OpaqueAuth) (x : Decoder) : Decoded OpaqueAuth :=
  match decodeInline ref x (2 * 4) with
  | none =>
    getWord oa x (fun v => { oa with flavor := v }) fun oa x =>
    getWord oa x (fun v => { oa with length := v }) fun oa x =>
    getInlineBody ref oa x
  | some (buf, x) =>
    let (flavor, buf) := ixdrGetLong buf
    let (length, _) := ixdrGetLong buf
    getInlineBody ref { oa with flavor, length } x

/-- The inline branch of `xdr_callmsg` in `XDR_DECODE` mode, behind the first `XDR_INLINE`. -/
def getInline (ref : ℕ → ℕ) (cmsg : RpcMsg) (buf : List (BitVec 8))
    (x : Decoder) : Decoded RpcMsg :=
  let (xid, buf) := ixdrGetLong buf
  let (direction, buf) := ixdrGetLong buf
  let cmsg := { cmsg with xid, direction }
  if cmsg.direction ≠ call then ⟨false, cmsg, x⟩
  else
    let (rpcvers, buf) := ixdrGetLong buf
    let cmsg := { cmsg with rpcvers }
    if cmsg.rpcvers ≠ rpcMsgVersion then ⟨false, cmsg, x⟩
    else
      let (prog, buf) := ixdrGetLong buf
      let (vers, buf) := ixdrGetLong buf
      let (proc, buf) := ixdrGetLong buf
      let (flavor, buf) := ixdrGetLong buf
      let (length, _) := ixdrGetLong buf
      let cmsg := { cmsg with prog, vers, proc }
      let cred := getInlineBody ref { cmsg.cred with flavor, length } x
      let cmsg := { cmsg with cred := cred.value }
      if !cred.ok then ⟨false, cmsg, cred.stream⟩
      else
        let verf := getInlineVerf ref cmsg.verf cred.stream
        ⟨verf.ok, { cmsg with verf := verf.value }, verf.stream⟩

/-- `xdr_callmsg` in `XDR_DECODE` mode. -/
def decodeCallmsg (ref : ℕ → ℕ) (cmsg : RpcMsg) (x : Decoder) : Decoded RpcMsg :=
  match decodeInline ref x (8 * 4) with
  | some (buf, x) => getInline ref cmsg buf x
  | none => getSlow cmsg x

end Sol25.Rpc
