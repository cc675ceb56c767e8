import Sol25.Xdr.Word

/-!
# XDR streams on mblks

`rpc/xdr_mblk.c`: encoding into a chain of message blocks and decoding from one, and
`rpc/xdr_mem.c`, the same on a flat buffer.  `allocb` is that of `io/stream.c`; that it may find no
memory is told by an oracle.
-/

namespace Sol25.Xdr

/-- A message block.  Addresses are offsets from `db_base`. -/
structure Mblk where
  /-- `db_lim - db_base` -/
  lim : ℕ
  /-- `b_rptr - db_base` -/
  rptr : ℕ
  /-- The bytes from `b_rptr` to `b_wptr`. -/
  data : List (BitVec 8)
deriving Repr, DecidableEq

namespace Mblk

/-- `b_wptr - db_base` -/
def wptr (m : Mblk) : ℕ := m.rptr + m.data.length

/-- Write bytes at `b_wptr`. -/
def store (m : Mblk) (bs : List (BitVec 8)) : Mblk := { m with data := m.data ++ bs }

end Mblk

def sizeofMh : ℕ := 72

def mhMaxCache : ℕ := 9536

def mhSizes : List ℕ := [112, 160, 224, 384, 672, 1152, 1632, 2048, 2720, 4096, mhMaxCache]

/-- The size of the buffer that `allocb` gives for a size. -/
def allocb (size : ℕ) : ℕ :=
  if mhMaxCache - sizeofMh < size then size
  else ((mhSizes.find? fun total => size + sizeofMh ≤ total).getD mhMaxCache) - sizeofMh

/-- `XDRMBLK_SETHANDY`: a block that is not much larger than asked for is cut to size. -/
def sethandy (mpsize blen : ℕ) : Mblk :=
  if mpsize / 2 ≤ blen then ⟨mpsize, mpsize - blen, []⟩ else ⟨mpsize, 0, []⟩

/-! ### Encoding -/

/-- An encoding stream and the chain it has built. -/
structure Encoder where
  /-- The blocks in front of `x_base`. -/
  front : List Mblk
  /-- `x_base` -/
  base : Option Mblk
  /-- The blocks behind `x_base`, along `b_cont`. -/
  cont : List Mblk
  /-- `x_handy` -/
  handy : ℤ
  /-- `x_private`, the size of continuation blocks -/
  size : ℕ
  /-- How many blocks were asked for. -/
  asked : ℕ
  /-- A write went past `db_lim`. -/
  past : Bool
  /-- A word was stored at an address that is no multiple of 4: the processor traps. -/
  trap : Bool
deriving Repr, DecidableEq

namespace Encoder

/-- `xdrmblk_init` on an empty block with `b_rptr` at the base of its buffer. -/
def init (lim size : ℕ) : Encoder := ⟨[], some ⟨lim, 0, []⟩, [], lim, size, 0, false, false⟩

def chain (x : Encoder) : List Mblk := x.front ++ x.base.toList ++ x.cont

variable (grant : ℕ → Bool)

/-- `xdrmblk_alloc`: there is no block of size 0, and the wait for memory may be interrupted. -/
def alloc (x : Encoder) : Option Mblk :=
  if x.size = 0 then none
  else if grant x.asked then some (sethandy (allocb x.size) x.size)
  else none

/-- Go on to the next block: the one that is linked or a new one. -/
def advance (x : Encoder) (m : Mblk) : Encoder :=
  match x.cont with
  | m' :: cont =>
    { x with front := x.front ++ [m], base := some m', cont, handy := m'.lim - m'.rptr }
  | [] =>
    match x.alloc grant with
    | none => { x with front := x.front ++ [m], base := none, handy := 0, asked := x.asked + 1 }
    | some m' =>
      { x with front := x.front ++ [m], base := some m', handy := m'.lim - m'.rptr
               asked := x.asked + 1 }

def write (x : Encoder) (m : Mblk) (bs : List (BitVec 8)) : Encoder :=
  { x with
    base := some (m.store bs)
    handy := x.handy - bs.length
    past := x.past || decide (bs ≠ [] ∧ m.lim < m.wptr + bs.length) }

/-- Store a word at `b_wptr`. -/
def writeLong (x : Encoder) (m : Mblk) (v : BitVec 32) : Encoder :=
  { x.write m (bytes v) with trap := x.trap || decide (m.wptr % 4 ≠ 0) }

/-- `xdrmblk_putlong` -/
def putlong (x : Encoder) (v : BitVec 32) : Bool × Encoder :=
  match x.base with
  | none => (false, x)
  | some m =>
    if x.handy - 4 < 0 then
      let x := x.advance grant m
      match x.base with
      | none => (false, x)
      | some m => (true, x.writeLong m v)
    else (true, x.writeLong m v)

/-- The loop of `xdrmblk_putbytes`. -/
def putbytesLoop : ℕ → Encoder → List (BitVec 8) → Bool × Encoder
  | 0, x, _ => (false, x)
  | fuel + 1, x, bs =>
    match x.base with
    | none => (false, x)
    | some m =>
      if x.handy - bs.length < 0 then
        let here := x.handy.toNat
        let x' := x.write m (bs.take here)
        let x'' := x'.advance grant (m.store (bs.take here))
        putbytesLoop fuel x'' (bs.drop here)
      else (true, x.write m bs)

/-- `xdrmblk_putbytes` -/
def putbytes (x : Encoder) (bs : List (BitVec 8)) : Bool × Encoder :=
  putbytesLoop grant (2 * bs.length + x.cont.length + 2) x bs

/-- `xdrmblk_putmblk` of the blocks that start with one, which hold `len` bytes. -/
def putmblk (x : Encoder) (m : Mblk) (cont : List Mblk) (len : ℕ) : Bool × Encoder :=
  if len % 4 ≠ 0 then (false, x)
  else match x.putlong grant (BitVec.ofNat 32 len) with
    | (false, x) => (false, x)
    | (true, x) =>
      (true, { x with front := x.front ++ x.base.toList, base := some m, cont, handy := 0 })

end Encoder

/-! ### Decoding -/

structure Decoder where
  /-- The blocks from `x_base` on. -/
  blocks : List Mblk
  /-- `x_handy` -/
  handy : ℤ
deriving Repr, DecidableEq

namespace Decoder

/-- Read past the first bytes of a block. -/
def advance (m : Mblk) (len : ℕ) : Mblk := { m with rptr := m.rptr + len, data := m.data.drop len }

/-- `xdrmblk_init` on a chain. -/
def init : List Mblk → Decoder
  | [] => ⟨[], 0⟩
  | m :: cont => ⟨m :: cont, m.data.length⟩

/-- The loop of `xdrmblk_getlong`. -/
def getlongLoop : List Mblk → ℤ → Option (BitVec 32) × Decoder
  | [], handy => (none, ⟨[], handy⟩)
  | m :: cont, handy =>
    if handy - 4 < 0 then
      if handy - 4 ≠ -4 then (none, ⟨m :: cont, handy - 4⟩)
      else match cont with
        | [] => (none, ⟨[], 0⟩)
        | m' :: cont' => getlongLoop (m' :: cont') m'.data.length
    else (some (word (m.data.take 4)), ⟨advance m 4 :: cont, handy - 4⟩)

/-- `xdrmblk_getlong` -/
def getlong (x : Decoder) : Option (BitVec 32) × Decoder := getlongLoop x.blocks x.handy

/-- The loop of `xdrmblk_getbytes`, with the bytes it has copied. -/
def getbytesLoop : List Mblk → ℤ → ℕ → List (BitVec 8) → Option (List (BitVec 8)) × Decoder
  | [], handy, _, _ => (none, ⟨[], handy⟩)
  | m :: cont, handy, len, addr =>
    if handy - len < 0 then
      match cont with
      | [] => (none, ⟨[], 0⟩)
      | m' :: cont' =>
        getbytesLoop (m' :: cont') m'.data.length (len - handy.toNat)
          (addr ++ m.data.take handy.toNat)
    else (some (addr ++ m.data.take len), ⟨advance m len :: cont, handy - len⟩)

/-- `xdrmblk_getbytes` -/
def getbytes (x : Decoder) (len : ℕ) : Option (List (BitVec 8)) × Decoder :=
  getbytesLoop x.blocks x.handy len []

end Decoder

/-! ### The flat stream -/

/-- A memory stream in `XDR_ENCODE` mode: the bytes from `x_base` to `x_private`, and `x_handy`. -/
structure Mem where
  out : List (BitVec 8)
  handy : ℤ
deriving Repr, DecidableEq

namespace Mem

/-- `xdrmem_create` -/
def create (size : ℕ) : Mem := ⟨[], size⟩

/-- `xdrmem_putlong` -/
def putlong (x : Mem) (v : BitVec 32) : Bool × Mem :=
  if x.handy - 4 < 0 then (false, { x with handy := x.handy - 4 })
  else (true, ⟨x.out ++ bytes v, x.handy - 4⟩)

/-- `xdrmem_putbytes` -/
def putbytes (x : Mem) (bs : List (BitVec 8)) : Bool × Mem :=
  if x.handy - bs.length < 0 then (false, { x with handy := x.handy - bs.length })
  else (true, ⟨x.out ++ bs, x.handy - bs.length⟩)

end Mem

/-! ### Operations -/

/-- An operation on an encoding stream. -/
inductive Op
  /-- `XDR_PUTLONG` -/
  | putlong (v : BitVec 32)
  /-- `XDR_PUTBYTES` -/
  | putbytes (bs : List (BitVec 8))
  /-- `XDR_PUTMBLK` of a block and those behind it, which hold as many bytes as announced. -/
  | putmblk (m : Mblk) (cont : List Mblk)
deriving Repr, DecidableEq

/-- The bytes that some blocks hold. -/
def contents (blocks : List Mblk) : List (BitVec 8) := blocks.flatMap Mblk.data

namespace Op

/-- The operand is one block. -/
def Single : Op → Prop
  | putmblk _ cont => cont = []
  | _ => True

/-- The operation is accepted: the data of an mblk needs no padding. -/
def accepted : Op → Bool
  | putmblk m cont => (contents (m :: cont)).length % 4 = 0
  | _ => true

/-- The operation on an mblk stream. -/
def encode (grant : ℕ → Bool) (x : Encoder) : Op → Bool × Encoder
  | putlong v => x.putlong grant v
  | putbytes bs => x.putbytes grant bs
  | putmblk m cont => x.putmblk grant m cont (contents (m :: cont)).length

/-- The operation on a flat stream: the data of an mblk is copied behind its length. -/
def flat (x : Mem) : Op → Bool × Mem
  | putlong v => x.putlong v
  | putbytes bs => x.putbytes bs
  | putmblk m cont =>
    let data := contents (m :: cont)
    if data.length % 4 ≠ 0 then (false, x)
    else match x.putlong (BitVec.ofNat 32 data.length) with
      | (false, x) => (false, x)
      | (true, x) => x.putbytes data

end Op

/-- A sequence of operations on an mblk stream, with what they return. -/
def encodeAll (grant : ℕ → Bool) : Encoder → List Op → List Bool × Encoder
  | x, [] => ([], x)
  | x, op :: ops =>
    let (ok, x) := op.encode grant x
    let (oks, x) := encodeAll grant x ops
    (ok :: oks, x)

/-- A sequence of operations on a flat stream, with what they return. -/
def flatAll : Mem → List Op → List Bool × Mem
  | x, [] => ([], x)
  | x, op :: ops =>
    let (ok, x) := op.flat x
    let (oks, x) := flatAll x ops
    (ok :: oks, x)

/-- What a decoding operation returns. -/
inductive Value
  | long (v : BitVec 32)
  | bytes (bs : List (BitVec 8))
deriving Repr, DecidableEq

/-- A decoding operation: `XDR_GETLONG`, or `XDR_GETBYTES` of a number of bytes. -/
inductive Get
  | getlong
  | getbytes (len : ℕ)
deriving Repr, DecidableEq

/-- The operation that reads a value. -/
def Value.get : Value → Get
  | long _ => .getlong
  | bytes bs => .getbytes bs.length

/-- The values that an operation puts on the stream. -/
def Op.values : Op → List Value
  | putlong v => [.long v]
  | putbytes bs => [.bytes bs]
  | putmblk m cont =>
    [.long (BitVec.ofNat 32 (contents (m :: cont)).length), .bytes (contents (m :: cont))]

/-- Every word comes behind a multiple of 4 bytes; so many bytes are in front of the values. -/
def WordAligned : ℕ → List Value → Prop
  | _, [] => True
  | n, .long _ :: vs => n % 4 = 0 ∧ WordAligned (n + 4) vs
  | n, .bytes bs :: vs => WordAligned (n + bs.length) vs

/-- A decoding operation; there is no result when it fails, or when a word is not at a multiple of 4
and the processor traps. -/
def Get.decode (x : Decoder) : Get → Option (Value × Decoder)
  | getlong =>
    match x.getlong with
    | (some v, ⟨m :: cont, handy⟩) =>
      -- `b_rptr` has gone on by 4.
      if m.rptr % 4 ≠ 0 then none else some (.long v, ⟨m :: cont, handy⟩)
    | _ => none
  | getbytes len => let (bs, x) := x.getbytes len; bs.map fun bs => (.bytes bs, x)

/-- A sequence of decoding operations. -/
def decodeAll : Decoder → List Get → Option (List Value × Decoder)
  | x, [] => some ([], x)
  | x, get :: gets =>
    (get.decode x).bind fun (v, x) => (decodeAll x gets).map fun (vs, x) => (v :: vs, x)

end Sol25.Xdr
