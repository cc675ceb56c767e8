import Sol25.Xdr.MblkStream

/-!
# Record streams

`rpc/xdr_rec.c` of the network services library: records are cut into fragments, each behind a
header that holds its length and tells the last one of a record.  Positions in a buffer are offsets
from its base, which lies at a multiple of 4; a word that is stored elsewhere traps.  The transport
takes every byte that is written; it hands the bytes over in chunks of its own choice.
-/

namespace Sol25.Xdr

def lastFrag : BitVec 32 := 0x80000000

/-- `RNDUP` of a `u_int` -/
def rndup (x : ℕ) : ℕ := (x + 3) % 2 ^ 32 / 4 * 4

/-- The size of a buffer: a small one is not taken, and it holds whole units. -/
def fixBufSize (s : ℕ) : ℕ := rndup (if s < 100 then 4000 else s)

/-- The sizes are those of an `int` when rounded up.  `xdrrec_create` checks no size: `writeit` and
`readit` get a negative length for larger ones, and the largest round up to 0. -/
def Admits (sendsize recvsize : ℕ) : Prop := sendsize ≤ 2 ^ 31 - 4 ∧ recvsize ≤ 2 ^ 31 - 4

/-- A length that is passed as an `int`; nothing is moved when it is negative. -/
def intLen (len : ℕ) : ℕ := (BitVec.ofNat 32 len).toInt.toNat

/-! ### Writing -/

/-- The out-going half of a stream. -/
structure Writer where
  /-- `out_boundry` -/
  boundry : ℕ
  /-- The bytes from `out_base` to `out_finger`. -/
  buf : List (BitVec 8)
  /-- `frag_header` -/
  header : ℕ
  fragSent : Bool
  /-- What was given to `writeit`. -/
  written : List (BitVec 8)
deriving Repr

namespace Writer

/-- The stream that `xdrrec_create` makes; the header of the first fragment is not yet filled in. -/
def create (sendsize : ℕ) : Writer := ⟨fixBufSize sendsize, [0, 0, 0, 0], 0, false, []⟩

def fragLen (w : Writer) : ℕ := w.buf.length - w.header - 4

/-- The buffer with the header of the current fragment filled in. -/
def patched (w : Writer) (mask : BitVec 32) : Option (List (BitVec 8)) :=
  if w.header % 4 ≠ 0 then none
  else some (w.buf.take w.header ++ bytes (BitVec.ofNat 32 w.fragLen ||| mask) ++
    w.buf.drop (w.header + 4))

def flushOut (w : Writer) (eor : Bool) : Option Writer :=
  (w.patched (if eor then lastFrag else 0)).map fun buf =>
    { w with written := w.written ++ buf, header := 0, buf := buf.take 4 }

/-- `xdrrec_putlong` -/
def putlong (w : Writer) (v : BitVec 32) : Option Writer :=
  (if w.boundry < w.buf.length + 4 then { w with fragSent := true }.flushOut false
    else some w).bind fun w =>
    if w.buf.length % 4 ≠ 0 then none else some { w with buf := w.buf ++ bytes v }

/-- The loop of `xdrrec_putbytes`. -/
def putbytesLoop : ℕ → Writer → List (BitVec 8) → Option Writer
  | 0, _, _ => none
  | fuel + 1, w, bs =>
    if bs = [] then some w
    else
      let current := min bs.length (w.boundry - w.buf.length)
      let w := { w with buf := w.buf ++ bs.take current }
      (if w.buf.length = w.boundry then { w with fragSent := true }.flushOut false
        else some w).bind fun w => putbytesLoop fuel w (bs.drop current)

/-- `xdrrec_putbytes` -/
def putbytes (w : Writer) (bs : List (BitVec 8)) : Option Writer :=
  putbytesLoop (bs.length + 2) w (bs.take (intLen bs.length))

/-- `xdrrec_endofrecord` -/
def endofrecord (w : Writer) (sendnow : Bool) : Option Writer :=
  if sendnow || w.fragSent || decide (w.boundry ≤ w.buf.length + 4) then
    { w with fragSent := false }.flushOut true
  else
    (w.patched lastFrag).map fun buf =>
      { w with buf := buf ++ [0, 0, 0, 0], header := w.buf.length }

def put (w : Writer) : Value → Option Writer
  | .long v => w.putlong v
  | .bytes bs => w.putbytes bs

/-- Put the values of a record. -/
def putAll : Writer → List Value → Option Writer
  | w, [] => some w
  | w, v :: vs => (w.put v).bind fun w => putAll w vs

/-- Write records, each ended with `sendnow` or without. -/
def writeAll : Writer → List (List Value × Bool) → Option Writer
  | w, [] => some w
  | w, (vs, sendnow) :: recs =>
    ((w.putAll vs).bind fun w => w.endofrecord sendnow).bind fun w => writeAll w recs

end Writer

/-! ### Reading -/

/-- The in-coming half of a stream, and the transport. -/
structure Reader where
  /-- The bytes that the transport has not yet handed over. -/
  input : List (BitVec 8)
  /-- How often `readit` was called. -/
  reads : ℕ
  /-- `in_size` -/
  size : ℕ
  /-- `in_finger` -/
  finger : ℕ
  /-- The bytes from `in_finger` to `in_boundry`. -/
  buf : List (BitVec 8)
  fbtbc : ℕ
  /-- `last_frag` -/
  last : Bool
deriving Repr

namespace Reader

/-- The stream that `xdrrec_create` makes. -/
def create (recvsize : ℕ) (input : List (BitVec 8)) : Reader :=
  ⟨input, 0, fixBufSize recvsize, fixBufSize recvsize, [], 0, true⟩

/-- The bytes that are still to be consumed. -/
def view (r : Reader) : List (BitVec 8) := r.buf ++ r.input

def alignInstream (r : Reader) : Reader := { r with finger := 0 }

variable (chunk : ℕ → ℕ)

/-- `fill_input_buf`; `readit` gives at least one byte when there is one. -/
def fillInputBuf (r : Reader) (doAlign : Bool) : Option Reader :=
  let i := if doAlign then 0 else (r.finger + r.buf.length) % 4
  let len := max 1 (min (chunk r.reads) (r.size - i))
  if r.input = [] then none
  else some { r with
    input := r.input.drop len, reads := r.reads + 1, finger := i, buf := r.input.take len }

/-- The loop of `get_input_bytes`, with the bytes it has copied. -/
def getInputBytes : ℕ → Reader → ℕ → Bool → List (BitVec 8) → Option (List (BitVec 8) × Reader)
  | 0, _, _, _, _ => none
  | fuel + 1, r, len, doAlign, addr =>
    if len = 0 then some (addr, r)
    else if r.buf = [] then
      match r.fillInputBuf chunk doAlign with
      | none => none
      | some r => getInputBytes fuel r len doAlign addr
    else
      let current := min len r.buf.length
      getInputBytes fuel { r with finger := r.finger + current, buf := r.buf.drop current }
        (len - current) false (addr ++ r.buf.take current)

def setInputFragment (r : Reader) : Option Reader :=
  match getInputBytes chunk 9 r 4 r.last [] with
  | none => none
  | some (bs, r) =>
    let header := word bs
    some { r with
      last := decide (header &&& lastFrag ≠ 0), fbtbc := (header &&& ~~~lastFrag).toNat }

/-- The loop of `skip_input_bytes`. -/
def skipInputBytes : ℕ → Reader → ℕ → Option Reader
  | 0, _, _ => none
  | fuel + 1, r, cnt =>
    if cnt = 0 then some r
    else if r.buf = [] then
      match r.fillInputBuf chunk false with
      | none => none
      | some r => skipInputBytes fuel r cnt
    else
      let current := min cnt r.buf.length
      skipInputBytes fuel { r with finger := r.finger + current, buf := r.buf.drop current }
        (cnt - current)

/-- The loop of `xdrrec_getbytes`: the bytes it has copied, unless it returns `FALSE`. -/
def getbytesLoop : ℕ → Reader → ℕ → List (BitVec 8) → Option (Option (List (BitVec 8)) × Reader)
  | 0, _, _, _ => none
  | fuel + 1, r, len, addr =>
    if len = 0 then some (some addr, r)
    else if r.fbtbc = 0 then
      if r.last then some (none, r)
      else match r.setInputFragment chunk with
        | none => none
        | some r => getbytesLoop fuel r len addr
    else
      let current := min len r.fbtbc
      match getInputBytes chunk (2 * current + 1) r current false [] with
      | none => none
      | some (bs, r) =>
        getbytesLoop fuel { r with fbtbc := r.fbtbc - current } (len - current) (addr ++ bs)

/-- `xdrrec_getbytes`; every round consumes a byte. -/
def getbytes (r : Reader) (len : ℕ) : Option (Option (List (BitVec 8)) × Reader) :=
  getbytesLoop chunk (r.view.length + 1) r (intLen len) []

/-- `xdrrec_getlong` -/
def getlong (r : Reader) : Option (Option (BitVec 32) × Reader) :=
  if 4 ≤ r.fbtbc ∧ 4 ≤ r.buf.length then
    let r := if r.finger % 4 ≠ 0 then r.alignInstream else r
    some (some (word (r.buf.take 4)), { r with
      fbtbc := r.fbtbc - 4, finger := r.finger + 4, buf := r.buf.drop 4 })
  else (r.getbytes chunk 4).map fun (bs, r) => (bs.map word, r)

/-- The loop of `xdrrec_skiprecord`. -/
def skiprecordLoop : ℕ → Reader → Option Reader
  | 0, _ => none
  | fuel + 1, r =>
    if 0 < r.fbtbc ∨ r.last = false then
      match skipInputBytes chunk (2 * r.fbtbc + 1) r r.fbtbc with
      | none => none
      | some r =>
        let r := { r with fbtbc := 0 }
        if r.last then skiprecordLoop fuel r
        else match r.setInputFragment chunk with
          | none => none
          | some r => skiprecordLoop fuel r
    else some { r with last := false }

/-- `xdrrec_skiprecord` -/
def skiprecord (r : Reader) : Option Reader := skiprecordLoop chunk (r.view.length + 2) r

/-- One call of the reader. -/
inductive Step
  | skiprecord
  | get (get : Get)
deriving Repr, DecidableEq

/-- A call and what it returns: a value, or none where it returns `FALSE`. -/
def step (r : Reader) : Step → Option (Option Value × Reader)
  | .skiprecord => (r.skiprecord chunk).map fun r => (none, r)
  | .get .getlong => (r.getlong chunk).map fun (v, r) => (v.map .long, r)
  | .get (.getbytes len) => (r.getbytes chunk len).map fun (bs, r) => (bs.map .bytes, r)

/-- A sequence of calls. -/
def run : Reader → List Step → Option (List (Option Value) × Reader)
  | r, [] => some ([], r)
  | r, s :: steps =>
    (r.step chunk s).bind fun (v, r) => (run r steps).map fun (vs, r) => (v :: vs, r)

end Reader

/-! ### Records -/

/-- A reader of records as it should be: what is left of the current record, and the records after
it. -/
structure Records where
  current : List (BitVec 8)
  later : List (List (BitVec 8))
deriving Repr, DecidableEq

namespace Records

/-- Read the first bytes of what is left; asking for more than that fails. -/
def take (s : Records) (len : ℕ) : Option (List (BitVec 8)) × Records :=
  if len ≤ s.current.length then
    (some (s.current.take len), { s with current := s.current.drop len })
  else (none, { s with current := [] })

/-- A call and what it returns.  After the last record there is nothing to go on to. -/
def step (s : Records) : Reader.Step → Option (Option Value × Records)
  | .skiprecord =>
    match s.later with
    | [] => none
    | next :: later => some (none, ⟨next, later⟩)
  | .get .getlong => let (bs, s) := s.take 4; some (bs.map fun bs => .long (word bs), s)
  | .get (.getbytes len) => let (bs, s) := s.take len; some (bs.map .bytes, s)

/-- A sequence of calls. -/
def run : Records → List Reader.Step → Option (List (Option Value) × Records)
  | s, [] => some ([], s)
  | s, c :: steps => (s.step c).bind fun (v, s) => (run s steps).map fun (vs, s) => (v :: vs, s)

end Records

end Sol25.Xdr
