import Sol25.Xdr.RecStream

/-!
# Positions in a record stream

`xdrrec_getpos` and `xdrrec_setpos` of a stream that is decoded.  The input buffer is memory here:
going back means that bytes which were consumed are read again where they still lie.
-/

namespace Sol25.Xdr

open Option Nat BitVec

/-- What a call of `readit` gives, by its number and the length that is asked for: no bytes at all
stand for -1. -/
abbrev Transport := ℕ → ℕ → Option (List (BitVec 8))

/-- The in-coming half of a `RECSTREAM`.  Places in the buffer are offsets from `in_base`. -/
structure RecStrm where
  /-- How often `readit` was called. -/
  reads : ℕ
  /-- The bytes that were read from the handle so far. -/
  total : ℕ
  /-- The buffer at `in_base`, `in_size` bytes of it. -/
  mem : List (BitVec 8)
  /-- `in_finger` -/
  finger : ℕ
  /-- `in_boundry` -/
  boundry : ℕ
  fbtbc : ℕ
  /-- `last_frag` -/
  last : Bool
deriving DecidableEq

/-- What a call returns, and the bytes that it has copied or points at. -/
structure Answer where
  ret : ℤ
  data : List (BitVec 8)
deriving DecidableEq

namespace RecStrm

/-- The stream that `xdrrec_create` makes; what is in the buffer is not known. -/
def create (recvsize : ℕ) (junk : ℕ → BitVec 8) : RecStrm where
  reads := 0
  total := 0
  mem := (List.range (fixBufSize recvsize)).map junk
  finger := fixBufSize recvsize
  boundry := fixBufSize recvsize
  fbtbc := 0
  last := true

/-- The bytes of the buffer from an offset on. -/
def slice (r : RecStrm) (i cnt : ℕ) : List (BitVec 8) := (r.mem.drop i).take cnt

def store (r : RecStrm) (i : ℕ) (bs : List (BitVec 8)) : RecStrm :=
  { r with mem := r.mem.take i ++ (bs ++ r.mem.drop (i + bs.length)) }

def alignInstream (r : RecStrm) : RecStrm :=
  let current := r.boundry - r.finger
  { r.store 0 (r.slice r.finger current) with finger := 0, boundry := current }

variable (readit : Transport)

def fillInputBuf (r : RecStrm) (doAlign : Bool) : Bool × RecStrm :=
  let i := if doAlign then 0 else r.boundry % 4
  let len := r.mem.length - i
  match readit r.reads len with
  | none => (false, { r with reads := r.reads + 1 })
  | some bs =>
    let bs := bs.take len
    (true, { r.store i bs with
      reads := r.reads + 1, total := r.total + bs.length, finger := i, boundry := i + bs.length })

/-- The loop of `get_input_bytes`, with the bytes it has copied.  Like those after it, it has no
result if it does not come to an end in so many rounds. -/
def getInputBytes : ℕ → RecStrm → ℕ → Bool → List (BitVec 8) →
    Option (Bool × List (BitVec 8) × RecStrm)
  | 0, _, _, _, _ => none
  | fuel + 1, r, len, doAlign, addr =>
    if len = 0 then some (true, addr, r)
    else
      let current := r.boundry - r.finger
      if current = 0 then
        match r.fillInputBuf readit doAlign with
        | (false, r) => some (false, addr, r)
        | (true, r) => getInputBytes fuel r len doAlign addr
      else
        let current := min len current
        getInputBytes fuel { r with finger := r.finger + current } (len - current) false
          (addr ++ r.slice r.finger current)

/-- The loop of `skip_input_bytes`. -/
def skipInputBytes : ℕ → RecStrm → ℕ → Option (Bool × RecStrm)
  | 0, _, _ => none
  | fuel + 1, r, cnt =>
    if cnt = 0 then some (true, r)
    else
      let current := r.boundry - r.finger
      if current = 0 then
        match r.fillInputBuf readit false with
        | (false, r) => some (false, r)
        | (true, r) => skipInputBytes fuel r cnt
      else
        let current := min cnt current
        skipInputBytes fuel { r with finger := r.finger + current } (cnt - current)

def setInputFragment (fuel : ℕ) (r : RecStrm) : Option (Bool × RecStrm) :=
  match getInputBytes readit fuel r 4 r.last [] with
  | none => none
  | some (false, _, r) => some (false, r)
  | some (true, bs, r) =>
    let header := word bs
    some (true, { r with
      last := decide (header &&& lastFrag ≠ 0), fbtbc := (header &&& ~~~lastFrag).toNat })

/-- How the loop of `xdrrec_getbytes` and `xdrrec_readbytes` ends. -/
inductive Ending
  | complete
  | endOfRecord
  | failed
deriving DecidableEq

/-- The loop of `xdrrec_getbytes` and `xdrrec_readbytes`, with the bytes it has copied. -/
def getbytesLoop : ℕ → RecStrm → ℕ → List (BitVec 8) → Option (Ending × List (BitVec 8) × RecStrm)
  | 0, _, _, _ => none
  | fuel + 1, r, len, addr =>
    if len = 0 then some (.complete, addr, r)
    else if r.fbtbc = 0 then
      if r.last then some (.endOfRecord, addr, r)
      else
        match r.setInputFragment readit fuel with
        | none => none
        | some (false, r) => some (.failed, addr, r)
        | some (true, r) => getbytesLoop fuel r len addr
    else
      let current := min len r.fbtbc
      match getInputBytes readit fuel r current false [] with
      | none => none
      | some (false, bs, r) => some (.failed, addr ++ bs, r)
      | some (true, bs, r) =>
        getbytesLoop fuel { r with fbtbc := r.fbtbc - current } (len - current) (addr ++ bs)

/-- `xdrrec_getbytes` -/
def getbytes (fuel : ℕ) (r : RecStrm) (len : ℕ) : Option (Answer × RecStrm) :=
  (getbytesLoop readit fuel r len []).map fun (ending, addr, r) =>
    (⟨if ending = .complete then 1 else 0, addr⟩, r)

/-- `xdrrec_readbytes` -/
def readbytes (fuel : ℕ) (r : RecStrm) (l : ℕ) : Option (Answer × RecStrm) :=
  (getbytesLoop readit fuel r l []).map fun (ending, addr, r) =>
    (⟨if ending = .failed then -1 else addr.length, addr⟩, r)

/-- `xdrrec_getlong` -/
def getlong (fuel : ℕ) (r : RecStrm) : Option (Answer × RecStrm) :=
  if 4 ≤ r.fbtbc ∧ 4 ≤ r.boundry - r.finger then
    let r := if r.finger % 4 ≠ 0 then r.alignInstream else r
    some (⟨1, r.slice r.finger 4⟩, { r with fbtbc := r.fbtbc - 4, finger := r.finger + 4 })
  else r.getbytes readit fuel 4

/-- `xdrrec_inline`, with the bytes that the caller finds at the place it is given. -/
def inlineBytes (r : RecStrm) (len : ℕ) : Answer × RecStrm :=
  if len ≤ r.fbtbc ∧ r.finger + len ≤ r.boundry then
    let r := if r.finger % 4 ≠ 0 then r.alignInstream else r
    (⟨1, r.slice r.finger len⟩, { r with fbtbc := r.fbtbc - len, finger := r.finger + len })
  else (⟨0, []⟩, r)

/-- The loop of `xdrrec_skiprecord` and `xdrrec_eof`: whether it went through. -/
def skipLoop : ℕ → RecStrm → Option (Bool × RecStrm)
  | 0, _ => none
  | fuel + 1, r =>
    if 0 < r.fbtbc ∨ r.last = false then
      match skipInputBytes readit fuel r r.fbtbc with
      | none => none
      | some (false, r) => some (false, r)
      | some (true, r) =>
        let r := { r with fbtbc := 0 }
        if r.last then skipLoop fuel r
        else
          match r.setInputFragment readit fuel with
          | none => none
          | some (false, r) => some (false, r)
          | some (true, r) => skipLoop fuel r
    else some (true, r)

/-- `xdrrec_skiprecord` -/
def skiprecord (fuel : ℕ) (r : RecStrm) : Option (Answer × RecStrm) :=
  (r.skipLoop readit fuel).map fun (through, r) =>
    if through then (⟨1, []⟩, { r with last := false }) else (⟨0, []⟩, r)

/-- `xdrrec_eof` -/
def eof (fuel : ℕ) (r : RecStrm) : Option (Answer × RecStrm) :=
  (r.skipLoop readit fuel).map fun (through, r) =>
    (⟨if through ∧ r.finger ≠ r.boundry then 0 else 1, []⟩, r)

/-- `xdrrec_getpos`, where `lseek` gives the number of bytes that were read from the handle. -/
def getpos (r : RecStrm) : BitVec 32 :=
  let pos := BitVec.ofNat 32 r.total
  if pos = -1 then pos else pos - BitVec.ofNat 32 (r.boundry - r.finger)

/-- `xdrrec_setpos`.  There is no result if the bytes to be consumed are more than a `long`
holds. -/
def setpos (r : RecStrm) (pos : BitVec 32) : Option (Bool × RecStrm) :=
  let currpos := r.getpos
  let delta := (currpos - pos).toInt
  if currpos = -1 then some (false, r)
  else
    let newpos := r.finger - delta
    if delta < r.fbtbc ∧ newpos ≤ r.boundry ∧ 0 ≤ newpos then
      if 2 ^ 31 ≤ r.fbtbc - delta then none
      else some (true, { r with finger := newpos.toNat, fbtbc := (r.fbtbc - delta).toNat })
    else some (false, r)

/-- A call on a stream that is decoded. -/
inductive Call
  | getlong
  | getbytes (len : ℕ)
  | readbytes (l : ℕ)
  | inline (len : ℕ)
  | skiprecord
  | eof
  | setpos (pos : BitVec 32)
deriving DecidableEq

/-- A call and what it returns. -/
def step (fuel : ℕ) (r : RecStrm) : Call → Option (Answer × RecStrm)
  | .getlong => r.getlong readit fuel
  | .getbytes len => r.getbytes readit fuel len
  | .readbytes l => r.readbytes readit fuel l
  | .inline len => some (r.inlineBytes len)
  | .skiprecord => r.skiprecord readit fuel
  | .eof => r.eof readit fuel
  | .setpos pos => (r.setpos pos).map fun (ok, r) => (⟨if ok then 1 else 0, []⟩, r)

/-- A sequence of calls. -/
def run (fuel : ℕ) : RecStrm → List Call → Option (List Answer × RecStrm)
  | r, [] => some ([], r)
  | r, c :: calls =>
    (r.step readit fuel c).bind fun (a, r) => (run fuel r calls).map fun (as, r) => (a :: as, r)

/-- The states that a stream comes to. -/
inductive Reachable (recvsize : ℕ) : RecStrm → Prop
  | create (junk : ℕ → BitVec 8) : Reachable recvsize (create recvsize junk)
  | step {r t : RecStrm} {fuel : ℕ} {c : Call} {a : Answer} (reachable : Reachable recvsize r)
      (stepped : r.step readit fuel c = some (a, t)) : Reachable recvsize t

/-- How many bytes a call reads that reads. -/
def Call.length : Call → Option ℕ
  | .getlong => some 4
  | .getbytes len => some len
  | .readbytes l => some l
  | .inline len => some len
  | .skiprecord => none
  | .eof => none
  | .setpos _ => none

/-- Calls that read bytes of the current fragment, each of them bytes that are in the buffer, and
how many bytes they have read. -/
inductive Reads (r : RecStrm) : ℕ → RecStrm → Prop
  | refl : Reads r 0 r
  | step {n len fuel : ℕ} {s t : RecStrm} {c : Call} {a : Answer} (reads : Reads r n s)
      (length : c.length = some len) (positive : 0 < len) (fragment : len ≤ s.fbtbc)
      (buffered : len ≤ s.boundry - s.finger) (stepped : s.step readit fuel c = some (a, t)) :
      Reads r (n + len) t

/-- The bytes in front of the reader and the bytes that are left of the fragment are as they were,
and all calls from now on return what they would have returned. -/
structure Restored (r t : RecStrm) : Prop where
  ahead : t.slice t.finger (t.boundry - t.finger) = r.slice r.finger (r.boundry - r.finger)
  fbtbc : t.fbtbc = r.fbtbc
  later : ∀ fuel calls,
    (t.run readit fuel calls).map Prod.fst = (r.run readit fuel calls).map Prod.fst

/-! ### Every call keeps the counters in order -/

section Order

variable {readit : Transport} {recvsize fuel len n : ℕ} {r s t : RecStrm} {b : Bool}
  {addr bs : List (BitVec 8)}

/-- The reader is not behind the end of the bytes in the buffer, and the bytes that are left of a
fragment fit into a `long`. -/
structure Ordered (r : RecStrm) : Prop where
  finger : r.finger ≤ r.boundry
  fbtbc : r.fbtbc < 2 ^ 31

theorem Ordered.fillInputBuf (ordered : r.Ordered) (doAlign : Bool) :
    (r.fillInputBuf readit doAlign).2.Ordered := by
  rw [RecStrm.fillInputBuf]
  dsimp only
  split
  · exact ⟨ordered.finger, ordered.fbtbc⟩
  · exact ⟨Nat.le_add_right .., ordered.fbtbc⟩

theorem Ordered.advance (ordered : r.Ordered) {current : ℕ} (le : current ≤ r.boundry - r.finger) :
    ({ r with finger := r.finger + current } : RecStrm).Ordered := by
  refine ⟨?_, ordered.fbtbc⟩
  have finger := ordered.finger
  change r.finger + current ≤ r.boundry
  omega

theorem Ordered.getInputBytes {doAlign : Bool} (ordered : r.Ordered)
    (done : getInputBytes readit fuel r len doAlign addr = some (b, bs, t)) : t.Ordered := by
  induction fuel generalizing r len doAlign addr with
  | zero => exact nomatch done
  | succ fuel ih =>
    rw [RecStrm.getInputBytes] at done
    dsimp only at done
    split_ifs at done with none_left empty
    · cases done
      exact ordered
    · have filled := @Ordered.fillInputBuf readit r ordered doAlign
      cases fill : r.fillInputBuf readit doAlign with
      | mk full s =>
        rw [fill] at done filled
        cases full with
        | false =>
          cases done
          exact filled
        | true => exact ih filled done
    · exact ih (ordered.advance (Nat.min_le_right ..)) done

theorem Ordered.skipInputBytes (ordered : r.Ordered)
    (done : skipInputBytes readit fuel r len = some (b, t)) : t.Ordered := by
  induction fuel generalizing r len with
  | zero => exact nomatch done
  | succ fuel ih =>
    rw [RecStrm.skipInputBytes] at done
    dsimp only at done
    split_ifs at done with none_left empty
    · cases done
      exact ordered
    · have filled := @Ordered.fillInputBuf readit r ordered false
      cases fill : r.fillInputBuf readit false with
      | mk full s =>
        rw [fill] at done filled
        cases full with
        | false =>
          cases done
          exact filled
        | true => exact ih filled done
    · exact ih (ordered.advance (Nat.min_le_right ..)) done

theorem header_lt (header : BitVec 32) : (header &&& ~~~lastFrag).toNat < 2 ^ 31 := by
  have mask : header &&& ~~~lastFrag = header &&& 0x7fffffff := congrArg (header &&& ·) (by decide)
  rw [mask, toNat_and]
  exact Nat.lt_of_le_of_lt and_le_right (by decide)

section

variable (ordered : r.Ordered)

include ordered

theorem Ordered.setInputFragment (done : r.setInputFragment readit fuel = some (b, t)) :
    t.Ordered := by
  rw [RecStrm.setInputFragment] at done
  cases got : RecStrm.getInputBytes readit fuel r 4 r.last [] with
  | none =>
    rw [got] at done
    exact nomatch done
  | some result =>
    obtain ⟨full, bs, s⟩ := result
    rw [got] at done
    have ordered := ordered.getInputBytes got
    cases full with
    | false =>
      cases done
      exact ordered
    | true =>
      cases done
      exact ⟨ordered.finger, header_lt _⟩

theorem Ordered.lessen {left : ℕ} (le : left ≤ r.fbtbc) :
    ({ r with fbtbc := left } : RecStrm).Ordered :=
  ⟨ordered.finger, Nat.lt_of_le_of_lt le ordered.fbtbc⟩

theorem Ordered.getbytesLoop {ending : Ending}
    (done : getbytesLoop readit fuel r len addr = some (ending, bs, t)) : t.Ordered := by
  induction fuel generalizing r len addr with
  | zero => exact nomatch done
  | succ fuel ih =>
    rw [RecStrm.getbytesLoop] at done
    split_ifs at done with none_left consumed last
    · cases done
      exact ordered
    · cases done
      exact ordered
    · cases set : r.setInputFragment readit fuel with
      | none =>
        rw [set] at done
        exact nomatch done
      | some result =>
        obtain ⟨full, s⟩ := result
        rw [set] at done
        have ordered := ordered.setInputFragment set
        cases full with
        | false =>
          cases done
          exact ordered
        | true => exact ih ordered done
    · dsimp only at done
      cases got : RecStrm.getInputBytes readit fuel r (min len r.fbtbc) false [] with
      | none =>
        rw [got] at done
        exact nomatch done
      | some result =>
        obtain ⟨full, bs, s⟩ := result
        rw [got] at done
        have ordered := ordered.getInputBytes got
        cases full with
        | false =>
          cases done
          exact ordered
        | true => exact ih (ordered.lessen (sub_le ..)) done

theorem Ordered.skipLoop (done : r.skipLoop readit fuel = some (b, t)) :
    t.Ordered := by
  induction fuel generalizing r with
  | zero => exact nomatch done
  | succ fuel ih =>
    rw [RecStrm.skipLoop] at done
    split_ifs at done with more
    swap
    · cases done
      exact ordered
    cases skip : RecStrm.skipInputBytes readit fuel r r.fbtbc with
    | none =>
      rw [skip] at done
      exact nomatch done
    | some result =>
      obtain ⟨full, s⟩ := result
      rw [skip] at done
      have ordered := (ordered.skipInputBytes skip)
      cases full with
      | false =>
        cases done
        exact ordered
      | true =>
        have ordered := ordered.lessen (zero_le _)
        dsimp only at done
        split_ifs at done with last
        · exact ih ordered done
        · cases set : ({ s with fbtbc := 0 } : RecStrm).setInputFragment readit fuel with
          | none =>
            rw [set] at done
            exact nomatch done
          | some result =>
            obtain ⟨full, u⟩ := result
            rw [set] at done
            have ordered := ordered.setInputFragment set
            cases full with
            | false =>
              cases done
              exact ordered
            | true => exact ih ordered done

theorem Ordered.alignInstream : r.alignInstream.Ordered := ⟨zero_le _, ordered.fbtbc⟩

theorem Ordered.consume (buffered : len ≤ r.boundry - r.finger) :
    ({ r with fbtbc := r.fbtbc - len, finger := r.finger + len } : RecStrm).Ordered :=
  (ordered.advance buffered).lessen (sub_le ..)

theorem Ordered.inlineBytes (len : ℕ) : (r.inlineBytes len).2.Ordered := by
  rw [RecStrm.inlineBytes]
  split_ifs with held odd
  · have buffered : len ≤ r.alignInstream.boundry - r.alignInstream.finger := by
      change len ≤ r.boundry - r.finger - 0
      omega
    exact ordered.alignInstream.consume buffered
  · exact ordered.consume (by omega)
  · exact ordered

theorem Ordered.getlong {a : Answer} (done : r.getlong readit fuel = some (a, t)) : t.Ordered := by
  rw [RecStrm.getlong] at done
  split_ifs at done with held odd
  · cases done
    exact ordered.alignInstream.consume held.2
  · cases done
    exact ordered.consume held.2
  · obtain ⟨⟨ending, bs, s⟩, got, eq⟩ := map_eq_some_iff.1 done
    cases eq
    exact ordered.getbytesLoop got

theorem Ordered.setpos {pos : BitVec 32} (done : r.setpos pos = some (b, t)) : t.Ordered := by
  rw [RecStrm.setpos] at done
  dsimp only at done
  split_ifs at done with failed allowed long
  · cases done
    exact ordered
  · cases done
    refine ⟨?_, ?_⟩
    · dsimp only
      omega
    · dsimp only
      omega
  · cases done
    exact ordered

theorem Ordered.step {c : Call} {a : Answer} (stepped : r.step readit fuel c = some (a, t)) :
    t.Ordered := by
  cases c with
  | getlong => exact ordered.getlong stepped
  | getbytes len =>
    obtain ⟨⟨ending, bs, s⟩, got, eq⟩ := map_eq_some_iff.1 stepped
    cases eq
    exact ordered.getbytesLoop got
  | readbytes l =>
    obtain ⟨⟨ending, bs, s⟩, got, eq⟩ := map_eq_some_iff.1 stepped
    cases eq
    exact ordered.getbytesLoop got
  | inline len =>
    have kept := ordered.inlineBytes len
    rw [some.inj stepped] at kept
    exact kept
  | skiprecord =>
    obtain ⟨⟨through, s⟩, skipped, eq⟩ := map_eq_some_iff.1 stepped
    have ordered := ordered.skipLoop skipped
    cases through <;> cases eq <;> exact ⟨ordered.finger, ordered.fbtbc⟩
  | eof =>
    obtain ⟨⟨through, s⟩, skipped, eq⟩ := map_eq_some_iff.1 stepped
    cases eq
    exact ordered.skipLoop skipped
  | setpos pos =>
    obtain ⟨⟨ok, s⟩, set, eq⟩ := map_eq_some_iff.1 stepped
    cases eq
    exact ordered.setpos set

end

theorem Reachable.ordered (reachable : Reachable readit recvsize r) : r.Ordered := by
  induction reachable with
  | create junk => exact ⟨Nat.le_refl _, Nat.two_pow_pos 31⟩
  | step _ stepped ih => exact ih.step stepped

/-! ### Reading within the buffer -/

/-- The reader `t` is `r` after `n` more bytes of the fragment and of the buffer. -/
structure Moved (r : RecStrm) (n : ℕ) (t : RecStrm) : Prop where
  total : t.total = r.total
  fbtbc : t.fbtbc + n = r.fbtbc
  left : t.boundry - t.finger + n = r.boundry - r.finger

theorem moved_consume (fragment : len ≤ r.fbtbc) (buffered : len ≤ r.boundry - r.finger) :
    Moved r len { r with fbtbc := r.fbtbc - len, finger := r.finger + len } where
  total := rfl
  fbtbc := Nat.sub_add_cancel fragment
  left := by
    dsimp only
    omega

theorem moved_align (fragment : len ≤ r.fbtbc) (buffered : len ≤ r.boundry - r.finger) :
    Moved r len { r.alignInstream with
      fbtbc := r.alignInstream.fbtbc - len, finger := r.alignInstream.finger + len } where
  total := rfl
  fbtbc := Nat.sub_add_cancel fragment
  left := by
    change r.boundry - r.finger - (0 + len) + len = _
    omega

theorem getInputBytes_buffered {doAlign : Bool} (positive : 0 < len)
    (buffered : len ≤ r.boundry - r.finger)
    (done : getInputBytes readit fuel r len doAlign addr = some (b, bs, t)) :
    b = true ∧ t = { r with finger := r.finger + len } := by
  cases fuel with
  | zero => exact nomatch done
  | succ fuel =>
    rw [getInputBytes, if_neg (by omega)] at done
    dsimp only at done
    rw [if_neg (by omega), Nat.min_eq_left buffered, Nat.sub_self] at done
    cases fuel with
    | zero => exact nomatch done
    | succ fuel =>
      rw [getInputBytes, if_pos rfl] at done
      cases done
      exact ⟨rfl, rfl⟩

theorem getbytesLoop_buffered {ending : Ending} (positive : 0 < len) (fragment : len ≤ r.fbtbc)
    (buffered : len ≤ r.boundry - r.finger)
    (done : getbytesLoop readit fuel r len addr = some (ending, bs, t)) : Moved r len t := by
  cases fuel with
  | zero => exact nomatch done
  | succ fuel =>
    rw [getbytesLoop, if_neg (by omega), if_neg (by omega)] at done
    dsimp only at done
    rw [Nat.min_eq_left fragment] at done
    cases got : getInputBytes readit fuel r len false [] with
    | none =>
      rw [got] at done
      exact nomatch done
    | some result =>
      obtain ⟨full, copied, s⟩ := result
      obtain ⟨rfl, rfl⟩ := getInputBytes_buffered positive buffered got
      rw [got, Nat.sub_self] at done
      cases fuel with
      | zero => exact nomatch done
      | succ fuel =>
        dsimp only at done
        rw [getbytesLoop, if_pos rfl] at done
        cases done
        exact moved_consume fragment buffered

theorem moved_step {c : Call} {a : Answer} (length : c.length = some len) (positive : 0 < len)
    (fragment : len ≤ r.fbtbc) (buffered : len ≤ r.boundry - r.finger)
    (stepped : r.step readit fuel c = some (a, t)) : Moved r len t := by
  cases c with
  | getlong =>
    obtain rfl := some.inj length
    change r.getlong readit fuel = _ at stepped
    rw [getlong, if_pos ⟨fragment, buffered⟩] at stepped
    split_ifs at stepped
    · cases stepped
      exact moved_align fragment buffered
    · cases stepped
      exact moved_consume fragment buffered
  | getbytes len =>
    obtain rfl := some.inj length
    obtain ⟨⟨ending, bs, s⟩, got, eq⟩ := map_eq_some_iff.1 stepped
    cases eq
    exact getbytesLoop_buffered positive fragment buffered got
  | readbytes l =>
    obtain rfl := some.inj length
    obtain ⟨⟨ending, bs, s⟩, got, eq⟩ := map_eq_some_iff.1 stepped
    cases eq
    exact getbytesLoop_buffered positive fragment buffered got
  | inline len =>
    obtain rfl := some.inj length
    have eq := some.inj stepped
    rw [inlineBytes, if_pos ⟨fragment, by omega⟩] at eq
    split_ifs at eq
    · cases eq
      exact moved_align fragment buffered
    · cases eq
      exact moved_consume fragment buffered
  | skiprecord => exact nomatch length
  | eof => exact nomatch length
  | setpos pos => exact nomatch length

theorem Reads.ordered (ordered : r.Ordered) (reads : Reads readit r n s) : s.Ordered := by
  induction reads with
  | refl => exact ordered
  | step _ _ _ _ _ stepped ih => exact ih.step stepped

theorem Reads.moved (reads : Reads readit r n s) : Moved r n s := by
  induction reads with
  | refl => exact ⟨rfl, rfl, rfl⟩
  | step _ length positive fragment buffered stepped ih =>
    have more := moved_step length positive fragment buffered stepped
    refine ⟨more.total.trans ih.total, ?_, ?_⟩
    · have first := ih.fbtbc
      have second := more.fbtbc
      omega
    · have first := ih.left
      have second := more.left
      omega

theorem Reads.eq_self (reads : Reads readit r 0 s) : s = r := by
  generalize none_read : 0 = n at reads
  cases reads with
  | refl => rfl
  | step _ _ positive _ _ _ => omega

/-! ### Going back -/

/-- Going back over bytes that were read is refused: the handle has no position, fewer bytes of the
fragment are left than were read, or the bytes do not all lie in front of the reader. -/
def Refused (r : RecStrm) (n : ℕ) (s : RecStrm) : Prop :=
  BitVec.ofNat 32 r.total = -1 ∨
    BitVec.ofNat 32 r.total - BitVec.ofNat 32 (s.boundry - s.finger) = -1 ∨
    r.fbtbc ≤ 2 * n ∨ s.finger < n

theorem getpos_eq (moved : Moved r n s) (position : BitVec.ofNat 32 r.total ≠ -1) :
    s.getpos = BitVec.ofNat 32 r.total - BitVec.ofNat 32 (s.boundry - s.finger) := by
  rw [getpos, moved.total]
  exact if_neg position

/-- The distance of the two positions is the number of bytes that were read. -/
theorem getpos_sub (ordered : r.Ordered) (moved : Moved r n s)
    (position : BitVec.ofNat 32 r.total ≠ -1) : (s.getpos - r.getpos).toInt = n := by
  have small : n < 2 ^ 31 := by
    have few := ordered.fbtbc
    have taken := moved.fbtbc
    omega
  have start : r.getpos = BitVec.ofNat 32 r.total - BitVec.ofNat 32 (r.boundry - r.finger) :=
    if_neg position
  have sub : s.getpos - r.getpos = BitVec.ofNat 32 n := by
    rw [getpos_eq moved position, start, ← moved.left, ofNat_add]
    grind
  have value : (BitVec.ofNat 32 n).toNat = n := by
    rw [toNat_ofNat]
    omega
  rw [sub, toInt_eq_toNat_of_lt (by omega), value]

theorem setpos_refused (ordered : r.Ordered) (reads : Reads readit r n s)
    (refused : Refused r n s) :
    s.setpos r.getpos = some (false, s) := by
  have moved := reads.moved
  rw [setpos]
  dsimp only
  by_cases position : BitVec.ofNat 32 r.total = -1
  · have failed : s.getpos = -1 := by
      rw [getpos, moved.total]
      exact (if_pos position).trans position
    exact if_pos failed
  rw [getpos_sub ordered moved position]
  by_cases failed : s.getpos = -1
  · exact if_pos failed
  rw [if_neg failed]
  refine if_neg fun allowed => ?_
  rcases refused with none_at_all | ends | few | outside
  · exact position none_at_all
  · rw [getpos_eq moved position] at failed
    exact failed ends
  · have taken := moved.fbtbc
    have more := allowed.1
    omega
  · have inside := allowed.2.2
    omega

/-- It takes the bytes from the fragment once more. -/
theorem setpos_accepted (ordered : r.Ordered) (reads : Reads readit r n s)
    (accepted : ¬ Refused r n s) : s.setpos r.getpos =
      some (true, { s with finger := s.finger - n, fbtbc := s.fbtbc - n }) := by
  have moved := reads.moved
  obtain ⟨position, ends, more, inside⟩ : BitVec.ofNat 32 r.total ≠ -1 ∧
        BitVec.ofNat 32 r.total - BitVec.ofNat 32 (s.boundry - s.finger) ≠ -1 ∧
        2 * n < r.fbtbc ∧ n ≤ s.finger := by
    rw [Refused] at accepted
    push Not at accepted
    exact accepted
  have order := reads.ordered ordered
  have in_buffer := order.finger
  have in_long := order.fbtbc
  have taken := moved.fbtbc
  rw [← getpos_eq moved position] at ends
  rw [setpos]
  dsimp only
  rw [getpos_sub ordered moved position, if_neg ends, if_pos (by omega), if_neg (by omega)]
  have finger : ((s.finger : ℤ) - n).toNat = s.finger - n := by omega
  have fbtbc : ((s.fbtbc : ℤ) - n).toNat = s.fbtbc - n := by omega
  rw [finger, fbtbc]

/-- Going back restores the state exactly if no byte was read in between or it is refused. -/
theorem xdrrec_setpos_iff (readit : Transport) (recvsize n : ℕ) (r s : RecStrm)
    (reachable : Reachable readit recvsize r) (reads : Reads readit r n s) :
    (∀ t, s.setpos r.getpos = some (true, t) → Restored readit r t) ↔ n = 0 ∨ Refused r n s := by
  have ordered := reachable.ordered
  have moved := reads.moved
  by_cases refused : Refused r n s
  · rw [setpos_refused ordered reads refused]
    exact ⟨fun _ => .inr refused, fun _ t eq => (nomatch eq)⟩
  rw [setpos_accepted ordered reads refused]
  constructor
  · intro law
    have left := (law _ rfl).fbtbc
    have taken := moved.fbtbc
    have few : ¬ r.fbtbc ≤ 2 * n := fun le => refused (.inr (.inr (.inl le)))
    dsimp only at left
    refine .inl ?_
    omega
  · rintro (rfl | refused') t eq
    · obtain rfl := reads.eq_self
      cases eq
      exact ⟨rfl, rfl, fun _ _ => rfl⟩
    · exact absurd refused' refused

end Order

/-- One record of twenty bytes, which comes with the first call. -/
def oneRecord : Transport := fun reads _ =>
  if reads = 0 then some (bytes 0x80000014 ++ List.replicate 20 7) else none

/-- The stream of that record after `taken` bytes of it. -/
def within (taken : ℕ) : RecStrm where
  reads := 1
  total := 24
  mem := bytes 0x80000014 ++ (List.replicate 20 7 ++ List.replicate 76 0)
  finger := 4 + taken
  boundry := 24
  fbtbc := 20 - taken
  last := true

theorem within_reachable : Reachable oneRecord 100 (within 4) := by
  have started : Reachable oneRecord 100 { create 100 (fun _ => 0) with last := false } :=
    @Reachable.step oneRecord 100 _ _ 2 .skiprecord ⟨1, []⟩ (.create fun _ => 0) (by decide +kernel)
  exact @Reachable.step oneRecord 100 _ _ 9 (.getbytes 4) ⟨1, [7, 7, 7, 7]⟩ started
    (by decide +kernel)

theorem within_reads : Reads oneRecord (within 4) 4 (within 8) :=
  @Reads.step oneRecord (within 4) 0 4 3 (within 4) (within 8) (.getbytes 4) ⟨1, [7, 7, 7, 7]⟩
    .refl rfl (by decide) (by decide) (by decide) (by decide +kernel)

/-- After going back over four bytes the sixteen bytes that are left cannot be read any more. -/
theorem not_xdrrec_setpos : ¬ ∀ (readit : Transport) (recvsize n : ℕ) (r s : RecStrm),
    Reachable readit recvsize r → Reads readit r n s →
    ∀ t, s.setpos r.getpos = some (true, t) → Restored readit r t := by
  intro all
  have later := (all oneRecord 100 4 (within 4) (within 8) within_reachable within_reads
    { within 4 with fbtbc := 8 } (by decide +kernel)).later 5 [.getbytes 16]
  exact absurd later (by decide +kernel)

/-- Where nothing was read in between, going back succeeds and leaves the state as it was. -/
theorem xdrrec_setpos_four : Restored oneRecord (within 4) (within 4) :=
  (xdrrec_setpos_iff oneRecord 100 0 (within 4) (within 4) within_reachable .refl).2 (.inl rfl)
    (within 4) (by decide +kernel)

end RecStrm

end Sol25.Xdr
