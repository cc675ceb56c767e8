import Sol25.Xdr.Array

/-!
# Counted bytes and strings

`xdr_bytes` and `xdr_string` go in three directions, and when they decode they use the buffer of the
caller or a new one.  When the bytes cannot be decoded, `xdr_string` frees the buffer whoever it
belongs to, and `xdr_bytes` keeps it.
-/

namespace Sol25.Xdr

open Function List Option

/-- `x_op` -/
inductive XdrOp
  | encode
  | decode
  | free
deriving DecidableEq

/-- A stream with its direction: the bytes that are left to decode, or the bytes that were encoded
and the room for more. -/
structure Xdrs where
  op : XdrOp
  data : Stream
  room : ℕ

/-- The buffers that are allocated, by their addresses, and those that were freed.  The bytes of a
new one are junk. -/
structure Heap where
  buffer : ℕ → Option (List (BitVec 8))
  next : ℕ
  junk : ℕ → BitVec 8
  freed : List ℕ

namespace Heap

/-- `mem_alloc`, which waits until there is memory. -/
def memAlloc (h : Heap) (size : ℕ) : ℕ × Heap :=
  (h.next, { h with
    buffer := update h.buffer h.next (some ((List.range size).map h.junk))
    next := h.next + 1 })

def memFree (h : Heap) (sp : ℕ) : Heap :=
  { h with buffer := update h.buffer sp none, freed := h.freed ++ [sp] }

/-- Bytes are stored in a buffer from an index on.  There is no result outside of it. -/
def store (h : Heap) (sp i : ℕ) (bs : List (BitVec 8)) : Option Heap :=
  match h.buffer sp with
  | none => none
  | some data =>
    if data.length < i + bs.length then none
    else some { h with
      buffer := update h.buffer sp
        (some (data.take i ++ (bs ++ data.drop (i + bs.length)))) }

end Heap

/-- `strlen`, which runs out of the buffer if no byte is zero. -/
def strlen : List (BitVec 8) → Option ℕ
  | [] => none
  | b :: bs => if b = 0 then some 0 else (strlen bs).map (· + 1)

namespace Xdrs

/-- `XDR_GETBYTES` -/
def getBytes (x : Xdrs) (cnt : ℕ) : Option (List (BitVec 8) × Xdrs) :=
  if x.data.length < cnt then none else some (x.data.take cnt, { x with data := x.data.drop cnt })

/-- `XDR_PUTBYTES` -/
def putBytes (x : Xdrs) (bs : List (BitVec 8)) : Option Xdrs :=
  if x.room < bs.length then none
  else some { x with data := x.data ++ bs, room := x.room - bs.length }

/-- `xdr_u_int` -/
def uint (x : Xdrs) (v : BitVec 32) : Bool × BitVec 32 × Xdrs :=
  match x.op with
  | .encode => (x.putBytes (bytes v)).elim (false, v, x) fun x => (true, v, x)
  | .decode => (decodeUint x.data).elim (false, v, x) fun (c, data) => (true, c, { x with data })
  | .free => (true, v, x)

end Xdrs

/-- What `xdr_opaque` adds to a number of bytes for whole units. -/
def padding (cnt : ℕ) : ℕ := if cnt % 4 = 0 then 0 else 4 - cnt % 4

/-- `xdr_opaque`, at the start of a buffer. -/
def xdrOpaque (x : Xdrs) (h : Heap) (sp cnt : ℕ) : Option (Bool × Xdrs × Heap) :=
  if cnt = 0 then some (true, x, h)
  else
    match x.op with
    | .decode =>
      match x.getBytes cnt with
      | none => some (false, x, h)
      | some (bs, x) =>
        (h.store sp 0 bs).map fun h =>
          if padding cnt = 0 then (true, x, h)
          else (x.getBytes (padding cnt)).elim (false, x, h) fun (_, x) => (true, x, h)
    | .encode =>
      match h.buffer sp with
      | none => none
      | some data =>
        if data.length < cnt then none
        else
          match x.putBytes (data.take cnt) with
          | none => some (false, x, h)
          | some x =>
            if padding cnt = 0 then some (true, x, h)
            else some ((x.putBytes (List.replicate (padding cnt) 0)).elim (false, x, h)
              fun x => (true, x, h))
    | .free => some (true, x, h)

/-- What a call returns, and what it leaves behind: the stream, the buffers, the pointer of the
caller and, for `xdr_bytes`, the count. -/
structure Result where
  ok : Bool
  x : Xdrs
  heap : Heap
  cpp : Option ℕ
  size : BitVec 32

/-- `xdr_bytes`.  It has no result where it follows a null pointer. -/
def xdrBytes (x : Xdrs) (h : Heap) (cpp : Option ℕ) (sizep maxsize : BitVec 32) : Option Result :=
  let (counted, nodesize, x) := x.uint sizep
  if !counted then some ⟨false, x, h, cpp, nodesize⟩
  else if maxsize < nodesize ∧ x.op ≠ .free then some ⟨false, x, h, cpp, nodesize⟩
  else
    match x.op with
    | .decode =>
      if nodesize = 0 then some ⟨true, x, h, cpp, nodesize⟩
      else
        let (sp, h) := cpp.elim (h.memAlloc nodesize.toNat) fun sp => (sp, h)
        (xdrOpaque x h sp nodesize.toNat).map fun (ok, x, h) => ⟨ok, x, h, some sp, nodesize⟩
    | .encode =>
      match cpp with
      | none => if nodesize = 0 then some ⟨true, x, h, cpp, nodesize⟩ else none
      | some sp => (xdrOpaque x h sp nodesize.toNat).map fun (ok, x, h) => ⟨ok, x, h, cpp, nodesize⟩
    | .free =>
      match cpp with
      | none => some ⟨true, x, h, cpp, nodesize⟩
      | some sp => some ⟨true, x, h.memFree sp, none, nodesize⟩

/-- The part of `xdr_string` after the size, which is taken from the string unless it is decoded. -/
def xdrStringSized (x : Xdrs) (h : Heap) (cpp : Option ℕ) (size maxsize : BitVec 32) :
    Option Result :=
  let (counted, size, x) := x.uint size
  if !counted then some ⟨false, x, h, cpp, size⟩
  else if maxsize < size then some ⟨false, x, h, cpp, size⟩
  else
    let nodesize := size + 1
    match x.op with
    | .decode =>
      if nodesize = 0 then some ⟨true, x, h, cpp, size⟩
      else
        let (sp, h) := cpp.elim (h.memAlloc nodesize.toNat) fun sp => (sp, h)
        (h.store sp size.toNat [0]).bind fun h =>
          (xdrOpaque x h sp size.toNat).bind fun (ok, x, h) =>
            if !ok then some ⟨false, x, h.memFree sp, cpp, size⟩
            else
              ((h.buffer sp).bind strlen).map fun len =>
                if BitVec.ofNat 32 len ≠ size then ⟨false, x, h.memFree sp, cpp, size⟩
                else ⟨true, x, h, some sp, size⟩
    | .encode =>
      cpp.bind fun sp => (xdrOpaque x h sp size.toNat).map fun (ok, x, h) => ⟨ok, x, h, cpp, size⟩
    | .free => cpp.map fun sp => ⟨true, x, h.memFree sp, none, size⟩

def xdrString (x : Xdrs) (h : Heap) (cpp : Option ℕ) (maxsize : BitVec 32) : Option Result :=
  match x.op, cpp with
  | .decode, _ => xdrStringSized x h cpp 0 maxsize
  | .free, none => some ⟨true, x, h, cpp, 0⟩
  | _, none => none
  | _, some sp =>
    ((h.buffer sp).bind strlen).bind fun len => xdrStringSized x h cpp (BitVec.ofNat 32 len) maxsize

/-! ### What is asked of them -/

/-- Places not yet allocated are neither in use nor freed, and a buffer that the caller supplies has
room for the longest value, in a memory of less than `2 ^ 32` bytes. -/
structure Supplied (h : Heap) (cpp : Option ℕ) (room : ℕ) : Prop where
  fresh : h.next ∉ h.freed
  given : ∀ sp, cpp = some sp →
    sp < h.next ∧ ∃ data, h.buffer sp = some data ∧ room ≤ data.length ∧ data.length < 2 ^ 32

/-- What decoding a stream `s` leaves behind.  A value that is not empty has been put into a buffer
with room for it and `nul` more bytes, which are zero.  If it fails, a buffer of the caller is still
allocated, and a new one has been freed once and is not what the pointer of the caller refers to. -/
structure Kept (h : Heap) (cpp : Option ℕ) (s : Stream) (nul : ℕ) (r : Result) : Prop where
  target : r.ok = true → count s ≠ 0 → ∃ sp data, r.cpp = some sp ∧ r.heap.buffer sp = some data ∧
    count s + nul ≤ data.length ∧ ∀ i < nul, data[count s + i]? = some 0
  supplied : r.ok = false → ∀ sp, cpp = some sp → r.heap.buffer sp ≠ none
  allocated : r.ok = false → cpp = none → r.heap.next ≠ h.next →
    r.heap.freed.count h.next = 1 ∧ r.cpp ≠ some h.next

/-- The pointer of the caller refers to a value with `nul` zero bytes after it, and the stream is
behind what was encoded. -/
def Restored (value : List (BitVec 8)) (nul : ℕ) (rest : Stream) (r : Result) : Prop :=
  r.ok = true ∧ r.x.data = rest ∧ r.size.toNat = value.length ∧
    (value.length + nul ≠ 0 → ∃ sp tail, r.cpp = some sp ∧
      r.heap.buffer sp = some (value ++ (List.replicate nul 0 ++ tail)))

def decoding (s : Stream) : Xdrs := { op := .decode, data := s, room := 0 }

def encoding (room : ℕ) : Xdrs := { op := .encode, data := [], room }

/-- `xdr_bytes` decodes a stream into a buffer, and gives back the value if the stream begins with
one that it has encoded. -/
structure BytesLaw (h : Heap) (cpp : Option ℕ) (sizep maxsize : BitVec 32) (s : Stream) : Prop where
  kept : ∃ r, xdrBytes (decoding s) h cpp sizep maxsize = some r ∧ Kept h cpp s 0 r
  round_trip : ∀ (value tail : List (BitVec 8)) (from_heap : Heap) (sp room : ℕ) (sent : Result),
    from_heap.buffer sp = some (value ++ tail) → (value ++ tail).length < 2 ^ 32 →
    xdrBytes (encoding room) from_heap (some sp) (BitVec.ofNat 32 value.length) maxsize =
      some sent → sent.ok = true → ∀ rest, s = sent.x.data ++ rest →
    ∃ r, xdrBytes (decoding s) h cpp sizep maxsize = some r ∧ Restored value 0 rest r

/-- `xdr_string` decodes a stream into a buffer, and gives back the string if the stream begins with
one that it has encoded. -/
structure StringLaw (h : Heap) (cpp : Option ℕ) (maxsize : BitVec 32) (s : Stream) : Prop where
  kept : ∃ r, xdrString (decoding s) h cpp maxsize = some r ∧ Kept h cpp s 1 r
  round_trip : ∀ (value tail : List (BitVec 8)) (from_heap : Heap) (sp room : ℕ) (sent : Result),
    0 ∉ value → from_heap.buffer sp = some (value ++ 0 :: tail) →
    (value ++ 0 :: tail).length < 2 ^ 32 →
    xdrString (encoding room) from_heap (some sp) maxsize = some sent → sent.ok = true →
    ∀ rest, s = sent.x.data ++ rest →
    ∃ r, xdrString (decoding s) h cpp maxsize = some r ∧ Restored value 1 rest r

/-! ### The bytes of an opaque value -/

section Opaque

variable {x : Xdrs} {h : Heap} {cpp : Option ℕ} {maxsize sizep c : BitVec 32} {s rest : Stream}
  {sp cnt i : ℕ} {data bs value tail : List (BitVec 8)}

namespace Heap

theorem store_eq (bs : List (BitVec 8)) (at_sp : h.buffer sp = some data)
    (room : i + bs.length ≤ data.length) :
    h.store sp i bs = some { h with
      buffer := update h.buffer sp (some (data.take i ++ (bs ++ data.drop (i + bs.length)))) } := by
  rw [store, at_sp]
  exact if_neg (Nat.not_lt.2 room)

end Heap

/-- The bytes are taken from the stream with their padding if it has that many. -/
theorem xdrOpaque_decode (op : x.op = .decode) (at_sp : h.buffer sp = some data)
    (room : cnt ≤ data.length) :
    ∃ ok x' h' data', xdrOpaque x h sp cnt = some (ok, x', h') ∧
      (ok = true ↔ cnt + padding cnt ≤ x.data.length) ∧
      h'.next = h.next ∧ h'.freed = h.freed ∧ h'.buffer sp = some data' ∧
      data'.length = data.length ∧ data'.drop cnt = data.drop cnt ∧
      (ok = true → data'.take cnt = x.data.take cnt ∧
        x'.data = x.data.drop (cnt + padding cnt)) := by
  by_cases none_left : cnt = 0
  · subst none_left
    refine ⟨true, x, h, data, if_pos rfl, ⟨fun _ => Nat.zero_le _, fun _ => rfl⟩, rfl, rfl, at_sp,
      rfl, rfl, fun _ => ⟨?_, rfl⟩⟩
    rw [take_zero, take_zero]
  rw [xdrOpaque, if_neg none_left, op]
  dsimp only
  by_cases short : x.data.length < cnt
  · rw [Xdrs.getBytes, if_pos short]
    refine ⟨false, x, h, data, rfl, ⟨fun eq => (nomatch eq), fun le => ?_⟩, rfl, rfl,
      at_sp, rfl, rfl,
      fun eq => (nomatch eq)⟩
    omega
  have taken : (x.data.take cnt).length = cnt := by
    rw [length_take]
    omega
  have stored := Heap.store_eq (i := 0) (x.data.take cnt) at_sp (by omega)
  rw [taken, Nat.zero_add, take_zero, nil_append] at stored
  rw [Xdrs.getBytes, if_neg short]
  dsimp only
  rw [stored, map_some]
  have length : (x.data.take cnt ++ data.drop cnt).length = data.length := by
    rw [length_append, taken, length_drop]
    omega
  have later : (x.data.take cnt ++ data.drop cnt).drop cnt = data.drop cnt := drop_left' taken
  by_cases whole : padding cnt = 0
  · rw [if_pos whole]
    refine ⟨true, _, _, _, rfl, ⟨fun _ => ?_, fun _ => rfl⟩, rfl, rfl, update_self .., length,
      later, fun _ => ⟨take_left' taken, ?_⟩⟩
    · omega
    · rw [whole, Nat.add_zero]
  rw [if_neg whole, Xdrs.getBytes]
  have left : (x.data.drop cnt).length = x.data.length - cnt := length_drop
  dsimp only
  by_cases short' : (x.data.drop cnt).length < padding cnt
  · rw [if_pos short']
    refine ⟨false, _, _, _, rfl, ⟨fun eq => (nomatch eq), fun le => ?_⟩, rfl, rfl,
      update_self .., length, later, fun eq => (nomatch eq)⟩
    omega
  · rw [if_neg short']
    refine ⟨true, _, _, _, rfl, ⟨fun _ => ?_, fun _ => rfl⟩, rfl, rfl, update_self ..,
      length, later, fun _ => ⟨take_left' taken, ?_⟩⟩
    · omega
    · exact drop_drop

/-- The bytes are put on the stream with their padding. -/
theorem xdrOpaque_encode {x' : Xdrs} {h' : Heap} (op : x.op = .encode)
    (at_sp : h.buffer sp = some (value ++ tail))
    (sent : xdrOpaque x h sp value.length = some (true, x', h')) :
    x'.data = x.data ++ (value ++ List.replicate (padding value.length) 0) := by
  by_cases empty : value = []
  · subst empty
    rw [length_nil, xdrOpaque, if_pos rfl] at sent
    cases sent
    exact (append_nil _).symm
  rw [xdrOpaque, if_neg fun eq => empty (length_eq_zero_iff.1 eq), op] at sent
  dsimp only at sent
  have long : ¬ (value ++ tail).length < value.length := by
    rw [length_append]
    omega
  rw [at_sp] at sent
  dsimp only at sent
  rw [if_neg long, take_left' rfl, Xdrs.putBytes] at sent
  by_cases full : x.room < value.length
  · rw [if_pos full] at sent
    exact nomatch sent
  rw [if_neg full] at sent
  dsimp only at sent
  by_cases whole : padding value.length = 0
  · rw [if_pos whole] at sent
    cases sent
    rw [whole, replicate_zero, append_nil]
  rw [if_neg whole, Xdrs.putBytes] at sent
  split_ifs at sent with full'
  · exact nomatch sent
  · cases sent
    exact append_assoc ..

/-- The place that is decoded into: the buffer of the caller or a new one. -/
def target (h : Heap) (cpp : Option ℕ) (size : ℕ) : ℕ × Heap :=
  cpp.elim (h.memAlloc size) fun sp => (sp, h)

theorem target_room {room : ℕ} (size : ℕ) (supplied : Supplied h cpp room)
    (enough : cpp ≠ none → size ≤ room) :
    ∃ data, (target h cpp size).2.buffer (target h cpp size).1 = some data ∧
      size ≤ data.length ∧ (target h cpp size).2.freed = h.freed := by
  cases cpp with
  | none =>
    refine ⟨_, update_self .., Nat.le_of_eq ?_, rfl⟩
    rw [length_map, length_range]
  | some sp =>
    obtain ⟨-, data, at_sp, room_le, -⟩ := supplied.given sp rfl
    exact ⟨data, at_sp, Nat.le_trans (enough nofun) room_le, rfl⟩

theorem decode_uint (sizep : BitVec 32) :
    (decoding s).uint sizep =
      (decodeUint s).elim (false, sizep, decoding s) fun (c, rest) => (true, c, decoding rest) :=
  rfl

/-- There is a count on the stream, and it is not refused. -/
def Counted (maxsize : BitVec 32) (s : Stream) : Prop :=
  ∃ c rest, decodeUint s = some (c, rest) ∧ c ≤ maxsize

theorem count_eq (read : decodeUint s = some (c, rest)) : count s = c.toNat := by
  rw [count, read]
  rfl

/-! ### Counted bytes -/

theorem xdrBytes_refused (refused : ¬ Counted maxsize s) :
    ∃ x size, xdrBytes (decoding s) h cpp sizep maxsize = some ⟨false, x, h, cpp, size⟩ := by
  rw [xdrBytes, decode_uint]
  cases read : decodeUint s with
  | none => exact ⟨_, _, rfl⟩
  | some result =>
    obtain ⟨c, rest⟩ := result
    have many : maxsize < c := BitVec.not_le.1 fun le => refused ⟨c, rest, read, le⟩
    refine ⟨decoding rest, c, ?_⟩
    have over_max : maxsize < c ∧ XdrOp.decode ≠ .free := ⟨many, nofun⟩
    exact if_pos over_max

theorem xdrBytes_counted (read : decodeUint s = some (c, rest)) (le : c ≤ maxsize) :
    xdrBytes (decoding s) h cpp sizep maxsize = if c = 0 then some ⟨true, decoding rest, h, cpp, c⟩
      else (xdrOpaque (decoding rest) (target h cpp c.toNat).2 (target h cpp c.toNat).1
        c.toNat).map fun (ok, x, heap) => ⟨ok, x, heap, some (target h cpp c.toNat).1, c⟩ := by
  have few : ¬ (maxsize < c ∧ XdrOp.decode ≠ .free) := fun many => BitVec.not_lt.2 le many.1
  rw [xdrBytes, decode_uint, read]
  exact if_neg few

/-- What decoding leaves behind if there are bytes to decode. -/
theorem xdrBytes_decode (read : decodeUint s = some (c, rest)) (le : c ≤ maxsize)
    (some_left : c ≠ 0) (supplied : Supplied h cpp maxsize.toNat) :
    ∃ r data, xdrBytes (decoding s) h cpp sizep maxsize = some r ∧
      (r.ok = true ↔ c.toNat + padding c.toNat ≤ rest.length) ∧ r.size = c ∧
      r.cpp = some (target h cpp c.toNat).1 ∧ r.heap.freed = h.freed ∧
      r.heap.next = (target h cpp c.toNat).2.next ∧
      r.heap.buffer (target h cpp c.toNat).1 = some data ∧ c.toNat ≤ data.length ∧
      (r.ok = true → data.take c.toNat = rest.take c.toNat ∧
        r.x.data = rest.drop (c.toNat + padding c.toNat)) := by
  obtain ⟨data, at_sp, room, freed⟩ := target_room c.toNat supplied fun _ => le
  obtain ⟨ok, x, heap, data', decoded, ok_iff, next, freed', at_sp', length, -, taken⟩ :=
    xdrOpaque_decode (x := decoding rest) rfl at_sp room
  refine ⟨⟨ok, x, heap, some (target h cpp c.toNat).1, c⟩, data', ?_, ok_iff, rfl, rfl,
    freed'.trans freed, next, at_sp', Nat.le_trans room (Nat.le_of_eq length.symm), taken⟩
  rw [xdrBytes_counted read le, if_neg some_left, decoded, map_some]

theorem kept_of_unchanged {r : Result} {room nul : ℕ} (supplied : Supplied h cpp room)
    (heap : r.heap = h) (empty : r.ok = true → count s = 0) : Kept h cpp s nul r where
  target ok some_left := absurd (empty ok) some_left
  supplied _ sp given := by
    obtain ⟨-, data, at_sp, -⟩ := supplied.given sp given
    rw [heap, at_sp]
    exact nofun
  allocated _ _ grown := absurd (congrArg Heap.next heap) grown

/-- A new buffer is left behind if there are fewer bytes than the count says. -/
theorem xdrBytes_kept_iff (supplied : Supplied h cpp maxsize.toNat) :
    (∃ r, xdrBytes (decoding s) h cpp sizep maxsize = some r ∧ Kept h cpp s 0 r) ↔
      (cpp = none → ∀ c rest, decodeUint s = some (c, rest) → c ≤ maxsize →
        c.toNat + padding c.toNat ≤ rest.length) := by
  by_cases counted : Counted maxsize s
  · obtain ⟨c, rest, read, le⟩ := counted
    by_cases empty : c = 0
    · subst empty
      constructor
      · intro _ _ c' rest' read' _
        rw [read] at read'
        cases read'
        exact Nat.zero_le _
      · intro _
        rw [xdrBytes_counted read le, if_pos rfl]
        exact ⟨_, rfl, kept_of_unchanged supplied rfl fun _ => count_eq read⟩
    obtain ⟨r, data, eq, ok_iff, -, cpp_eq, freed, next, at_sp, room, -⟩ :=
      @xdrBytes_decode h cpp maxsize sizep c s rest read le empty supplied
    rw [eq]
    have kept_target : count s + 0 ≤ data.length ∧ ∀ i < 0, data[count s + i]? = some 0 :=
      ⟨by rw [count_eq read]; exact room, fun i lt => (nomatch lt)⟩
    constructor
    · rintro ⟨_, same, kept⟩ fresh c' rest' read' -
      cases same
      rw [read] at read'
      cases read'
      rw [← ok_iff]
      by_contra failed
      have failed := Bool.eq_false_iff.2 failed
      subst fresh
      have grown : r.heap.next ≠ h.next := by
        rw [next]
        exact Nat.succ_ne_self h.next
      have once := (kept.allocated failed rfl grown).1
      rw [freed, count_eq_zero_of_not_mem supplied.fresh] at once
      exact nomatch once
    · intro enough
      refine ⟨r, rfl, fun _ _ => ⟨_, data, cpp_eq, at_sp, kept_target⟩, ?_, ?_⟩
      · rintro - sp rfl
        rw [show r.heap.buffer sp = some data from at_sp]
        exact nofun
      · intro failed fresh _
        exact absurd (ok_iff.2 (enough fresh c rest read le)) (Bool.eq_false_iff.1 failed)
  · constructor
    · intro _ _ c rest read le
      exact absurd ⟨c, rest, read, le⟩ counted
    · intro _
      obtain ⟨x, size, eq⟩ := xdrBytes_refused counted
      exact ⟨_, eq, kept_of_unchanged supplied rfl nofun⟩

/-! ### Strings -/

/-- A zero byte ends the string, if not an earlier one. -/
theorem strlen_of_zero {n : ℕ} (zero_at : data.drop n = 0 :: tail) :
    ∃ len, strlen data = some len ∧ len ≤ n ∧ (len = n ↔ 0 ∉ data.take n) := by
  induction n generalizing data with
  | zero =>
    rw [drop_zero] at zero_at
    subst zero_at
    exact ⟨0, rfl, Nat.le_refl 0, fun _ => not_mem_nil, fun _ => rfl⟩
  | succ n ih =>
    cases data with
    | nil => exact nomatch zero_at
    | cons b data =>
      rw [strlen]
      by_cases zero : b = 0
      · subst zero
        refine ⟨0, if_pos rfl, Nat.zero_le _, fun eq => (nomatch eq), fun none_before => ?_⟩
        exact absurd mem_cons_self none_before
      · obtain ⟨len, eq, le, iff⟩ := ih zero_at
        rw [if_neg zero, eq]
        refine ⟨len + 1, rfl, Nat.succ_le_succ le, ?_⟩
        rw [Nat.succ_inj, iff, take_succ_cons, mem_cons, not_or]
        exact ⟨fun later => ⟨Ne.symm zero, later⟩, And.right⟩

theorem xdrString_refused (refused : ¬ Counted maxsize s) :
    ∃ x size, xdrString (decoding s) h cpp maxsize = some ⟨false, x, h, cpp, size⟩ := by
  change ∃ x size, xdrStringSized (decoding s) h cpp 0 maxsize = _
  rw [xdrStringSized, decode_uint]
  cases read : decodeUint s with
  | none => exact ⟨_, _, rfl⟩
  | some result =>
    obtain ⟨c, rest⟩ := result
    have many : maxsize < c := BitVec.not_le.1 fun le => refused ⟨c, rest, read, le⟩
    refine ⟨decoding rest, c, ?_⟩
    exact if_pos many

theorem xdrString_counted (read : decodeUint s = some (c, rest)) (le : c ≤ maxsize) :
    xdrString (decoding s) h cpp maxsize = if c + 1 = 0 then some ⟨true, decoding rest, h, cpp, c⟩
      else
        ((target h cpp (c + 1).toNat).2.store (target h cpp (c + 1).toNat).1 c.toNat [0]).bind
          fun heap =>
            (xdrOpaque (decoding rest) heap (target h cpp (c + 1).toNat).1 c.toNat).bind
              fun (ok, x, heap) =>
                if !ok then some ⟨false, x, heap.memFree (target h cpp (c + 1).toNat).1, cpp, c⟩
                else ((heap.buffer (target h cpp (c + 1).toNat).1).bind strlen).map fun len =>
                  if BitVec.ofNat 32 len ≠ c then
                    ⟨false, x, heap.memFree (target h cpp (c + 1).toNat).1, cpp, c⟩
                  else ⟨true, x, heap, some (target h cpp (c + 1).toNat).1, c⟩ := by
  change xdrStringSized (decoding s) h cpp 0 maxsize = _
  rw [xdrStringSized, decode_uint, read]
  exact if_neg (BitVec.not_lt.2 le)

theorem toNat_succ (small : c ≠ 0xffffffff) : (c + 1).toNat = c.toNat + 1 := by
  have lt := c.isLt
  have ne : c.toNat ≠ 2 ^ 32 - 1 := fun eq => small (BitVec.eq_of_toNat_eq eq)
  rw [BitVec.toNat_add]
  change (c.toNat + 1) % 2 ^ 32 = c.toNat + 1
  omega

/-- The bytes are there, and none of them is zero. -/
def Complete (c : BitVec 32) (rest : Stream) : Prop :=
  c.toNat + padding c.toNat ≤ rest.length ∧ 0 ∉ rest.take c.toNat

/-- What decoding leaves behind if the size of the buffer does not wrap around. -/
theorem xdrString_decode (read : decodeUint s = some (c, rest)) (le : c ≤ maxsize)
    (small : c ≠ 0xffffffff) (supplied : Supplied h cpp (maxsize.toNat + 1)) :
    ∃ r, xdrString (decoding s) h cpp maxsize = some r ∧ (r.ok = true ↔ Complete c rest) ∧
      r.size = c ∧
      (r.ok = true → r.cpp = some (target h cpp (c.toNat + 1)).1 ∧
        r.x.data = rest.drop (c.toNat + padding c.toNat) ∧
        ∃ tail, r.heap.buffer (target h cpp (c.toNat + 1)).1 =
          some (rest.take c.toNat ++ 0 :: tail)) ∧
      (r.ok = false → r.cpp = cpp ∧ r.heap.freed = h.freed ++ [(target h cpp (c.toNat + 1)).1] ∧
        r.heap.buffer (target h cpp (c.toNat + 1)).1 = none) := by
  obtain ⟨data, at_sp, room, freed⟩ := target_room (c.toNat + 1) supplied
    fun _ => Nat.succ_le_succ le
  have whole : ¬ c + 1 = 0 := fun eq => by
    have wrapped := toNat_succ small
    rw [eq] at wrapped
    exact nomatch wrapped
  have stored := Heap.store_eq [0] at_sp room
  rw [length_singleton] at stored
  rw [xdrString_counted read le, if_neg whole, toNat_succ small, stored, bind_some]
  clear stored
  generalize target h cpp (c.toNat + 1) = place at at_sp freed ⊢
  obtain ⟨sp, heap⟩ := place
  dsimp only at at_sp freed ⊢
  have before : (data.take c.toNat).length = c.toNat := by
    rw [length_take]
    omega
  obtain ⟨ok, x, heap', data', decoded, ok_iff, -, freed', at_sp', length, later, taken⟩ :=
    @xdrOpaque_decode (decoding rest)
      { heap with
        buffer := update heap.buffer sp
          (some (data.take c.toNat ++ ([0] ++ data.drop (c.toNat + 1)))) }
      sp c.toNat _ rfl (update_self ..) (by
        rw [length_append, before]
        exact Nat.le_add_right ..)
  rw [drop_left' before] at later
  have freed' := freed'.trans freed
  rw [decoded, bind_some]
  dsimp only
  cases ok with
  | false =>
    refine ⟨_, if_pos rfl, ⟨fun eq => (nomatch eq), fun readable => ?_⟩, rfl, nofun, fun _ => ?_⟩
    · exact nomatch ok_iff.2 readable.1
    · refine ⟨rfl, ?_, update_self ..⟩
      rw [← freed']
      rfl
  | true =>
    obtain ⟨take_eq, left_eq⟩ := taken rfl
    obtain ⟨len, len_eq, len_le, len_iff⟩ := strlen_of_zero later
    have split : data' = rest.take c.toNat ++ 0 :: data.drop (c.toNat + 1) := by
      rw [← take_append_drop c.toNat data', take_eq, later]
      rfl
    have same_iff : BitVec.ofNat 32 len = c ↔ len = c.toNat := by
      have lt := c.isLt
      rw [← BitVec.toNat_inj, BitVec.toNat_ofNat, Nat.mod_eq_of_lt (by omega)]
    rw [take_eq] at len_iff
    rw [at_sp', bind_some, len_eq]
    by_cases same : len = c.toNat
    · refine ⟨⟨true, x, heap', some sp, c⟩, ?_, ?_, rfl, fun _ => ?_, nofun⟩
      · exact congrArg some (if_neg fun ne => ne (same_iff.2 same))
      · exact ⟨fun _ => ⟨ok_iff.1 rfl, len_iff.1 same⟩, fun _ => rfl⟩
      · exact ⟨rfl, left_eq, _, at_sp'.trans (congrArg some split)⟩
    · refine ⟨⟨false, x, heap'.memFree sp, cpp, c⟩, ?_, ?_, rfl, nofun, fun _ => ?_⟩
      · exact congrArg some (if_pos fun eq => same (same_iff.1 eq))
      · exact ⟨fun eq => (nomatch eq), fun readable => absurd (len_iff.2 readable.2) same⟩
      · refine ⟨rfl, ?_, update_self ..⟩
        rw [← freed']
        rfl

/-- A buffer of the caller is freed if the string cannot be read, and there is no buffer if the size
of a new one wraps around. -/
theorem xdrString_kept_iff (supplied : Supplied h cpp (maxsize.toNat + 1)) :
    (∃ r, xdrString (decoding s) h cpp maxsize = some r ∧ Kept h cpp s 1 r) ↔
      ∀ c rest, decodeUint s = some (c, rest) → c ≤ maxsize →
        (cpp = none → c ≠ 0xffffffff) ∧ (cpp ≠ none → Complete c rest) := by
  by_cases counted : Counted maxsize s
  swap
  · constructor
    · intro _ c rest read le
      exact absurd ⟨c, rest, read, le⟩ counted
    · intro _
      obtain ⟨x, size, eq⟩ := xdrString_refused counted
      exact ⟨_, eq, kept_of_unchanged supplied rfl nofun⟩
  obtain ⟨c, rest, read, le⟩ := counted
  have only : (∀ c' rest', decodeUint s = some (c', rest') → c' ≤ maxsize →
      (cpp = none → c' ≠ 0xffffffff) ∧ (cpp ≠ none → Complete c' rest')) ↔
      (cpp = none → c ≠ 0xffffffff) ∧ (cpp ≠ none → Complete c rest) := by
    refine ⟨fun all => all c rest read le, fun here c' rest' read' _ => ?_⟩
    rw [read] at read'
    cases read'
    exact here
  rw [only]
  by_cases small : c = 0xffffffff
  · subst small
    cases cpp with
    | some sp =>
      obtain ⟨-, data, -, room, short⟩ := supplied.given sp rfl
      have long : 2 ^ 32 - 1 ≤ maxsize.toNat := le
      omega
    | none =>
      refine ⟨fun ⟨r, eq, kept⟩ => ?_, fun ⟨ne, _⟩ => absurd rfl (ne rfl)⟩
      rw [xdrString_counted read le, if_pos (by decide)] at eq
      cases eq
      have nonzero : count s ≠ 0 := by
        rw [count_eq read]
        decide
      obtain ⟨sp, -, given, -⟩ := kept.target rfl nonzero
      exact nomatch given
  obtain ⟨r, eq, ok_iff, -, if_ok, if_failed⟩ := xdrString_decode read le small supplied
  rw [eq]
  constructor
  · rintro ⟨_, same, kept⟩
    cases same
    refine ⟨fun _ => small, fun given => ?_⟩
    obtain ⟨sp, rfl⟩ := ne_none_iff_exists'.1 given
    rw [← ok_iff]
    by_contra failed
    have failed := Bool.eq_false_iff.2 failed
    exact kept.supplied failed sp rfl (if_failed failed).2.2
  · rintro ⟨-, readable⟩
    refine ⟨r, rfl, fun ok _ => ?_, fun failed sp given => ?_, fun failed fresh _ => ?_⟩
    · obtain ⟨cpp_eq, -, tail, at_sp⟩ := if_ok ok
      have enough := (ok_iff.1 ok).1
      have before : (rest.take c.toNat).length = c.toNat := by
        rw [length_take]
        omega
      refine ⟨_, _, cpp_eq, at_sp, ?_, fun i lt => ?_⟩
      · rw [length_append, before, length_cons, count_eq read]
        omega
      · obtain rfl := Nat.lt_one_iff.1 lt
        rw [count_eq read, Nat.add_zero, getElem?_append_right (Nat.le_of_eq before), before,
          Nat.sub_self]
        rfl
    · have given : cpp ≠ none := by
        rw [given]
        exact nofun
      exact absurd (ok_iff.2 (readable given)) (Bool.eq_false_iff.1 failed)
    · subst fresh
      obtain ⟨cpp_eq, freed, -⟩ := if_failed failed
      refine ⟨?_, ?_⟩
      · rw [freed, count_append, count_eq_zero_of_not_mem supplied.fresh]
        exact (Nat.zero_add _).trans (count_singleton_self (a := h.next))
      · rw [cpp_eq]
        exact nofun

/-! ### Round trips -/

theorem toNat_length (small : value.length < 2 ^ 32) :
    (BitVec.ofNat 32 value.length).toNat = value.length := by
  rw [BitVec.toNat_ofNat, Nat.mod_eq_of_lt small]

/-- The count, the value and its padding. -/
def onWire (value : List (BitVec 8)) : Stream :=
  bytes (BitVec.ofNat 32 value.length) ++ (value ++ List.replicate (padding value.length) 0)

theorem encode_uint (room : ℕ) (c : BitVec 32) :
    (encoding room).uint c = (false, c, encoding room) ∨
      ∃ x, (encoding room).uint c = (true, c, x) ∧ x.op = .encode ∧ x.data = bytes c := by
  change ((encoding room).putBytes (bytes c)).elim (false, c, encoding room) _ = _ ∨
    ∃ x, ((encoding room).putBytes (bytes c)).elim (false, c, encoding room) _ = _ ∧ _
  rw [Xdrs.putBytes]
  split_ifs with full
  · exact .inl rfl
  · exact .inr ⟨_, rfl, rfl, nil_append _⟩

theorem xdrBytes_encode {from_heap : Heap} {room : ℕ} {sent : Result}
    (at_sp : from_heap.buffer sp = some (value ++ tail)) (small : value.length < 2 ^ 32)
    (eq : xdrBytes (encoding room) from_heap (some sp) (BitVec.ofNat 32 value.length) maxsize =
      some sent) (ok : sent.ok = true) :
    BitVec.ofNat 32 value.length ≤ maxsize ∧ sent.x.data = onWire value := by
  rw [xdrBytes] at eq
  obtain full | ⟨x, put, op, data_eq⟩ := encode_uint room (BitVec.ofNat 32 value.length)
  · rw [full] at eq
    cases eq
    exact nomatch ok
  rw [put] at eq
  dsimp only at eq
  rw [if_neg (by decide)] at eq
  by_cases many : maxsize < BitVec.ofNat 32 value.length
  · have refused : maxsize < BitVec.ofNat 32 value.length ∧ x.op ≠ .free :=
      ⟨many, by rw [op]; exact nofun⟩
    rw [if_pos refused] at eq
    cases eq
    exact nomatch ok
  refine ⟨BitVec.not_lt.1 many, ?_⟩
  rw [if_neg fun refused => many refused.1, op] at eq
  dsimp only at eq
  rw [toNat_length small] at eq
  obtain ⟨⟨ok', x', h'⟩, opaque_eq, rfl⟩ := map_eq_some_iff.1 eq
  cases ok
  rw [xdrOpaque_encode op at_sp opaque_eq, data_eq]
  rfl

theorem xdrString_encode {from_heap : Heap} {room : ℕ} {sent : Result}
    (at_sp : from_heap.buffer sp = some (value ++ 0 :: tail)) (nul_free : 0 ∉ value)
    (small : value.length < 2 ^ 32)
    (eq : xdrString (encoding room) from_heap (some sp) maxsize = some sent) (ok : sent.ok = true) :
    BitVec.ofNat 32 value.length ≤ maxsize ∧ sent.x.data = onWire value := by
  have len_eq : strlen (value ++ 0 :: tail) = some value.length := by
    have zero_at : (value ++ 0 :: tail).drop value.length = 0 :: tail := drop_left' rfl
    obtain ⟨len, eq, -, iff⟩ := strlen_of_zero zero_at
    rw [take_left' rfl] at iff
    rw [eq, iff.2 nul_free]
  change ((from_heap.buffer sp).bind strlen).bind _ = _ at eq
  rw [at_sp, bind_some, len_eq, bind_some, xdrStringSized] at eq
  obtain full | ⟨x, put, op, data_eq⟩ := encode_uint room (BitVec.ofNat 32 value.length)
  · rw [full] at eq
    cases eq
    exact nomatch ok
  rw [put] at eq
  dsimp only at eq
  rw [if_neg (by decide)] at eq
  by_cases many : maxsize < BitVec.ofNat 32 value.length
  · rw [if_pos many] at eq
    cases eq
    exact nomatch ok
  refine ⟨BitVec.not_lt.1 many, ?_⟩
  rw [if_neg many, op] at eq
  dsimp only [bind_some] at eq
  rw [toNat_length small] at eq
  obtain ⟨⟨ok', x', h'⟩, opaque_eq, rfl⟩ := map_eq_some_iff.1 eq
  cases ok
  rw [xdrOpaque_encode op at_sp opaque_eq, data_eq]
  rfl

theorem decodeUint_onWire : decodeUint (onWire value ++ rest) = some (BitVec.ofNat 32 value.length,
    value ++ (List.replicate (padding value.length) 0 ++ rest)) := by
  rw [onWire, append_assoc, decodeUint_bytes, append_assoc]

theorem onWire_taken : (value ++ (List.replicate (padding value.length) 0 ++ rest)).drop
    (value.length + padding value.length) = rest := by
  rw [← append_assoc]
  refine drop_left' ?_
  rw [length_append, length_replicate]

theorem onWire_long : value.length + padding value.length ≤
    (value ++ (List.replicate (padding value.length) 0 ++ rest)).length := by
  rw [length_append, length_append, length_replicate]
  omega

theorem xdrBytes_restored (supplied : Supplied h cpp maxsize.toNat) (small : value.length < 2 ^ 32)
    (le : BitVec.ofNat 32 value.length ≤ maxsize) :
    ∃ r, xdrBytes (decoding (onWire value ++ rest)) h cpp sizep maxsize = some r ∧
      Restored value 0 rest r := by
  by_cases empty : BitVec.ofNat 32 value.length = 0
  · have none_left : value.length = 0 := by
      rw [← toNat_length small, empty]
      rfl
    obtain rfl := length_eq_zero_iff.1 none_left
    rw [xdrBytes_counted decodeUint_onWire le, if_pos empty]
    exact ⟨_, rfl, rfl, rfl, rfl, fun ne => absurd rfl ne⟩
  · obtain ⟨r, data, eq, ok_iff, size_eq, cpp_eq, -, -, at_sp, -, taken⟩ :=
      @xdrBytes_decode h cpp maxsize sizep _ _ _ (@decodeUint_onWire rest value) le empty supplied
    rw [toNat_length small] at ok_iff taken
    have ok := ok_iff.2 onWire_long
    obtain ⟨take_eq, left_eq⟩ := taken ok
    rw [take_left' rfl] at take_eq
    rw [onWire_taken] at left_eq
    refine ⟨r, eq, ok, left_eq, ?_, fun _ => ⟨_, data.drop value.length, cpp_eq, ?_⟩⟩
    · rw [size_eq, toNat_length small]
    · rw [at_sp, ← take_append_drop value.length data, take_eq]
      simp

theorem xdrString_restored (supplied : Supplied h cpp (maxsize.toNat + 1)) (nul_free : 0 ∉ value)
    (small : value.length + 1 < 2 ^ 32) (le : BitVec.ofNat 32 value.length ≤ maxsize) :
    ∃ r, xdrString (decoding (onWire value ++ rest)) h cpp maxsize = some r ∧
      Restored value 1 rest r := by
  have small' : value.length < 2 ^ 32 := Nat.lt_of_succ_lt small
  have no_wrap : BitVec.ofNat 32 value.length ≠ 0xffffffff := fun eq => by
    have length := toNat_length small'
    rw [eq] at length
    change 2 ^ 32 - 1 = value.length at length
    omega
  obtain ⟨r, eq, ok_iff, size_eq, if_ok, -⟩ :=
    xdrString_decode (@decodeUint_onWire rest value) le no_wrap supplied
  have readable : Complete (BitVec.ofNat 32 value.length)
      (value ++ (List.replicate (padding value.length) 0 ++ rest)) := by
    rw [Complete, toNat_length small', take_left' rfl]
    exact ⟨onWire_long, nul_free⟩
  have ok := ok_iff.2 readable
  rw [toNat_length small', take_left' rfl, onWire_taken] at if_ok
  obtain ⟨cpp_eq, left_eq, tail, at_sp⟩ := if_ok ok
  refine ⟨r, eq, ok, left_eq, ?_, fun _ => ⟨_, tail, cpp_eq, at_sp⟩⟩
  rw [size_eq, toNat_length small']

end Opaque

/-! ### The whole of it -/

/-- `xdr_bytes` keeps the law exactly if it uses the buffer of its caller or there are as many bytes
as the count says.  `xdr_string` keeps it exactly if the size of a new buffer does not wrap around,
and the string can be read if the buffer is the caller's. -/
theorem xdr_bytes_string_iff (h : Heap) (cpp : Option ℕ) (sizep maxsize : BitVec 32) (s : Stream) :
    (Supplied h cpp maxsize.toNat →
      (BytesLaw h cpp sizep maxsize s ↔
        (cpp = none → ∀ c rest, decodeUint s = some (c, rest) → c ≤ maxsize →
          c.toNat + padding c.toNat ≤ rest.length))) ∧
    (Supplied h cpp (maxsize.toNat + 1) →
      (StringLaw h cpp maxsize s ↔
        ∀ c rest, decodeUint s = some (c, rest) → c ≤ maxsize →
          (cpp = none → c ≠ 0xffffffff) ∧ (cpp ≠ none → Complete c rest))) := by
  constructor
  · intro supplied
    refine ⟨fun law => (xdrBytes_kept_iff supplied).1 law.kept, fun enough => ?_⟩
    refine ⟨(xdrBytes_kept_iff supplied).2 enough, ?_⟩
    rintro value tail from_heap sp room sent at_sp short eq ok rest rfl
    rw [length_append] at short
    have small : value.length < 2 ^ 32 := by omega
    obtain ⟨le, sent_eq⟩ := xdrBytes_encode at_sp small eq ok
    rw [sent_eq]
    exact xdrBytes_restored supplied small le
  · intro supplied
    refine ⟨fun law => (xdrString_kept_iff supplied).1 law.kept, fun readable => ?_⟩
    refine ⟨(xdrString_kept_iff supplied).2 readable, ?_⟩
    rintro value tail from_heap sp room sent nul_free at_sp short eq ok rest rfl
    rw [length_append, length_cons] at short
    obtain ⟨le, sent_eq⟩ := xdrString_encode at_sp nul_free (by omega) eq ok
    rw [sent_eq]
    exact xdrString_restored supplied nul_free (by omega) le

/-- A buffer of eight bytes that the caller has allocated. -/
def callers : Heap where
  buffer sp := if sp = 0 then some (List.replicate 8 0) else none
  next := 1
  junk _ := 0
  freed := []

theorem callers_supplied : Supplied callers (some 0) (7 + 1) where
  fresh := not_mem_nil
  given sp eq := by
    obtain rfl := some.inj eq
    exact ⟨Nat.zero_lt_one, _, rfl, by decide, by decide⟩

/-- A string of four bytes of which two are there: the buffer of the caller is freed. -/
theorem not_xdr_string : ¬ ∀ (h : Heap) (cpp : Option ℕ) (maxsize : BitVec 32) (s : Stream),
    Supplied h cpp (maxsize.toNat + 1) → StringLaw h cpp maxsize s := by
  intro all
  have kept := (all callers (some 0) 7 (bytes 4 ++ [0x61, 0x62]) callers_supplied).kept
  have readable := (@xdrString_kept_iff _ _ 7 _ callers_supplied).1 kept 4 [0x61, 0x62]
    (by decide) (by decide)
  exact absurd (readable.2 nofun).1 (by decide)

/-- Both read three bytes into the buffer of the caller. -/
theorem xdr_bytes_string_abc :
    BytesLaw callers (some 0) 0 8 (bytes 3 ++ [0x61, 0x62, 0x63, 0]) ∧
      StringLaw callers (some 0) 7 (bytes 3 ++ [0x61, 0x62, 0x63, 0]) := by
  refine ⟨((xdr_bytes_string_iff ..).1 callers_supplied).2 nofun,
    ((xdr_bytes_string_iff callers (some 0) 0 7 _).2 callers_supplied).2 fun c rest read _ =>
      ⟨nofun, fun _ => ?_⟩⟩
  have first : decodeUint (bytes 3 ++ [0x61, 0x62, 0x63, 0]) = some (3, [0x61, 0x62, 0x63, 0]) := by
    decide
  rw [first] at read
  cases read
  exact ⟨by decide, by decide⟩

end Sol25.Xdr
