import Sol25.Xdr.Word

/-!
# Counted arrays

`xdr_array`: the number of elements as a word, then the elements one by one.  The room for the
elements is a product of 32 bits, and the loop that decodes them does not look at it.
-/

namespace Sol25.Xdr

open List Option

abbrev Stream := List (BitVec 8)

/-- `xdr_u_int` in `XDR_DECODE` mode. -/
def decodeUint (s : Stream) : Option (BitVec 32 × Stream) :=
  if s.length < 4 then none else some (word (s.take 4), s.drop 4)

/-- An `xdrproc_t`: what it puts on the stream for an element, and the element it takes from a
stream. -/
structure Filter (α : Type*) where
  encode : α → Option Stream
  decode : Stream → Option (α × Stream)

/-- The filter reads back what it has put for an element. -/
def Filter.ReadsBack {α : Type*} (elproc : Filter α) (x : α) : Prop :=
  ∀ part, elproc.encode x = some part → ∀ rest, elproc.decode (part ++ rest) = some (x, rest)

/-- `xdr_u_int` as a filter. -/
def uint : Filter (BitVec 32) where
  encode v := some (bytes v)
  decode := decodeUint

/-- What `xdr_array` leaves behind in `XDR_DECODE` mode. -/
structure Decoded (α : Type*) where
  ok : Bool
  /-- The bytes allocated for the elements. -/
  allocated : ℕ
  /-- Where the filter was called, counted from the allocation. -/
  calls : List ℕ
  /-- The elements decoded. -/
  elements : List α
  rest : Stream

variable {α : Type*}

/-- The loop over the elements in `XDR_DECODE` mode: whether it went through, the calls and the
elements. -/
def decodeElements (elproc : Filter α) (elsize : ℕ) :
    ℕ → ℕ → Stream → Bool × List ℕ × List α × Stream
  | 0, _, s => (true, [], [], s)
  | left + 1, target, s =>
    match elproc.decode s with
    | none => (false, [target], [], s)
    | some (x, s) =>
      let (ok, calls, elements, s) := decodeElements elproc elsize left (target + elsize) s
      (ok, target :: calls, x :: elements, s)

/-- `xdr_array` in `XDR_DECODE` mode with `*addrp` null. -/
def arrayDecode (maxsize elsize : BitVec 32) (elproc : Filter α) (s : Stream) : Decoded α :=
  match decodeUint s with
  | none => { ok := false, allocated := 0, calls := [], elements := [], rest := s }
  | some (c, s) =>
    if maxsize < c then { ok := false, allocated := 0, calls := [], elements := [], rest := s }
    else
      let nodesize := c * elsize
      if c = 0 then { ok := true, allocated := 0, calls := [], elements := [], rest := s }
      else
        let (ok, calls, elements, rest) := decodeElements elproc elsize.toNat c.toNat 0 s
        { ok, allocated := nodesize.toNat, calls, elements, rest }

/-- The loop over the elements in `XDR_ENCODE` mode. -/
def encodeElements (elproc : Filter α) : List α → Option Stream
  | [] => some []
  | x :: elements => do
      let part ← elproc.encode x
      let parts ← encodeElements elproc elements
      some (part ++ parts)

/-- `xdr_array` in `XDR_ENCODE` mode: what it puts on the stream if it succeeds. -/
def arrayEncode (maxsize : BitVec 32) (elproc : Filter α) (elements : List α) : Option Stream :=
  let c := BitVec.ofNat 32 elements.length
  if maxsize < c then none else (encodeElements elproc elements).map (bytes c ++ ·)

/-! ### The allocation -/

variable {maxsize elsize c : BitVec 32} {elproc : Filter α} {s rest wire : Stream}
  {left size target : ℕ}
  {elements : List α}

def count (s : Stream) : ℕ := (decodeUint s).elim 0 fun (c, _) => c.toNat

/-- A call has failed before it decoded an element, or has allocated enough for all of them, and
those that it decodes lie within. -/
def Contained (elsize count : ℕ) (d : Decoded α) : Prop :=
  d.ok = false ∧ d.calls = [] ∨
    count * elsize ≤ d.allocated ∧ ∀ target ∈ d.calls, target + elsize ≤ d.allocated

/-- The elements lie one behind the other. -/
theorem decodeElements_calls {call : ℕ}
    (mem : call ∈ (decodeElements elproc size left target s).2.1) :
    call + size ≤ target + left * size := by
  induction left generalizing target s with
  | zero => exact nomatch mem
  | succ left ih =>
    rw [decodeElements] at mem
    rw [Nat.succ_mul]
    cases decoded : elproc.decode s with
    | none =>
      rw [decoded] at mem
      obtain rfl := mem_singleton.1 mem
      omega
    | some result =>
      rw [decoded] at mem
      rcases mem_cons.1 mem with rfl | mem
      · omega
      · have later := ih mem
        omega

theorem decodeElements_calls_ne : (decodeElements elproc size (left + 1) target s).2.1 ≠ [] := by
  rw [decodeElements]
  cases elproc.decode s with
  | none => exact cons_ne_nil _ _
  | some result => exact cons_ne_nil _ _

/-- The room is enough exactly if the product is one of 32 bits. -/
theorem arrayDecode_contained_iff :
    Contained elsize.toNat (count s) (arrayDecode maxsize elsize elproc s) ↔
      ∀ c rest, decodeUint s = some (c, rest) → c ≤ maxsize → c.toNat * elsize.toNat < 2 ^ 32 := by
  rw [arrayDecode, count]
  cases decoded : decodeUint s with
  | none => exact ⟨fun _ c rest eq => (nomatch eq), fun _ => .inl ⟨rfl, rfl⟩⟩
  | some result =>
    obtain ⟨c, s⟩ := result
    dsimp only [elim_some]
    by_cases many : maxsize < c
    · rw [if_pos many]
      refine ⟨fun _ c' rest eq le => ?_, fun _ => .inl ⟨rfl, rfl⟩⟩
      cases eq
      exact absurd le (BitVec.not_le.2 many)
    rw [if_neg many]
    by_cases zero : c = 0
    · subst zero
      rw [if_pos rfl]
      refine ⟨fun _ c' rest eq _ => ?_, fun _ => .inr ⟨?_, fun target mem => (nomatch mem)⟩⟩
      · cases eq
        simp
      · simp
    rw [if_neg zero]
    have room : (c * elsize).toNat = c.toNat * elsize.toNat % 2 ^ 32 := BitVec.toNat_mul ..
    have some_left : c.toNat ≠ 0 := fun eq => zero (BitVec.eq_of_toNat_eq eq)
    obtain ⟨left, left_eq⟩ := Nat.exists_eq_succ_of_ne_zero some_left
    constructor
    · rintro (⟨-, no_calls⟩ | ⟨enough, -⟩) c' rest eq le
      · dsimp only at no_calls
        rw [left_eq] at no_calls
        exact absurd no_calls decodeElements_calls_ne
      · cases eq
        dsimp only at enough
        rw [room] at enough
        have lt := Nat.mod_lt (c.toNat * elsize.toNat) (show 0 < 2 ^ 32 by decide)
        omega
    · intro small
      have small := small c s rfl (BitVec.not_lt.1 many)
      rw [Nat.mod_eq_of_lt small] at room
      refine .inr ⟨Nat.le_of_eq room.symm, fun target mem => ?_⟩
      have within := decodeElements_calls mem
      dsimp only
      omega

/-! ### Round trip -/

theorem decodeUint_bytes : decodeUint (bytes c ++ rest) = some (c, rest) := by
  have long : ¬ (bytes c ++ rest).length < 4 := by
    rw [length_append, length_bytes]
    omega
  rw [decodeUint, if_neg long, take_left' (length_bytes c), drop_left' (length_bytes c), word_bytes]

theorem decodeElements_encode (reads : ∀ x ∈ elements, elproc.ReadsBack x)
    (encoded : encodeElements elproc elements = some wire) :
    ∃ calls, decodeElements elproc size elements.length target (wire ++ rest) =
      (true, calls, elements, rest) := by
  induction elements generalizing target wire with
  | nil =>
    obtain rfl := some.inj encoded
    exact ⟨[], rfl⟩
  | cons x elements ih =>
    rw [encodeElements] at encoded
    obtain ⟨part, of_x, encoded⟩ := bind_eq_some_iff.1 encoded
    obtain ⟨parts, of_rest, eq⟩ := bind_eq_some_iff.1 encoded
    obtain rfl := some.inj eq
    obtain ⟨calls, later⟩ := @ih parts (target + size)
      (fun y mem => reads y (mem_cons_of_mem x mem)) of_rest
    refine ⟨target :: calls, ?_⟩
    rw [length_cons, decodeElements, append_assoc, reads x mem_cons_self part of_x]
    dsimp only
    rw [later]

/-- An array that was encoded is decoded to the same elements. -/
theorem arrayDecode_encode (few : elements.length ≤ maxsize.toNat)
    (reads : ∀ x ∈ elements, elproc.ReadsBack x)
    (encoded : arrayEncode maxsize elproc elements = some wire) :
    (arrayDecode maxsize elsize elproc (wire ++ rest)).ok = true ∧
      (arrayDecode maxsize elsize elproc (wire ++ rest)).elements = elements ∧
      (arrayDecode maxsize elsize elproc (wire ++ rest)).rest = rest := by
  have small : (BitVec.ofNat 32 elements.length).toNat = elements.length := by
    rw [BitVec.toNat_ofNat, Nat.mod_eq_of_lt (Nat.lt_of_le_of_lt few maxsize.isLt)]
  have fits : ¬ maxsize < BitVec.ofNat 32 elements.length := by
    rw [BitVec.lt_def, small]
    omega
  rw [arrayEncode, if_neg fits] at encoded
  obtain ⟨parts, of_elements, rfl⟩ := map_eq_some_iff.1 encoded
  rw [arrayDecode, append_assoc, decodeUint_bytes]
  dsimp only
  rw [if_neg fits]
  by_cases zero : BitVec.ofNat 32 elements.length = 0
  · rw [if_pos zero]
    obtain rfl : elements = [] := by
      rw [zero] at small
      exact length_eq_zero_iff.1 small.symm
    obtain rfl := some.inj of_elements
    exact ⟨rfl, rfl, rfl⟩
  · rw [if_neg zero, small]
    obtain ⟨calls, later⟩ :=
      @decodeElements_encode α elproc rest parts elsize.toNat 0 elements reads of_elements
    rw [later]
    exact ⟨rfl, rfl, rfl⟩

/-- `xdr_array` decodes a stream within what it has allocated, and gives back the elements if the
stream begins with an array that it has encoded. -/
structure ArrayLaw (maxsize elsize : BitVec 32) (elproc : Filter α) (s : Stream) : Prop where
  contained : Contained elsize.toNat (count s) (arrayDecode maxsize elsize elproc s)
  round_trip : ∀ elements : List α, elements.length ≤ maxsize.toNat →
    (∀ x ∈ elements, elproc.ReadsBack x) →
    ∀ wire rest, arrayEncode maxsize elproc elements = some wire → s = wire ++ rest →
      (arrayDecode maxsize elsize elproc s).ok = true ∧
        (arrayDecode maxsize elsize elproc s).elements = elements ∧
        (arrayDecode maxsize elsize elproc s).rest = rest

/-- The law holds exactly if the count on the stream is refused or its product with the size of an
element is less than `2 ^ 32`. -/
theorem xdr_array_iff (maxsize elsize : BitVec 32) (elproc : Filter α) (s : Stream) :
    ArrayLaw maxsize elsize elproc s ↔
      ∀ c rest, decodeUint s = some (c, rest) → c ≤ maxsize → c.toNat * elsize.toNat < 2 ^ 32 := by
  refine ⟨fun law => arrayDecode_contained_iff.1 law.contained, fun small => ?_⟩
  refine ⟨arrayDecode_contained_iff.2 small, ?_⟩
  rintro elements few reads wire rest encoded rfl
  exact arrayDecode_encode few reads encoded

/-- Two elements of four bytes are decoded into an allocation of four bytes. -/
theorem not_xdr_array : ¬ ∀ (maxsize elsize : BitVec 32) (elproc : Filter (BitVec 32)) (s : Stream),
    ArrayLaw maxsize elsize elproc s := by
  intro all
  have contained := (all 0xffffffff 4 uint (bytes 0x40000001 ++ bytes 7 ++ bytes 8)).contained
  have small := arrayDecode_contained_iff.1 contained 0x40000001 (bytes 7 ++ bytes 8)
    (by decide) (by decide)
  exact absurd small (by decide)

/-- Two words that were encoded are decoded again. -/
example : (arrayDecode 2 4 uint (bytes 2 ++ bytes 7 ++ bytes 8)).elements = [7, 8] := by decide

end Sol25.Xdr
