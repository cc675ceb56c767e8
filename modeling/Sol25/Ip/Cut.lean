import Sol25.Ip.Content

/-!
# Datagrams that are cut into fragments

The fragments of one datagram, each with its header, and the chains of blocks in which they arrive.
-/

namespace Sol25.Ip

open List

structure Fragment where
  header : List UInt8
  data : List UInt8
  deriving DecidableEq, Repr

/-- The number of bytes in front of a fragment. -/
def offsetOf (frags : List Fragment) (i : ℕ) : ℕ :=
  ((frags.take i).map Fragment.data).flatten.length

structure Cut where
  frags : List Fragment
  two : 2 ≤ frags.length
  carries : ∀ f ∈ frags, f.data ≠ []
  headers : ∀ f ∈ frags, IsHeader f.header
  lengths : ∀ f ∈ frags, u16At f.header 2 = some (f.header.length + f.data.length)
  fields : ∀ i f, frags[i]? = some f → ∃ field, u16At f.header 6 = some field ∧
    field % 0x2000 * 8 = offsetOf frags i ∧ (field / 0x2000 % 2 = 1 ↔ i + 1 ≠ frags.length)
  fits : ∀ f, frags[0]? = some f →
    f.header.length + (frags.map Fragment.data).flatten.length < 2 ^ 16

namespace Cut

variable (d : Cut)

def payload : List UInt8 := (d.frags.map Fragment.data).flatten

/-- The place of a fragment in the payload. -/
def off (i : ℕ) : ℕ := offsetOf d.frags i

def first : Fragment := d.frags.head (ne_nil_of_length_pos (by have := d.two; omega))

/-- The header of the datagram: that of the first fragment with the length of the whole. -/
def header : List UInt8 := restored d.first.header (d.first.header.length + d.payload.length)

end Cut

variable {d : Cut} {i j : ℕ} {f : Fragment} {chain : List (List UInt8)} {junk : ℤ}
  {slot : Option Ipf} {ipf : Ipf}

theorem first_eq : d.frags[0]? = some d.first := by
  rw [← head?_eq_getElem?, Cut.first]
  exact head?_eq_some_head _

theorem first_mem : d.first ∈ d.frags := mem_of_getElem? first_eq

theorem off_zero : d.off 0 = 0 := by
  rw [Cut.off, offsetOf, take_zero]
  rfl

theorem off_succ (here : d.frags[i]? = some f) : d.off (i + 1) = d.off i + f.data.length := by
  simp [Cut.off, offsetOf, take_add_one, here]

theorem off_lt (here : d.frags[i]? = some f) : d.off i < d.off (i + 1) := by
  have carried := length_pos_iff.2 (d.carries f (mem_of_getElem? here))
  rw [off_succ here]
  omega

theorem off_length : d.off d.frags.length = d.payload.length := by
  rw [Cut.off, offsetOf, take_length, Cut.payload]

theorem off_mono (le : i ≤ j) : d.off i ≤ d.off j := by
  induction j, le using Nat.le_induction with
  | base => exact le_refl _
  | succ j _ ih =>
    cases here : d.frags[j]? with
    | none =>
      have long := List.getElem?_eq_none_iff.1 here
      rw [Cut.off, Cut.off, offsetOf, offsetOf,
        take_of_length_le (by omega : d.frags.length ≤ j + 1)]
      rw [Cut.off, Cut.off, offsetOf, offsetOf, take_of_length_le long] at ih
      exact ih
    | some f => exact ih.trans (off_lt here).le

theorem off_le (i : ℕ) : d.off i ≤ d.payload.length := by
  rw [← off_length]
  by_cases inside : i ≤ d.frags.length
  · exact off_mono inside
  · rw [Cut.off, Cut.off, offsetOf, offsetOf, take_of_length_le (by omega), take_length]

theorem off_pos (pos : i ≠ 0) : d.off i ≠ 0 := by
  have one := off_lt (@first_eq d)
  have rest := @off_mono d (0 + 1) i (by omega)
  rw [off_zero] at one
  omega

theorem payload_lt : d.first.header.length + d.payload.length < 2 ^ 16 := d.fits d.first first_eq

theorem payload_at (here : d.frags[i]? = some f) (k : ℕ) (b : UInt8) (at_k : f.data[k]? = some b) :
    d.payload[d.off i + k]? = some b := by
  have split : d.frags = d.frags.take i ++ f :: d.frags.drop (i + 1) := by
    obtain ⟨lt, rfl⟩ := List.getElem?_eq_some_iff.1 here
    rw [← drop_eq_getElem_cons lt, take_append_drop]
  have payload_eq : d.payload =
      ((d.frags.take i).map Fragment.data).flatten ++
          (f.data ++ ((d.frags.drop (i + 1)).map Fragment.data).flatten) := by
    rw [Cut.payload]
    nth_rewrite 1 [split]
    simp
  rw [payload_eq, Cut.off, offsetOf, getElem?_append_right (by omega), Nat.add_sub_cancel_left,
    getElem?_append_left (List.getElem?_eq_some_iff.1 at_k).1]
  exact at_k

/-! ### Arrivals -/

/-- A fragment arrives in a chain of blocks, with its header in the first of them. -/
def Arrives (f : Fragment) (chain : List (List UInt8)) : Prop :=
  chain.flatten = f.header ++ f.data ∧ ∃ first rest, chain = first :: rest ∧
    f.header.length ≤ first.length

/-- The blocks of a fragment as they go to the queue: without the header, unless it is the first
fragment. -/
def body (f : Fragment) (i : ℕ) : List (List UInt8) → List (List UInt8)
  | [] => []
  | first :: rest => (if i = 0 then first else first.drop f.header.length) :: rest

theorem Arrives.split (arrives : Arrives f chain) :
    ∃ data rest, chain = (f.header ++ data) :: rest ∧ data ++ rest.flatten = f.data := by
  obtain ⟨flat, first, rest, rfl, long⟩ := arrives
  rw [flatten_cons] at flat
  have header_eq : first.take f.header.length = f.header := by
    have taken := congrArg (List.take f.header.length) flat
    rwa [take_append_of_le_length long, take_left] at taken
  refine ⟨first.drop f.header.length, rest, ?_, ?_⟩
  · rw [← header_eq, length_take, Nat.min_eq_left long, take_append_drop]
  · have dropped := congrArg (List.drop f.header.length) flat
    rwa [drop_append_of_le_length long, drop_left] at dropped

def Cut.more (d : Cut) (i : ℕ) : Bool := decide (i + 1 ≠ d.frags.length)

/-- What becomes of a fragment of the datagram. -/
theorem ipRputLocal_arrives (here : d.frags[i]? = some f) (arrives : Arrives f chain) :
    ipRputLocal junk slot chain =
      match slot with
      | none =>
        if i = 0 then some (.queued ⟨(body f i chain).map unmarked, junk, d.off (i + 1)⟩)
        else (ipReassemble (body f i chain) ⟨[], junk, 0⟩ (d.more i) (d.off i)).map fun r =>
          .queued r.1
      | some ipf =>
        if i ≠ 0 ∧ ipf.ipfEnd = d.off i then
          if d.more i then
            some (.queued { ipf with
              queue := ipf.queue ++ (body f i chain).map unmarked, ipfEnd := d.off (i + 1) })
          else complete (ipf.queue ++ (body f i chain).map unmarked)
        else
          match ipReassemble (body f i chain) ipf (d.more i) (d.off i) with
          | none => none
          | some (ipf, none) => some (.queued ipf)
          | some (_, some queue) => complete queue := by
  obtain ⟨data, rest, rfl, data_eq⟩ := arrives.split
  have mem := mem_of_getElem? here
  have is_header := d.headers f mem
  obtain ⟨field, field_eq, offset_eq, more_iff⟩ := d.fields i f here
  have offset_zero : field % 0x2000 * 8 = 0 ↔ i = 0 := by
    rw [offset_eq]
    refine ⟨fun zero => ?_, fun zero => by rw [zero]; exact off_zero⟩
    by_contra pos
    exact off_pos pos zero
  have more_eq : decide (field / 0x2000 % 2 = 1) = d.more i := by
    rw [Cut.more]
    exact decide_eq_decide.2 more_iff
  have not_whole : ¬ (d.more i = false ∧ i = 0) := by
    rintro ⟨more_eq, rfl⟩
    have two := d.two
    rw [Cut.more, decide_eq_false_iff_not, not_not] at more_eq
    omega
  have stop_eq : u32
      (((f.header.length + f.data.length : ℕ) : ℤ) - (f.header.length : ℕ) + (d.off i : ℕ)) =
          d.off (i + 1) := by
    have le := @off_le d (i + 1)
    have lt := @payload_lt d
    rw [off_succ here] at le ⊢
    rw [show ((f.header.length + f.data.length : ℕ) : ℤ) - (f.header.length : ℕ) + (d.off i : ℕ) =
      ((d.off i + f.data.length : ℕ) : ℤ) by push_cast; omega]
    exact u32_eq (by omega)
  have stripped : (if ¬ i = 0 then advance f.header.length (f.header ++ data) else
    some (f.header ++ data)) =
      some (if i = 0 then f.header ++ data else (f.header ++ data).drop f.header.length) := by
    by_cases zero : i = 0
    · rw [if_neg (by simpa using zero), if_pos zero]
    · rw [if_pos zero, if_neg zero, advance, if_pos (by rw [length_append]; omega)]
  rw [ipRputLocal]
  simp only [hdrLength_append is_header, u16At_append (d.lengths f mem), u16At_append field_eq,
    more_eq, ne_eq, offset_zero]
  rw [if_neg not_whole]
  have off_eq : field % 0x2000 * 8 = d.off i := offset_eq
  simp only [stripped, off_eq, stop_eq]
  rewrite [body]
  cases slot <;> rfl

end Sol25.Ip
