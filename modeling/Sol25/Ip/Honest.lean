import Sol25.Ip.Cut

/-!
# Reassembly of the fragments of a datagram

The fragments of a datagram arrive in any order and any number of times.  A queue is in order, when
the fragments before some place are there and no others, or its pieces are marked, and the holes are
counted.
-/

namespace Sol25.Ip

open List Option Nat Function

variable {d : Cut} {i : ℕ} {f : Fragment} {chain : List (List UInt8)} {junk : ℤ} {slot : Option Ipf}
  {ipf ipf' : Ipf}
  {seen : List ℕ} {queue : List Block} {x : ℕ}

/-! ### The invariant -/

/-- A queue in order. -/
def Easy (d : Cut) (seen : List ℕ) (ipf : Ipf) : Prop :=
  ∃ m, m ≠ 0 ∧ m < d.frags.length ∧ ipf.ipfEnd = d.off m ∧ (∀ i, i ∈ seen ↔ i < m) ∧
    ∃ data rest, ipf.queue.map Block.bytes = (d.first.header ++ data) :: rest ∧
      data ++ rest.flatten = d.payload.take (d.off m)

/-- The right bytes of the payload. -/
def payloadAt (d : Cut) (p : ℕ) (b : UInt8) : Prop := d.payload[p]? = some b

/-- The right header. -/
def headerIs (d : Cut) (header : List UInt8) : Prop := header = d.first.header

structure Hard (d : Cut) (seen : List ℕ) (ipf : Ipf) : Prop where
  mode : ipf.ipfEnd = 0
  ordered : Ordered 0 ipf.queue
  sound : ∀ b ∈ ipf.queue, Sound (payloadAt d) (headerIs d) b
  bound : ∀ b ∈ ipf.queue, b.stop ≤ d.payload.length
  apart : ∀ b ∈ ipf.queue, ∀ i < d.frags.length, i ∉ seen → b.stop ≤ d.off i ∨
    d.off (i + 1) ≤ b.start
  covers : ∀ i ∈ seen, i < d.frags.length ∧ ∀ x, d.off i ≤ x → x < d.off (i + 1) →
    Covers ipf.queue x
  below : d.frags.length - 1 ∉ seen → ∀ b ∈ ipf.queue, b.stop ≤ d.off (d.frags.length - 1)
  hole : tailHole ipf.queue ipf.holeCnt = if d.frags.length - 1 ∈ seen then 0 else 1

/-- Every fragment is there. -/
def Present (d : Cut) (seen : List ℕ) : Prop := ∀ i < d.frags.length, i ∈ seen

theorem getElem?_of_lt (lt : i < d.frags.length) : ∃ f, d.frags[i]? = some f :=
  ⟨_, getElem?_eq_getElem lt⟩

theorem Hard.queue_ne (hard : Hard d seen ipf) (ne : seen ≠ []) : ipf.queue ≠ [] := by
  obtain ⟨i, mem⟩ := exists_mem_of_ne_nil seen ne
  obtain ⟨lt, covers⟩ := hard.covers i mem
  obtain ⟨f, here⟩ := getElem?_of_lt lt
  obtain ⟨b, mem, -⟩ := covers (d.off i) (le_refl _) (off_lt here)
  exact ne_nil_of_mem mem

theorem Hard.mem_of_covers (hard : Hard d seen ipf) (lt : i < d.frags.length)
    (covered : Covers ipf.queue (d.off i)) :
    i ∈ seen := by
  by_contra not_mem
  obtain ⟨f, here⟩ := getElem?_of_lt lt
  obtain ⟨b, mem, start_le, stop_gt⟩ := covered
  have far := hard.apart b mem i lt not_mem
  have one := off_lt here
  omega

theorem exists_fragment (lt : x < d.payload.length) :
    ∃ i < d.frags.length, d.off i ≤ x ∧ x < d.off (i + 1) := by
  rw [← off_length] at lt
  generalize d.frags.length = n at lt ⊢
  induction n with
  | zero =>
    rw [off_zero] at lt
    omega
  | succ n ih =>
    by_cases inside : x < d.off n
    · obtain ⟨i, i_lt, here⟩ := ih inside
      exact ⟨i, by omega, here⟩
    · exact ⟨n, by omega, by omega, lt⟩

theorem Hard.stop_le (hard : Hard d seen ipf) : stopOf 0 ipf.queue ≤ d.payload.length := by
  cases tail_eq : ipf.queue.getLast? with
  | none =>
    rw [getLast?_eq_none_iff.1 tail_eq]
    exact zero_le _
  | some tail =>
    rw [stopOf_getLast tail_eq]
    exact hard.bound tail (mem_of_getLast? tail_eq)

theorem Hard.stop_eq (hard : Hard d seen ipf) (last : d.frags.length - 1 ∈ seen) :
    stopOf 0 ipf.queue = d.payload.length := by
  have two := d.two
  have le := hard.stop_le
  obtain ⟨lt, covers⟩ := hard.covers _ last
  obtain ⟨f, here⟩ := getElem?_of_lt lt
  have end_eq : d.off (d.frags.length - 1 + 1) = d.payload.length := by
    rw [Nat.sub_add_cancel (by omega)]
    exact off_length
  have before := off_lt here
  rw [end_eq] at covers before
  obtain ⟨b, mem, -, stop_gt⟩ := covers (d.payload.length - 1) (by omega) (by omega)
  have far := hard.ordered.stop_le mem
  omega

/-- No holes are left when all fragments are there. -/
theorem Hard.done_iff (hard : Hard d seen ipf) (ne : seen ≠ []) :
    ipf.holeCnt = 0 ↔ Present d seen := by
  have two := d.two
  have hole := hard.hole
  have nonneg := @gaps_nonneg ipf.queue 0
  rw [tailHole, if_neg (hard.queue_ne ne)] at hole
  constructor
  · intro none_left
    have last : d.frags.length - 1 ∈ seen := by
      by_contra not_last
      rw [if_neg not_last] at hole
      omega
    rw [if_pos last] at hole
    intro i lt
    obtain ⟨f, here⟩ := getElem?_of_lt lt
    refine hard.mem_of_covers lt
      (@covers_of_gaps ipf.queue 0 (by omega) (d.off i) (zero_le _) ?_)
    rw [hard.stop_eq last]
    exact lt_of_lt_of_le (off_lt here) (off_le (i + 1))
  · intro present
    have last := present (d.frags.length - 1) (by omega)
    have whole : gaps 0 ipf.queue = 0 := by
      refine gaps_of_covers hard.ordered fun x _ lt => ?_
      rw [hard.stop_eq last] at lt
      obtain ⟨i, i_lt, ge, lt⟩ := exists_fragment lt
      exact (hard.covers i (present i i_lt)).2 x ge lt
    rw [if_pos last] at hole
    omega

/-! ### What is passed on -/

/-- The header and the payload go on. -/
def Passed (d : Cut) (outcome : Option Outcome) : Prop :=
  ∃ queue mp, outcome = some (.complete queue mp) ∧ mp.flatten = d.header ++ d.payload

theorem complete_passed {data : List UInt8} {rest : List (List UInt8)}
    (queue_eq : queue.map Block.bytes = (d.first.header ++ data) :: rest)
    (data_eq : data ++ rest.flatten = d.payload) :
    Passed d (complete queue) := by
  have lt := @payload_lt d
  have size_eq : ((d.first.header ++ data) :: rest).flatten.length % 2 ^ 16 =
      d.first.header.length + d.payload.length := by
    rw [flatten_cons, append_assoc, data_eq, length_append, mod_eq_of_lt lt]
  have restored := restore_eq queue_eq (d.headers _ first_mem)
  rw [size_eq] at restored
  refine ⟨queue, _, by rw [complete, restored, map_some], ?_⟩
  rw [flatten_cons, append_assoc, data_eq, Cut.header]

/-- A queue without holes is passed on. -/
theorem Hard.passed (hard : Hard d seen ipf) (ne : seen ≠ []) (none_left : ipf.holeCnt = 0) :
    Passed d (complete ipf.queue) := by
  have two := d.two
  have present := (hard.done_iff ne).1 none_left
  have last := present (d.frags.length - 1) (by omega)
  have hole := hard.hole
  rw [tailHole, if_neg (hard.queue_ne ne), if_pos last] at hole
  obtain ⟨header, data, rest, queue_eq, -, header_eq, length_eq, right⟩ :=
    join hard.ordered (hard.queue_ne ne) hard.sound (by omega)
  rw [headerIs] at header_eq
  subst header_eq
  refine complete_passed queue_eq (ext_getElem? fun k => ?_)
  rw [hard.stop_eq last] at length_eq
  cases at_k : (data ++ rest.flatten)[k]? with
  | none =>
    have far := List.getElem?_eq_none_iff.1 at_k
    exact (List.getElem?_eq_none_iff.2 (by omega)).symm
  | some b => exact (right k b at_k).symm

/-! ### Fragments that go to marked pieces -/

theorem body_of_pos {data : List UInt8} {rest : List (List UInt8)} (pos : i ≠ 0) :
    body f i ((f.header ++ data) :: rest) = data :: rest := by
  rw [body, if_neg pos, drop_left]

theorem first_of_zero (here : d.frags[0]? = some f) : f = d.first := by
  rw [first_eq] at here
  exact (some.inj here).symm

theorem more_zero : d.more 0 = true := by
  have two := d.two
  rw [Cut.more, decide_eq_true_iff]
  omega

/-- A fragment that is not there yet. -/
theorem Hard.pieces_new (hard : Hard d seen ipf) (here : d.frags[i]? = some f)
    (arrives : Arrives f chain)
    (long : i = 0 → ∀ first, chain.head? = some first → d.first.header.length < first.length)
    (few : i + 1 = d.frags.length → filled (body f i chain) ≤ 1) (new : i ∉ seen) :
    ∃ ipf', pieces (d.more i) (body f i chain) (d.off i) ipf = some ipf' ∧
      Grown (payloadAt d) (headerIs d) (d.off i) (d.off (i + 1))
        (if d.more i then 0 else 1) ipf ipf' := by
  have inside := (List.getElem?_eq_some_iff.1 here).1
  have end_le := @off_le d (i + 1)
  have fits := @payload_lt d
  have apart := fun b mem => hard.apart b mem i inside new
  obtain ⟨data, rest, rfl, data_eq⟩ := arrives.split
  have right : ∀ k b, (data ++ rest.flatten)[k]? = some b → payloadAt d (d.off i + k) b := by
    rw [data_eq]
    exact payload_at here
  have end_eq : d.off i + (data ++ rest.flatten).length = d.off (i + 1) := by
    rw [data_eq, off_succ here]
  by_cases zero : i = 0
  · subst zero
    obtain rfl := first_of_zero here
    rw [off_zero] at apart right end_eq ⊢
    have data_ne : data ≠ [] := by
      rintro rfl
      have longer := long rfl _ rfl
      rw [append_nil] at longer
      omega
    have data_pos := length_pos_iff.2 data_ne
    rw [length_append] at end_eq
    obtain ⟨first_right, rest_right⟩ := getElem?_ok right
    have sound : Sound (payloadAt d) (headerIs d) ⟨0, data.length, d.first.header ++ data⟩ := by
      refine ⟨d.first.header, data, rfl, Nat.zero_add _, first_right, ?_⟩
      rw [if_pos rfl]
      exact ⟨data_pos, d.headers _ first_mem, rfl⟩
    obtain ⟨queue, holeCnt, placed, grown⟩ :=
      @place_grown (payloadAt d) ⟨0, data.length, d.first.header ++ data⟩ ipf true
      (headerIs d) hard.ordered hard.sound sound data_pos
      (fun c mem => by
        have far := apart c mem
        dsimp only
        omega)
      nofun
    rw [zero_add] at rest_right
    obtain ⟨ipf', looped, grown'⟩ := @pieces_apart (payloadAt d) data.length (d.off (0 + 1)) rest
      { ipf with queue := queue, holeCnt := holeCnt } true (headerIs d)
        (by omega) grown.ordered grown.sound rest_right (by omega)
      (by omega)
      (fun c mem => by
        rcases grown.within c mem with mem | ⟨-, stop_le⟩
        · have far := apart c mem
          omega
        · exact .inl stop_le)
      nofun
    rw [body, if_pos rfl, more_zero, pieces_first (d.headers _ first_mem) data_ne (by omega),
      placed]
    refine ⟨ipf', looped, ?_⟩
    have total := grown.trans grown' (zero_le _) (by dsimp only; omega)
    simpa using total
  · rw [body_of_pos zero] at few ⊢
    have last : d.more i = false → (∀ b ∈ ipf.queue, b.stop ≤ d.off i) ∧
        filled (data :: rest) ≤ 1 := by
      intro is_last
      rw [Cut.more, decide_eq_false_iff_not, not_not] at is_last
      have last_eq : d.frags.length - 1 = i := by omega
      have below := hard.below
      rw [last_eq] at below
      exact ⟨below new, few is_last⟩
    obtain ⟨ipf', looped, grown⟩ :=
      @pieces_apart (payloadAt d) (d.off i) (d.off (i + 1)) (data :: rest) ipf (d.more i)
        (headerIs d)
      (off_pos zero) hard.ordered hard.sound right end_eq (by omega) apart last
    refine ⟨ipf', looped, ?_⟩
    cases more_eq : d.more i with
    | true =>
      rw [more_eq] at grown
      exact grown
    | false =>
      rw [more_eq] at grown last
      have some_filled : filled (data :: rest) ≠ 0 := by
        intro none_filled
        rw [filled, countP_eq_zero] at none_filled
        have empty : (data :: rest).flatten = [] := by
          rw [flatten_eq_nil_iff]
          intro mp mem
          simpa using none_filled mp mem
        rw [flatten_cons, data_eq] at empty
        exact d.carries f (mem_of_getElem? here) empty
      have one_filled : filled (data :: rest) = 1 := by
        have few := (last rfl).2
        omega
      rw [one_filled] at grown
      exact grown

/-- A fragment that is there already. -/
theorem Hard.pieces_old (hard : Hard d seen ipf) (here : d.frags[i]? = some f)
    (arrives : Arrives f chain)
    (long : i = 0 → ∀ first, chain.head? = some first → d.first.header.length < first.length)
    (old : i ∈ seen) :
    pieces (d.more i) (body f i chain) (d.off i) ipf = some ipf := by
  have end_le := @off_le d (i + 1)
  have fits := @payload_lt d
  have covers := (hard.covers i old).2
  obtain ⟨data, rest, rfl, data_eq⟩ := arrives.split
  have end_eq : d.off i + (data ++ rest.flatten).length = d.off (i + 1) := by
    rw [data_eq, off_succ here]
  by_cases zero : i = 0
  · subst zero
    obtain rfl := first_of_zero here
    rw [off_zero] at covers end_eq ⊢
    have data_ne : data ≠ [] := by
      rintro rfl
      have longer := long rfl _ rfl
      rw [append_nil] at longer
      omega
    have data_pos := length_pos_iff.2 data_ne
    rw [length_append] at end_eq
    rw [body, if_pos rfl, pieces_first (d.headers _ first_mem) data_ne (by omega), @place_covered _
        ⟨0, data.length, d.first.header ++ data⟩ ipf.holeCnt ipf.queue hard.ordered data_pos
          (fun x ge lt => covers x ge (by dsimp only at lt; omega))
            (by dsimp only; rw [length_append]; omega)]
    exact pieces_covered (by omega) hard.ordered
      (by omega : data.length + rest.flatten.length = d.off (0 + 1)) (by omega)
      fun x ge lt => covers x (by omega) lt
  · rw [body_of_pos zero]
    exact pieces_covered (off_pos zero) hard.ordered end_eq (by omega) covers

/-- A new fragment is put between the others. -/
theorem Hard.grown (hard : Hard d seen ipf) (inside : i < d.frags.length) (new : i ∉ seen)
    (grown : Grown (payloadAt d) (headerIs d) (d.off i) (d.off (i + 1))
      (if d.more i then 0 else 1) ipf ipf') :
    Hard d (i :: seen) ipf' where
  mode := grown.mode.trans hard.mode
  ordered := grown.ordered
  sound := grown.sound
  bound := by
    intro b mem
    rcases grown.within b mem with mem | ⟨-, stop_le⟩
    · exact hard.bound b mem
    · exact stop_le.trans (off_le (i + 1))
  apart := by
    intro b mem j lt not_mem
    rw [mem_cons, not_or] at not_mem
    rcases grown.within b mem with mem | ⟨start_ge, stop_le⟩
    · exact hard.apart b mem j lt not_mem.2
    · rcases Nat.lt_or_ge i j with before | behind
      · exact .inl (stop_le.trans (off_mono before))
      · exact .inr ((off_mono (by omega)).trans start_ge)
  covers := by
    intro j mem
    rcases mem_cons.1 mem with rfl | mem
    · exact ⟨inside, grown.covers⟩
    · refine ⟨(hard.covers j mem).1, fun x ge lt => ?_⟩
      obtain ⟨b, mem, here⟩ := (hard.covers j mem).2 x ge lt
      exact ⟨b, grown.kept b mem, here⟩
  below := by
    intro not_mem b mem
    rw [mem_cons, not_or] at not_mem
    rcases grown.within b mem with mem | ⟨-, stop_le⟩
    · exact hard.below not_mem.2 b mem
    · exact stop_le.trans (off_mono (by omega))
  hole := by
    have two := d.two
    rw [grown.hole, hard.hole]
    by_cases last : i + 1 = d.frags.length
    · have last_eq : d.frags.length - 1 = i := by omega
      have more_eq : d.more i = false := by
        rw [Cut.more, decide_eq_false_iff_not, not_not]; exact last
      rw [last_eq, if_neg new, more_eq, if_pos mem_cons_self]
      rfl
    · have last_ne : d.frags.length - 1 ≠ i := by omega
      have more_eq : d.more i = true := by rw [Cut.more, decide_eq_true_iff]; exact last
      rw [more_eq, if_pos rfl, sub_zero]
      simp only [mem_cons, last_ne, false_or]

theorem Hard.again (hard : Hard d seen ipf) (old : i ∈ seen) : Hard d (i :: seen) ipf := by
  have same : ∀ j, j ∈ i :: seen ↔ j ∈ seen := by
    intro j
    rw [mem_cons, or_iff_right_iff_imp]
    rintro rfl
    exact old
  refine ⟨hard.mode, hard.ordered, hard.sound, hard.bound, ?_, ?_, ?_, ?_⟩
  · simpa only [same] using hard.apart
  · simpa only [same] using hard.covers
  · simpa only [same] using hard.below
  · simpa only [same] using hard.hole

theorem Hard.arrive (hard : Hard d seen ipf) (here : d.frags[i]? = some f)
    (arrives : Arrives f chain)
    (long : i = 0 → ∀ first, chain.head? = some first → d.first.header.length < first.length)
    (few : i + 1 = d.frags.length → i ∉ seen → filled (body f i chain) ≤ 1) :
    ∃ ipf', pieces (d.more i) (body f i chain) (d.off i) ipf = some ipf' ∧
      Hard d (i :: seen) ipf' := by
  by_cases old : i ∈ seen
  · exact ⟨ipf, hard.pieces_old here arrives long old, hard.again old⟩
  · obtain ⟨ipf', looped, grown⟩ := hard.pieces_new here arrives long (fun last => few last old) old
    exact ⟨ipf', looped, hard.grown (List.getElem?_eq_some_iff.1 here).1 old grown⟩

theorem Hard.empty : Hard d [] ⟨[], junk, 0⟩ where
  mode := rfl
  ordered := trivial
  sound := fun _ => nofun
  bound := fun _ => nofun
  apart := fun _ => nofun
  covers := fun _ => nofun
  below := fun _ _ => nofun
  hole := by
    rw [tailHole, if_pos rfl, if_neg (by simp)]

/-- The switch from a queue in order to marked pieces. -/
theorem Easy.mark (easy : Easy d seen ipf)
    (long : ∀ b, ipf.queue.head? = some b → d.first.header.length < b.bytes.length) :
    ∃ marks, mark 0 ipf.queue = some marks ∧ Hard d seen ⟨marks, 1, 0⟩ := by
  obtain ⟨m, pos, inside, end_eq, seen_iff, data, rest, queue_eq, data_eq⟩ := easy
  have fits := @payload_lt d
  have le := @off_le d m
  have two := d.two
  have size_eq : (data ++ rest.flatten).length = d.off m := by
    rw [data_eq, length_take, Nat.min_eq_left le]
  have data_ne : data ≠ [] := by
    rintro rfl
    cases queue_is : ipf.queue with
    | nil =>
      rw [queue_is] at queue_eq
      exact nomatch queue_eq
    | cons b queue =>
      have longer := long b (by rw [queue_is]; rfl)
      rw [queue_is, map_cons, cons.injEq, append_nil] at queue_eq
      rw [queue_eq.1] at longer
      omega
  have right : ∀ k b, (data ++ rest.flatten)[k]? = some b → payloadAt d k b := by
    intro k b at_k
    have k_lt := (List.getElem?_eq_some_iff.1 at_k).1
    rw [data_eq, getElem?_take_of_lt (by omega)] at at_k
    exact at_k
  obtain ⟨marks, marks_eq, marked⟩ :=
    @mark_start (payloadAt d) ipf.queue (headerIs d) d.first.header data rest queue_eq
    (d.headers _ first_mem) rfl data_ne (by omega) right
  rw [size_eq] at marked
  have m_pos := @off_pos d m pos
  have ne : marks ≠ [] := by
    rintro rfl
    have stop_eq := marked.stop
    rw [stopOf] at stop_eq
    omega
  have stop_le : ∀ b ∈ marks, b.stop ≤ d.off m :=
    fun b mem => marked.stop ▸ marked.ordered.stop_le mem
  refine ⟨marks, marks_eq, rfl, marked.ordered, marked.sound, fun b mem => (stop_le b mem).trans le,
    ?_, ?_, ?_, ?_⟩
  · intro b mem j _ not_mem
    rw [seen_iff] at not_mem
    exact .inl ((stop_le b mem).trans (off_mono (by omega)))
  · intro j mem
    rw [seen_iff] at mem
    refine ⟨by omega, fun x _ lt => covers_of_gaps marked.whole (zero_le x) ?_⟩
    rw [marked.stop]
    exact lt_of_lt_of_le lt (off_mono mem)
  · exact fun _ b mem => (stop_le b mem).trans (off_mono (by omega))
  · dsimp only
    rw [tailHole, if_neg ne, marked.whole, sub_zero, if_neg]
    rw [seen_iff]
    omega

/-! ### Runs -/

/-- What is queued, with the fragments that came since the queue was made. -/
def Inv (d : Cut) (slot : Option Ipf) (seen : List ℕ) : Prop :=
  match slot with
  | none => seen = []
  | some ipf => seen ≠ [] ∧ (Easy d seen ipf ∨ Hard d seen ipf)

/-- The datagram is passed on when all fragments are there, and not before. -/
def Delivers (d : Cut) (seen : List ℕ) (outcome : Option Outcome) : Prop :=
  (Present d seen → Passed d outcome) ∧ (¬ Present d seen → ∃ ipf, outcome = some (.queued ipf))

/-- A fragment that does not go to the end of a queue in order goes to `ip_reassemble`. -/
def Reassembled (d : Cut) (slot : Option Ipf) (i : ℕ) : Prop :=
  match slot with
  | none => i ≠ 0
  | some ipf => ¬ (i ≠ 0 ∧ ipf.ipfEnd = d.off i)

/-- Where `ip_reassemble` does what it should: the first block of a queue in order, and of a first
fragment, is longer than its header, and a last fragment that is not there yet has its payload in
one block. -/
def Proper (d : Cut) (slot : Option Ipf) (seen : List ℕ) (i : ℕ) (f : Fragment)
    (chain : List (List UInt8)) : Prop :=
  Reassembled d slot i →
    (∀ ipf, slot = some ipf → ipf.ipfEnd ≠ 0 → ∀ b, ipf.queue.head? = some b →
      d.first.header.length < b.bytes.length) ∧
    (i = 0 → ∀ first, chain.head? = some first → d.first.header.length < first.length) ∧
    (i + 1 = d.frags.length → i ∉ seen → filled (body f i chain) ≤ 1)

/-- The fragments of a datagram come in any order and any number of times. -/
inductive Reach (d : Cut) (proper : Option Ipf → List ℕ → ℕ → Fragment → List (List UInt8) → Prop) :
    Option Ipf → List ℕ → Prop
  | start : Reach d proper none []
  | queued {slot : Option Ipf} {seen : List ℕ} {i : ℕ} {f : Fragment} {chain : List (List UInt8)}
      {junk : ℤ} {ipf : Ipf}
      (before : Reach d proper slot seen) (here : d.frags[i]? = some f) (arrives : Arrives f chain)
      (step : proper slot seen i f chain)
        (next : ipRputLocal junk slot chain = some (.queued ipf)) :
      Reach d proper (some ipf) (i :: seen)
  | complete {slot : Option Ipf} {seen : List ℕ} {i : ℕ} {f : Fragment}
      {chain : List (List UInt8)} {junk : ℤ}
      {queue : List Block} {mp : List (List UInt8)}
      (before : Reach d proper slot seen) (here : d.frags[i]? = some f) (arrives : Arrives f chain)
      (step : proper slot seen i f chain)
        (next : ipRputLocal junk slot chain = some (.complete queue mp)) :
      Reach d proper none []

theorem not_present_one (i : ℕ) : ¬ Present d [i] := by
  intro present
  have two := d.two
  have zero := mem_singleton.1 (present 0 (by omega))
  have one := mem_singleton.1 (present 1 (by omega))
  omega

theorem payload_take (here : d.frags[i]? = some f) :
    d.payload.take (d.off (i + 1)) = d.payload.take (d.off i) ++ f.data := by
  refine ext_getElem? fun k => ?_
  have le := @off_le d (i + 1)
  have succ := off_succ here
  by_cases before : k < d.off i
  · rw [getElem?_take_of_lt (by omega),
      getElem?_append_left (by rw [length_take]; omega), getElem?_take_of_lt before]
  · rw [getElem?_append_right (by rw [length_take]; omega), length_take, Nat.min_eq_left (by omega)]
    by_cases inside : k < d.off (i + 1)
    · rw [getElem?_take_of_lt inside, getElem?_eq_getElem (by omega : k - d.off i < f.data.length)]
      have right := payload_at here (k - d.off i) _ (getElem?_eq_getElem (by omega))
      rwa [show d.off i + (k - d.off i) = k by omega] at right
    · rw [List.getElem?_eq_none_iff.2 (by rw [length_take]; omega),
        List.getElem?_eq_none_iff.2 (by omega)]

theorem Easy.first (arrives : Arrives d.first chain) :
    Easy d [0] ⟨(body d.first 0 chain).map unmarked, junk, d.off 1⟩ := by
  have two := d.two
  obtain ⟨data, rest, rfl, data_eq⟩ := arrives.split
  refine ⟨1, by omega, by omega, rfl, fun i => by rw [mem_singleton]; omega, data, rest, ?_, ?_⟩
  · simp [body, unmarked, comp_def]
  · rw [payload_take first_eq, off_zero, take_zero, data_eq, nil_append]

/-- The next fragment goes to the end of a queue in order. -/
theorem Easy.next (easy : Easy d seen ipf) (here : d.frags[i]? = some f) (arrives : Arrives f chain)
    (pos : i ≠ 0) (at_end : ipf.ipfEnd = d.off i) :
    (∀ j, j ∈ i :: seen ↔ j < i + 1) ∧
      ∃ data rest, (ipf.queue ++ (body f i chain).map unmarked).map Block.bytes =
        (d.first.header ++ data) :: rest ∧
        data ++ rest.flatten = d.payload.take (d.off (i + 1)) := by
  obtain ⟨m, m_pos, inside, end_eq, seen_iff, data, rest, queue_eq, data_eq⟩ := easy
  obtain ⟨g, m_here⟩ := getElem?_of_lt inside
  obtain rfl : i = m := by
    rw [end_eq] at at_end
    have i_lt := off_lt here
    have m_lt := off_lt m_here
    rcases Nat.lt_trichotomy i m with lt | rfl | gt
    · have mono := @off_mono d (i + 1) m lt
      omega
    · rfl
    · have mono := @off_mono d (m + 1) i gt
      omega
  obtain ⟨new_data, new_rest, rfl, new_eq⟩ := arrives.split
  refine ⟨fun j => by rw [mem_cons, seen_iff]; omega, data, rest ++ new_data :: new_rest, ?_, ?_⟩
  · rw [body_of_pos pos, map_append, queue_eq]
    simp [unmarked, comp_def]
  · rw [payload_take here, ← data_eq, ← new_eq]
    simp

/-- The first arrival. -/
theorem step_none (here : d.frags[i]? = some f) (arrives : Arrives f chain)
    (proper : Proper d none [] i f chain) :
    ∃ ipf, ipRputLocal junk none chain = some (.queued ipf) ∧ Inv d (some ipf) [i] := by
  rw [ipRputLocal_arrives here arrives]
  dsimp only
  by_cases zero : i = 0
  · subst zero
    obtain rfl := first_of_zero here
    rw [if_pos rfl]
    exact ⟨_, rfl, cons_ne_nil 0 [], .inl (Easy.first arrives)⟩
  · obtain ⟨-, long, few⟩ := proper zero
    obtain ⟨ipf', looped, hard⟩ := (@Hard.empty d junk).arrive here arrives long few
    have left : ipf'.holeCnt ≠ 0 := fun none_left =>
      not_present_one i ((hard.done_iff (cons_ne_nil i [])).1 none_left)
    rw [if_neg zero, ipReassemble, if_neg (by simp)]
    dsimp only
    rw [looped, map_some, if_pos left]
    exact ⟨ipf', rfl, cons_ne_nil i [], .inr hard⟩

theorem Passed.not_queued {outcome : Option Outcome} (passed : Passed d outcome) :
    outcome ≠ some (.queued ipf) := by
  obtain ⟨queue, mp, rfl, -⟩ := passed
  exact nofun

/-- The next fragment of a queue in order. -/
theorem Easy.step (easy : Easy d seen ipf) (here : d.frags[i]? = some f) (arrives : Arrives f chain)
    (in_order : i ≠ 0 ∧ ipf.ipfEnd = d.off i) :
    Delivers d (i :: seen) (ipRputLocal junk (some ipf) chain) ∧
      ∀ ipf', ipRputLocal junk (some ipf) chain = some (.queued ipf') →
        Inv d (some ipf') (i :: seen) := by
  have two := d.two
  have inside := (List.getElem?_eq_some_iff.1 here).1
  obtain ⟨seen_iff, data, rest, queue_eq, data_eq⟩ := easy.next here arrives in_order.1 in_order.2
  rw [ipRputLocal_arrives here arrives]
  dsimp only
  rw [if_pos in_order]
  cases more_eq : d.more i with
  | true =>
    rw [Cut.more, decide_eq_true_iff] at more_eq
    rw [if_pos rfl]
    constructor
    · refine ⟨fun present => ?_, fun _ => ⟨_, rfl⟩⟩
      have last := (seen_iff (d.frags.length - 1)).1 (present _ (by omega))
      omega
    · rintro _ ⟨⟩
      exact ⟨cons_ne_nil i seen,
        .inl ⟨i + 1, by omega, by omega, rfl, seen_iff, data, rest, queue_eq, data_eq⟩⟩
  | false =>
    rw [Cut.more, decide_eq_false_iff_not, not_not] at more_eq
    rw [if_neg (by simp)]
    rw [more_eq, off_length, take_length] at data_eq
    have passed := complete_passed queue_eq data_eq
    exact ⟨⟨fun _ => passed, fun absent => absurd (fun j lt => (seen_iff j).2 (by omega)) absent⟩,
      fun _ queued => absurd queued passed.not_queued⟩

/-- A fragment that goes to `ip_reassemble`. -/
theorem step_reassembled (mode : Easy d seen ipf ∨ Hard d seen ipf) (here : d.frags[i]? = some f)
    (arrives : Arrives f chain) (proper : Proper d (some ipf) seen i f chain)
    (not_in_order : ¬ (i ≠ 0 ∧ ipf.ipfEnd = d.off i)) :
    Delivers d (i :: seen) (ipRputLocal junk (some ipf) chain) ∧
      ∀ ipf', ipRputLocal junk (some ipf) chain = some (.queued ipf') →
        Inv d (some ipf') (i :: seen) := by
  obtain ⟨marked_long, long, few⟩ := proper not_in_order
  obtain ⟨marks, marks_eq, hard⟩ : ∃ marks,
    (if ipf.ipfEnd ≠ 0 then (mark 0 ipf.queue).map fun queue => (⟨queue, 1, 0⟩ : Ipf)
      else some ipf) = some marks ∧ Hard d seen marks := by
    rcases mode with easy | hard
    · obtain ⟨m, m_pos, -, end_eq, -⟩ := id easy
      have in_order : ipf.ipfEnd ≠ 0 := by
        rw [end_eq]
        exact off_pos m_pos
      obtain ⟨marks, marks_eq, hard⟩ := easy.mark (marked_long ipf rfl in_order)
      exact ⟨_, by rw [if_pos in_order, marks_eq, map_some], hard⟩
    · exact ⟨ipf, by rw [if_neg (by simpa using hard.mode)], hard⟩
  obtain ⟨ipf', looped, hard'⟩ := hard.arrive here arrives long few
  rw [ipRputLocal_arrives here arrives]
  dsimp only
  rw [if_neg not_in_order, ipReassemble]
  rw [marks_eq]
  dsimp only
  rw [looped, map_some]
  have done_iff := hard'.done_iff (cons_ne_nil i seen)
  by_cases left : ipf'.holeCnt ≠ 0
  · rw [if_pos left]
    refine ⟨⟨fun present => absurd (done_iff.2 present) left, fun _ => ⟨ipf', rfl⟩⟩, ?_⟩
    rintro _ ⟨⟩
    exact ⟨cons_ne_nil i seen, .inr hard'⟩
  · rw [if_neg left]
    have passed := hard'.passed (cons_ne_nil i seen) (not_not.1 left)
    exact ⟨⟨fun _ => passed, fun absent => absurd (done_iff.1 (not_not.1 left)) absent⟩,
      fun _ queued => absurd queued passed.not_queued⟩

/-- What an arrival does. -/
theorem Inv.step (inv : Inv d slot seen) (here : d.frags[i]? = some f) (arrives : Arrives f chain)
    (proper : Proper d slot seen i f chain) :
    Delivers d (i :: seen) (ipRputLocal junk slot chain) ∧
      ∀ ipf, ipRputLocal junk slot chain = some (.queued ipf) → Inv d (some ipf) (i :: seen) := by
  cases slot with
  | none =>
    obtain rfl : seen = [] := inv
    obtain ⟨ipf, queued, next⟩ := @step_none d i f chain junk here arrives proper
    rw [queued]
    refine ⟨⟨fun present => absurd present (not_present_one i), fun _ => ⟨ipf, rfl⟩⟩, ?_⟩
    rintro _ ⟨⟩
    exact next
  | some ipf =>
    obtain ⟨-, mode⟩ := inv
    by_cases in_order : i ≠ 0 ∧ ipf.ipfEnd = d.off i
    · rcases mode with easy | hard
      · exact easy.step here arrives in_order
      · rw [hard.mode] at in_order
        exact absurd in_order.2.symm (off_pos in_order.1)
    · exact step_reassembled mode here arrives proper in_order

theorem Reach.inv (reach : Reach d (Proper d) slot seen) : Inv d slot seen := by
  induction reach with
  | start => rfl
  | queued _ here arrives proper next inv => exact (inv.step here arrives proper).2 _ next
  | complete => rfl

/-- The datagram is passed on with the arrival of the last of its fragments, whatever their
order. -/
theorem passed_when_present (reach : Reach d (Proper d) slot seen) (here : d.frags[i]? = some f)
    (arrives : Arrives f chain) (proper : Proper d slot seen i f chain) :
    Delivers d (i :: seen) (ipRputLocal junk slot chain) :=
  (reach.inv.step here arrives proper).1

/-! ### A datagram of three fragments -/

/-- The payload of the last fragment. -/
def lastData : List UInt8 := [17, 18, 19, 20, 21, 22, 23, 24, 25, 26, 27, 28, 29, 30, 31, 32]

def threeFrags : List Fragment :=
  [⟨shortHeader 28 0x2000, [1, 2, 3, 4, 5, 6, 7, 8]⟩,
    ⟨shortHeader 28 0x2001, [9, 10, 11, 12, 13, 14, 15, 16]⟩,
    ⟨shortHeader 36 0x0002, lastData⟩]

/-- The datagram of these fragments. -/
def threeCut : Cut where
  frags := threeFrags
  two := by decide
  carries := by decide
  headers := by
    intro f mem
    simp only [threeFrags, mem_cons, not_mem_nil, or_false] at mem
    rcases mem with rfl | rfl | rfl <;> exact ⟨rfl, by decide⟩
  lengths := by decide
  fields := by
    intro i f here
    match i with
    | 0 =>
      obtain rfl := some.inj here
      exact ⟨0x2000, rfl, rfl, by decide⟩
    | 1 =>
      obtain rfl := some.inj here
      exact ⟨0x2001, rfl, rfl, by decide⟩
    | 2 =>
      obtain rfl := some.inj here
      exact ⟨0x0002, rfl, rfl, by decide⟩
    | i + 3 => exact nomatch here
  fits := by
    intro f here
    obtain rfl := some.inj here
    decide

/-- The last of three fragments comes in one block, and then the first. -/
theorem passed_when_present_three :
    Delivers threeCut [0, 2] (ipRputLocal 0 (some ⟨[⟨16, 32, lastData⟩], 1, 0⟩)
      [shortHeader 28 0x2000 ++ [1, 2, 3, 4], [5, 6, 7, 8]]) := by
  have last : Reach threeCut (Proper threeCut) (some ⟨[⟨16, 32, lastData⟩], 1, 0⟩) [2] := by
    refine @Reach.queued _ _ none [] 2 ⟨shortHeader 36 0x0002, lastData⟩
      [shortHeader 36 0x0002 ++ lastData] 0 _ Reach.start rfl
      ⟨rfl, _, _, rfl, by decide⟩ ?_ (by decide +kernel)
    exact fun _ => ⟨fun _ => nofun, nofun, fun _ _ => by decide⟩
  refine @passed_when_present threeCut 0 ⟨shortHeader 28 0x2000, [1, 2, 3, 4, 5, 6, 7, 8]⟩
    [shortHeader 28 0x2000 ++ [1, 2, 3, 4], [5, 6, 7, 8]] 0 _
      [2] last rfl ⟨rfl, _, _, rfl, by decide⟩ ?_
  refine fun _ => ⟨?_, ?_, nofun⟩
  · rintro _ ⟨⟩ marked
    exact absurd rfl marked
  · rintro - _ ⟨⟩
    decide

/-- The last of three fragments comes in two blocks, and then the first, which is linked behind
them.  Without the second fragment, the blocks are passed on as a datagram. -/
theorem last_in_two_blocks :
    ¬ ∀ (d : Cut) (slot : Option Ipf) (seen : List ℕ) (i : ℕ) (f : Fragment)
      (chain : List (List UInt8)) (junk : ℤ),
      Reach d (fun _ _ _ _ _ => True) slot seen → d.frags[i]? = some f → Arrives f chain →
      Delivers d (i :: seen) (ipRputLocal junk slot chain) := by
  intro always
  have last : Reach threeCut (fun _ _ _ _ _ => True)
      (some ⟨[⟨0, 0, lastData.take 8⟩, ⟨0, 0, lastData.drop 8⟩], 0, 0⟩) [2] :=
    @Reach.queued _ _ none [] 2 ⟨shortHeader 36 0x0002, lastData⟩
      [shortHeader 36 0x0002 ++ lastData.take 8, lastData.drop 8] 0 _ Reach.start rfl
      ⟨rfl, _, _, rfl, by decide⟩ trivial (by decide +kernel)
  obtain ⟨-, waits⟩ := always threeCut _ [2] 0 ⟨shortHeader 28 0x2000, [1, 2, 3, 4, 5, 6, 7, 8]⟩
    [shortHeader 28 0x2000 ++ [1, 2, 3, 4, 5, 6, 7, 8]] 0 last rfl ⟨rfl, _, _, rfl, by decide⟩
  have absent : ¬ Present threeCut [0, 2] := by
    intro present
    exact absurd (present 1 (by decide)) (by decide)
  obtain ⟨ipf, queued⟩ := waits absent
  have passed : ipRputLocal 0
    (some ⟨[⟨0, 0, lastData.take 8⟩, ⟨0, 0, lastData.drop 8⟩], 0, 0⟩)
      [shortHeader 28 0x2000 ++ [1, 2, 3, 4, 5, 6, 7, 8]] =
        some (.complete [⟨0, 0, lastData.take 8⟩, ⟨0, 0, lastData.drop 8⟩,
          ⟨0, 8, shortHeader 28 0x2000 ++ [1, 2, 3, 4, 5, 6, 7, 8]⟩]
          [[17, 18, 0, 44, 21, 22, 0, 0], lastData.drop 8,
            shortHeader 28 0x2000 ++ [1, 2, 3, 4, 5, 6, 7, 8]]) := by decide +kernel
  rw [passed] at queued
  exact nomatch queued

end Sol25.Ip
