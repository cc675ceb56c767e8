import Mathlib.Data.List.Perm.Subperm
import Sol25.Data.Descending
import Sol25.Streams.Queue

/-!
# The order of a queue

High priority messages come first, then the bands from the highest down.  Both shortcuts of `putq`
and `putbq`, the end of the queue and the ends of a band, are legal because of that order.
-/

namespace Sol25.Streams

open List

namespace Flow

/-- The full flag is right, where the high-water mark is not 0. -/
def Right (f : Flow) : Prop := 0 < f.hiwat → (f.full = true ↔ f.hiwat ≤ f.count)

theorem right_fresh (hiwat lowat : ℕ) : (fresh hiwat lowat).Right := by
  intro positive
  simp only [fresh] at positive ⊢
  constructor
  · intro full
    exact Bool.noConfusion full
  · intro reaches
    omega

theorem Right.add {f : Flow} (right : f.Right) (size : ℕ) : (f.add size).Right := by
  intro positive
  simp only [Flow.add, Bool.or_eq_true, decide_eq_true_eq] at positive ⊢
  have := right positive
  constructor
  · rintro (full | reaches)
    · have := this.1 full
      omega
    · exact reaches
  · exact .inr

theorem Right.sub {f : Flow} (right : f.Right) (size : ℕ) : (f.sub size).Right := by
  intro positive
  simp only [Flow.sub, Bool.and_eq_true, Bool.not_eq_true', decide_eq_false_iff_not,
    not_lt] at positive ⊢
  refine ⟨And.right, fun reaches => ⟨?_, reaches⟩⟩
  exact (right positive).2 (by omega)

theorem right_zero (f : Flow) : f.zero.Right := right_fresh f.hiwat f.lowat

end Flow

namespace Queue

/-- The order of a message on the queue: above every band when it has high priority. -/
def rank (q : Queue) (x : ℕ) : ℕ :=
  if qpctl ≤ (q.msg x).type.val then 256 else (q.msg x).band.val

/-- The message belongs to the band. -/
def inBand (q : Queue) (band x : ℕ) : Bool := (q.msg x).band.val = band

/-- The messages of a band, among some messages. -/
def members (q : Queue) (band : ℕ) (cells : List ℕ) : List ℕ := cells.filter (q.inBand band)

def bytes (q : Queue) (band : ℕ) (cells : List ℕ) : ℕ :=
  ((q.members band cells).map fun x => (q.msg x).size).sum

/-- The flow control of a band. -/
def flowAt (q : Queue) (band : ℕ) : Option Flow :=
  if band = 0 then some q.flow else (q.bands[band - 1]?).map Qband.flow

/-- The queue holds these messages, in order, and its counts are theirs. -/
structure Consistent (q : Queue) (cells : List ℕ) : Prop where
  linked : q.links.Holds cells
  made : ∀ x ∈ cells, x < q.made
  /-- A high priority message is in band 0. -/
  high : ∀ x ∈ cells, qpctl ≤ (q.msg x).type.val → (q.msg x).band = 0
  sorted : Descending q.rank cells
  banded : ∀ x ∈ cells, (q.msg x).band.val ≤ q.nband
  first : ∀ i qb, q.bands[i]? = some qb → qb.first = (q.members (i + 1) cells).head?
  last : ∀ i qb, q.bands[i]? = some qb → qb.last = (q.members (i + 1) cells).getLast?
  count : ∀ band f, q.flowAt band = some f → f.count = q.bytes band cells
  full : ∀ band f, q.flowAt band = some f → f.Right

/-- The queue holds these messages, in whatever order, and the ends and the counts of its bands are
theirs. -/
structure Booked (q : Queue) (cells : List ℕ) : Prop where
  linked : q.links.Holds cells
  made : ∀ x ∈ cells, x < q.made
  high : ∀ x ∈ cells, qpctl ≤ (q.msg x).type.val → (q.msg x).band = 0
  banded : ∀ x ∈ cells, (q.msg x).band.val ≤ q.nband
  first : ∀ i qb, q.bands[i]? = some qb → qb.first = (q.members (i + 1) cells).head?
  last : ∀ i qb, q.bands[i]? = some qb → qb.last = (q.members (i + 1) cells).getLast?
  count : ∀ band f, q.flowAt band = some f → f.count = q.bytes band cells

theorem Consistent.booked {q : Queue} {cells : List ℕ} (consistent : Consistent q cells) :
    Booked q cells :=
  ⟨consistent.linked, consistent.made, consistent.high, consistent.banded, consistent.first,
    consistent.last,
    consistent.count⟩

theorem Consistent.of_empty {q : Queue} (linked : q.links.Holds [])
    (bands : ∀ (i : ℕ) qb, q.bands[i]? = some qb → qb.first = none ∧ qb.last = none)
    (flows : ∀ b f, q.flowAt b = some f → f.count = 0 ∧ f.Right) : Consistent q [] :=
  ⟨linked, by simp, by simp, List.Pairwise.nil, by simp, fun i qb band => (bands i qb band).1,
    fun i qb band => (bands i qb band).2, fun b f flow => (flows b f flow).1,
    fun b f flow => (flows b f flow).2⟩

/-! ### Ranks and bands -/

variable {q q' : Queue} {cells front back : List ℕ} {x y band : ℕ}

theorem queclass_high (high : qpctl ≤ (q.msg x).type.val) : queclass (q.msg x) = qpctl :=
  if_pos high

theorem queclass_normal (normal : ¬ qpctl ≤ (q.msg x).type.val) : queclass (q.msg x) = qnorm :=
  if_neg normal

theorem rank_le (q : Queue) (x : ℕ) : q.rank x ≤ 256 := by
  have := (q.msg x).band.isLt
  simp only [rank]
  split <;> omega

theorem rank_high (high : qpctl ≤ (q.msg x).type.val) : q.rank x = 256 := if_pos high

theorem rank_normal (normal : ¬ qpctl ≤ (q.msg x).type.val) :
    q.rank x = (q.msg x).band.val := if_neg normal

theorem rank_eq_256_iff : q.rank x = 256 ↔ qpctl ≤ (q.msg x).type.val := by
  have := (q.msg x).band.isLt
  constructor
  · intro top
    by_contra normal
    rw [rank_normal normal] at top
    omega
  · exact rank_high

theorem inBand_eq (high : qpctl ≤ (q.msg x).type.val → (q.msg x).band = 0) (positive : 0 < band)
    (small : band < 256) : q.inBand band x = decide (q.rank x = band) := by
  rw [inBand, decide_eq_decide]
  by_cases is_high : qpctl ≤ (q.msg x).type.val
  · have zero := high is_high
    rw [rank_high is_high, zero]
    constructor
    · intro same
      simp only [Fin.val_zero] at same
      omega
    · intro same
      omega
  · rw [rank_normal is_high]

theorem members_eq (high : ∀ x ∈ cells, qpctl ≤ (q.msg x).type.val → (q.msg x).band = 0)
    (positive : 0 < band) (small : band < 256) :
    q.members band cells = cells.filter fun x => decide (q.rank x = band) := by
  refine filter_congr ?_
  intro x member
  exact inBand_eq (high x member) positive small

@[simp] theorem members_append (q : Queue) (band : ℕ) (front back : List ℕ) :
    q.members band (front ++ back) = q.members band front ++ q.members band back :=
  filter_append ..

theorem members_cons_pos (inside : q.inBand band x = true) (cells : List ℕ) :
    q.members band (x :: cells) = x :: q.members band cells :=
  filter_cons_of_pos inside

theorem members_cons_neg (outside : q.inBand band x = false) (cells : List ℕ) :
    q.members band (x :: cells) = q.members band cells :=
  filter_cons_of_neg (by simp [outside])

theorem members_congr (same : ∀ x ∈ cells, q'.msg x = q.msg x) (band : ℕ) :
    q'.members band cells = q.members band cells := by
  refine filter_congr ?_
  intro x member
  simp only [inBand, same x member]

theorem bytes_congr (same : ∀ x ∈ cells, q'.msg x = q.msg x) (band : ℕ) :
    q'.bytes band cells = q.bytes band cells := by
  simp only [bytes, members_congr same]
  congr 1
  refine map_congr_left ?_
  intro x member
  rw [same x (mem_of_mem_filter member)]

@[simp] theorem bytes_append (q : Queue) (band : ℕ) (front back : List ℕ) :
    q.bytes band (front ++ back) = q.bytes band front + q.bytes band back := by
  simp [bytes]

theorem bytes_cons_pos (inside : q.inBand band x = true) (cells : List ℕ) :
    q.bytes band (x :: cells) = (q.msg x).size + q.bytes band cells := by
  simp [bytes, members_cons_pos inside]

theorem bytes_cons_neg (outside : q.inBand band x = false) (cells : List ℕ) :
    q.bytes band (x :: cells) = q.bytes band cells := by
  simp [bytes, members_cons_neg outside]

theorem bytes_insert_pos (inside : q.inBand band x = true) (front back : List ℕ) :
    q.bytes band (front ++ x :: back) = q.bytes band (front ++ back) + (q.msg x).size := by
  rw [bytes_append, bytes_append, bytes_cons_pos inside]
  omega

theorem bytes_insert_neg (outside : q.inBand band x = false) (front back : List ℕ) :
    q.bytes band (front ++ x :: back) = q.bytes band (front ++ back) := by
  rw [bytes_append, bytes_append, bytes_cons_neg outside]

theorem Consistent.members_head (consistent : Consistent q (front ++ back)) (positive : 0 < band)
    (small : band < 256) (below : ∀ y ∈ back, q.rank y ≤ band) :
    (q.members band back).head? = back.head?.filter (q.inBand band) := by
  have high : ∀ x ∈ back, qpctl ≤ (q.msg x).type.val → (q.msg x).band = 0 := fun x member =>
    consistent.high x (mem_append_right _ member)
  have sorted : Descending q.rank back := (pairwise_append.1 consistent.sorted).2.1
  rw [members_eq high positive small, sorted.head_filter below]
  cases back with
  | nil => rfl
  | cons y ys =>
    simp [Option.filter, inBand_eq (high y mem_cons_self) positive small]

theorem Consistent.members_last (consistent : Consistent q (front ++ back)) (positive : 0 < band)
    (small : band < 256) (above : ∀ y ∈ front, band ≤ q.rank y) :
    (q.members band front).getLast? = front.getLast?.filter (q.inBand band) := by
  have high : ∀ x ∈ front, qpctl ≤ (q.msg x).type.val → (q.msg x).band = 0 := fun x member =>
    consistent.high x (mem_append_left _ member)
  have sorted : Descending q.rank front := (pairwise_append.1 consistent.sorted).1
  rw [members_eq high positive small, sorted.last_filter above]
  cases is_last : front.getLast? with
  | none => rfl
  | some y =>
    simp [Option.filter, inBand_eq (high y (mem_of_getLast? is_last)) positive small]

theorem Consistent.members_nil (consistent : Consistent q cells) {part : List ℕ}
    (subset : part ⊆ cells) (positive : 0 < band) (small : band < 256)
    (apart : ∀ y ∈ part, q.rank y ≠ band) : q.members band part = [] := by
  rw [members_eq (fun x member => consistent.high x (subset member)) positive small,
    filter_eq_nil_iff]
  intro y member
  simpa using apart y member

/-! ### Where a message goes -/

theorem Consistent.length_le (consistent : Consistent q cells) : cells.length ≤ q.made := by
  have subset : cells ⊆ List.range q.made := fun x member => mem_range.2 (consistent.made x member)
  simpa using (consistent.linked.nodup.subperm subset).length_le

theorem Consistent.contents (consistent : Consistent q cells) : q.contents = cells :=
  consistent.linked.toList consistent.length_le

theorem Consistent.skip (consistent : Consistent q (front ++ back)) (test : Msg → Bool) :
    q.skip test back.head? = (back.dropWhile fun x => test (q.msg x)).head? := by
  have enough : back.length ≤ q.made := by
    have := consistent.length_le
    rw [length_append] at this
    omega
  exact consistent.linked.walk enough

theorem before_head (linked : q.links.Holds (front ++ back)) (nonempty : back ≠ []) :
    q.before back.head? = some (front.getLast?, back.head?) := by
  cases back with
  | nil => exact absurd rfl nonempty
  | cons x xs =>
    rw [head?_cons, before, linked.neighbours.1]

variable {bp last : ℕ}

section

variable (consistent : Consistent q cells)

include consistent

theorem Consistent.place_end {test : ℕ → Bool} (threshold : Threshold cells test)
    (is_last : q.links.last = some last) (passes : test last = true) :
    some (some last, none) =
      some ((cells.takeWhile test).getLast?, (cells.dropWhile test).head?) := by
  rw [consistent.linked.last] at is_last
  have all := threshold.all_of_last is_last passes
  rw [takeWhile_eq_self_iff.2 all, dropWhile_eq_nil_iff.2 all, is_last]
  rfl

theorem Consistent.place_before {test : ℕ → Bool} (is_last : q.links.last = some last)
    (fails : test last = false) :
    q.before (cells.dropWhile test).head? =
      some ((cells.takeWhile test).getLast?, (cells.dropWhile test).head?) := by
  rw [consistent.linked.last] at is_last
  refine before_head ?_ (Threshold.dropWhile_ne_nil is_last fails)
  rw [takeWhile_append_dropWhile]
  exact consistent.linked

theorem Consistent.first_eq : q.links.first = cells.head? := consistent.linked.first

theorem Consistent.last_some (nonempty : q.links.first ≠ none) :
    ∃ last, q.links.last = some last ∧ last ∈ cells := by
  rw [consistent.first_eq] at nonempty
  cases is_last : cells.getLast? with
  | none =>
    rw [getLast?_eq_none_iff] at is_last
    subst is_last
    exact absurd rfl nonempty
  | some last =>
    exact ⟨last, consistent.linked.last.trans is_last, mem_of_getLast? is_last⟩

/-- The two loops that skip the high priority messages and then a threshold of bands. -/
theorem Consistent.skip_bands {test : Msg → Bool} (passed : ℕ → Bool) (top : passed 256 = true)
    (same : ∀ x, ¬ qpctl ≤ (q.msg x).type.val → test (q.msg x) = passed (q.rank x)) :
    q.skip test (q.skip (fun tmp => qpctl ≤ tmp.type.val) q.links.first) =
      (cells.dropWhile fun x => passed (q.rank x)).head? := by
  have skip_high : q.skip (fun tmp => decide (qpctl ≤ tmp.type.val)) q.links.first =
      (cells.dropWhile fun x => decide (qpctl ≤ (q.msg x).type.val)).head? := by
    rw [consistent.first_eq]
    exact @Consistent.skip q [] cells consistent _
  have parts := @takeWhile_append_dropWhile _
    (fun x => decide (qpctl ≤ (q.msg x).type.val)) cells
  rw [← parts] at consistent
  have normal : ∀ x ∈ cells.dropWhile fun x => decide (qpctl ≤ (q.msg x).type.val),
      ¬ qpctl ≤ (q.msg x).type.val := by
    have threshold : Threshold cells fun x => decide (qpctl ≤ (q.msg x).type.val) := by
      rw [parts] at consistent
      refine Pairwise.imp ?_ consistent.sorted
      intro x y falls is_high
      simp only [decide_eq_true_eq, ← rank_eq_256_iff] at is_high ⊢
      have := q.rank_le x
      omega
    intro x member
    simpa using threshold.of_mem_dropWhile x member
  rw [skip_high, consistent.skip, dropWhile_dropWhile]
  · intro x _ is_high
    simp only [decide_eq_true_eq] at is_high
    simpa only [rank_high is_high] using top
  · intro x member
    exact same x (normal x member)

/-- The place behind the last message of a band. -/
theorem Consistent.place_behind (positive : 0 < band) (small : band < 256) {tmp : ℕ}
    (is_last : (q.members band cells).getLast? = some tmp) :
    some (some tmp, q.links.next tmp) =
      some ((cells.takeWhile fun x => decide (band ≤ q.rank x)).getLast?,
        (cells.dropWhile fun x => decide (band ≤ q.rank x)).head?) := by
  have threshold := consistent.sorted.threshold_le band
  generalize front_eq : (cells.takeWhile fun x => decide (band ≤ q.rank x)) = front
  generalize back_eq : (cells.dropWhile fun x => decide (band ≤ q.rank x)) = back
  have parts : cells = front ++ back := by
    rw [← front_eq, ← back_eq, takeWhile_append_dropWhile]
  have back_low : ∀ y ∈ back, q.rank y ≠ band := by
    intro y member
    rw [← back_eq] at member
    have := threshold.of_mem_dropWhile y member
    simp only [decide_eq_false_iff_not] at this
    omega
  have front_high : ∀ y ∈ front, band ≤ q.rank y := by
    intro y member
    rw [← front_eq] at member
    simpa only [decide_eq_true_eq] using mem_takeWhile_imp member
  subst parts
  rw [members_append, consistent.members_nil (subset_append_right ..) positive small back_low,
    append_nil, consistent.members_last positive small front_high] at is_last
  have front_last : front.getLast? = some tmp := (Option.filter_eq_some_iff.1 is_last).1
  obtain ⟨init, rfl⟩ := getLast?_eq_some_iff.1 front_last
  have linked := consistent.linked
  rw [append_assoc, singleton_append] at linked
  simp only [linked.neighbours.2, front_last]

/-- The place in front of the first message of a band. -/
theorem Consistent.place_ahead (positive : 0 < band) (small : band < 256) {tmp : ℕ}
    (is_first : (q.members band cells).head? = some tmp) :
    q.before (some tmp) = some ((cells.takeWhile fun x => decide (band < q.rank x)).getLast?,
        (cells.dropWhile fun x => decide (band < q.rank x)).head?) := by
  have threshold := consistent.sorted.threshold_lt band
  generalize front_eq : (cells.takeWhile fun x => decide (band < q.rank x)) = front
  generalize back_eq : (cells.dropWhile fun x => decide (band < q.rank x)) = back
  have parts : cells = front ++ back := by
    rw [← front_eq, ← back_eq, takeWhile_append_dropWhile]
  have front_high : ∀ y ∈ front, q.rank y ≠ band := by
    intro y member
    rw [← front_eq] at member
    have := mem_takeWhile_imp member
    simp only [decide_eq_true_eq] at this
    omega
  have back_low : ∀ y ∈ back, q.rank y ≤ band := by
    intro y member
    rw [← back_eq] at member
    have := threshold.of_mem_dropWhile y member
    simpa only [decide_eq_false_iff_not, not_lt] using this
  subst parts
  rw [members_append, consistent.members_nil (subset_append_left ..) positive small front_high,
    nil_append, consistent.members_head positive small back_low] at is_first
  have back_first : back.head? = some tmp := (Option.filter_eq_some_iff.1 is_first).1
  rw [← back_first]
  refine before_head consistent.linked ?_
  rintro rfl
  exact absurd back_first (by simp)

theorem Consistent.band_some {m : Msg} (named : m.band ≠ 0) (banded : m.band.val ≤ q.nband) :
    ∃ qb, q.bands[m.band.val - 1]? = some qb ∧
      qb.first = (q.members m.band.val cells).head? ∧
      qb.last = (q.members m.band.val cells).getLast? := by
  have positive : 0 < m.band.val := Nat.pos_of_ne_zero fun same => named (Fin.ext same)
  have index : m.band.val - 1 + 1 = m.band.val := by omega
  rw [nband] at banded
  have is_band := getElem?_eq_getElem (show m.band.val - 1 < q.bands.length by omega)
  refine ⟨_, is_band, ?_, ?_⟩
  · rw [consistent.first _ _ is_band, index]
  · rw [consistent.last _ _ is_band, index]

/-- `putq` puts a message of band 0 behind those of its rank. -/
theorem Consistent.putqPlace_zero (nonempty : q.links.first ≠ none) (zero : (q.msg bp).band = 0) :
    q.putqPlace bp = some ((cells.takeWhile fun x => decide (q.rank bp ≤ q.rank x)).getLast?,
      (cells.dropWhile fun x => decide (q.rank bp ≤ q.rank x)).head?) := by
  obtain ⟨last, is_last, last_mem⟩ := consistent.last_some nonempty
  simp only [Queue.putqPlace, nonempty, is_last, zero, if_false, if_true]
  split_ifs with class_le
  · refine consistent.place_end (consistent.sorted.threshold_le _) is_last ?_
    simp only [decide_eq_true_eq]
    by_cases is_high : qpctl ≤ (q.msg bp).type.val
    · rw [queclass_high is_high] at class_le
      have last_high : qpctl ≤ (q.msg last).type.val := by
        by_contra normal
        rw [queclass_normal normal] at class_le
        exact absurd class_le (by decide)
      rw [rank_high last_high]
      exact q.rank_le bp
    · rw [rank_normal is_high, zero]
      exact Nat.zero_le _
  · have is_high : qpctl ≤ (q.msg bp).type.val := by
      by_contra normal
      rw [queclass_normal normal] at class_le
      exact class_le (Nat.zero_le _)
    have same : (fun x => decide (queclass (q.msg bp) ≤ queclass (q.msg x))) =
        fun x => decide (q.rank bp ≤ q.rank x) := by
      funext x
      rw [decide_eq_decide, queclass_high is_high, rank_high is_high]
      by_cases x_high : qpctl ≤ (q.msg x).type.val
      · rw [queclass_high x_high, rank_high x_high]
        simp
      · rw [queclass_normal x_high, rank_normal x_high]
        have := (q.msg x).band.isLt
        constructor
        · intro le
          exact absurd le (by decide)
        · intro le
          omega
    have skips := @Consistent.skip q [] cells consistent fun m =>
      decide (queclass (q.msg bp) ≤ queclass m)
    rw [consistent.first_eq, skips, same]
    refine consistent.place_before is_last ?_
    have := congrFun same last
    simp only [class_le, decide_false] at this
    exact this.symm

/-- `putq` puts a message of another band behind those of its band. -/
theorem Consistent.putqPlace_band (nonempty : q.links.first ≠ none) (named : (q.msg bp).band ≠ 0)
    (normal : ¬ qpctl ≤ (q.msg bp).type.val) (banded : (q.msg bp).band.val ≤ q.nband) :
    q.putqPlace bp = some ((cells.takeWhile fun x => decide (q.rank bp ≤ q.rank x)).getLast?,
      (cells.dropWhile fun x => decide (q.rank bp ≤ q.rank x)).head?) := by
  obtain ⟨last, is_last, last_mem⟩ := consistent.last_some nonempty
  have positive : 0 < (q.msg bp).band.val := Nat.pos_of_ne_zero fun same => named (Fin.ext same)
  have small := (q.msg bp).band.isLt
  have rank_bp := rank_normal normal
  obtain ⟨qb, is_band, first_eq, last_eq⟩ := consistent.band_some named banded
  simp only [Queue.putqPlace, nonempty, is_last, named, is_band, if_false]
  split_ifs with first_none behind
  · refine consistent.place_end (consistent.sorted.threshold_le _) is_last ?_
    simp only [decide_eq_true_eq, rank_bp]
    by_cases last_high : qpctl ≤ (q.msg last).type.val
    · rw [rank_high last_high]
      omega
    · rw [rank_normal last_high]
      rcases behind with class_lt | band_le
      · rw [queclass_normal normal, queclass_normal last_high] at class_lt
        exact absurd class_lt (lt_irrefl _)
      · exact band_le
  · rw [consistent.skip_bands fun r => decide (q.rank bp ≤ r)]
    · refine consistent.place_before is_last ?_
      simp only [decide_eq_false_iff_not, not_le]
      rw [not_or] at behind
      have last_normal : ¬ qpctl ≤ (q.msg last).type.val := by
        intro last_high
        rw [queclass_normal normal, queclass_high last_high] at behind
        exact behind.1 (by decide)
      rw [rank_bp, rank_normal last_normal]
      exact not_le.1 behind.2
    · simp only [decide_eq_true_eq]
      exact q.rank_le bp
    · intro x x_normal
      rw [decide_eq_decide, rank_bp, rank_normal x_normal]
      rfl
  · cases member_last : (q.members (q.msg bp).band.val cells).getLast? with
    | none =>
      rw [getLast?_eq_none_iff] at member_last
      rw [first_eq, member_last] at first_none
      exact absurd rfl first_none
    | some tmp =>
      rw [last_eq, member_last, rank_bp]
      exact consistent.place_behind positive small member_last

theorem Consistent.eq_nil (empty : q.links.first = none) :
    cells = [] := by
  rw [consistent.first_eq] at empty
  exact head?_eq_none_iff.1 empty

theorem Consistent.putqPlace (high : qpctl ≤ (q.msg bp).type.val → (q.msg bp).band = 0)
    (banded : (q.msg bp).band.val ≤ q.nband) :
    q.putqPlace bp = some ((cells.takeWhile fun x => decide (q.rank bp ≤ q.rank x)).getLast?,
      (cells.dropWhile fun x => decide (q.rank bp ≤ q.rank x)).head?) := by
  by_cases empty : q.links.first = none
  · rw [consistent.eq_nil empty]
    simp [Queue.putqPlace, empty]
  by_cases zero : (q.msg bp).band = 0
  · exact consistent.putqPlace_zero empty zero
  · exact consistent.putqPlace_band empty zero (fun is_high => zero (high is_high)) banded

/-- The search of `putbq`, for a message without high priority. -/
theorem Consistent.putbq_search (normal : ¬ qpctl ≤ (q.msg bp).type.val)
    (is_last : q.links.last = some last) :
    (if queclass (q.msg bp) < queclass (q.msg last) ∨ (q.msg bp).band < (q.msg last).band then
        some (some last, none)
      else
        q.before (q.skip (fun tmp => decide ((q.msg bp).band < tmp.band))
          (q.skip (fun tmp => decide (qpctl ≤ tmp.type.val)) q.links.first))) =
      some ((cells.takeWhile fun x => decide (q.rank bp < q.rank x)).getLast?,
        (cells.dropWhile fun x => decide (q.rank bp < q.rank x)).head?) := by
  have small := (q.msg bp).band.isLt
  have rank_bp := rank_normal normal
  split_ifs with behind
  · refine consistent.place_end (consistent.sorted.threshold_lt _) is_last ?_
    simp only [decide_eq_true_eq, rank_bp]
    by_cases last_high : qpctl ≤ (q.msg last).type.val
    · rw [rank_high last_high]
      omega
    · rw [rank_normal last_high]
      rcases behind with class_lt | band_lt
      · rw [queclass_normal normal, queclass_normal last_high] at class_lt
        exact absurd class_lt (lt_irrefl _)
      · exact band_lt
  · rw [consistent.skip_bands fun r => decide (q.rank bp < r)]
    · refine consistent.place_before is_last ?_
      simp only [decide_eq_false_iff_not, not_lt]
      rw [not_or] at behind
      have last_normal : ¬ qpctl ≤ (q.msg last).type.val := by
        intro last_high
        rw [queclass_normal normal, queclass_high last_high] at behind
        exact behind.1 (by decide)
      rw [rank_bp, rank_normal last_normal]
      exact not_lt.1 behind.2
    · simp only [decide_eq_true_eq, rank_bp]
      exact small
    · intro x x_normal
      rw [decide_eq_decide, rank_bp, rank_normal x_normal]
      rfl

/-- `putbq` puts a message in front of those of its rank. -/
theorem Consistent.putbqPlace (banded : (q.msg bp).band.val ≤ q.nband) :
    q.putbqPlace bp = some ((cells.takeWhile fun x => decide (q.rank bp < q.rank x)).getLast?,
      (cells.dropWhile fun x => decide (q.rank bp < q.rank x)).head?) := by
  by_cases empty : q.links.first = none
  · rw [consistent.eq_nil empty]
    simp [Queue.putbqPlace, empty]
  obtain ⟨last, is_last, last_mem⟩ := consistent.last_some empty
  by_cases is_high : qpctl ≤ (q.msg bp).type.val
  · have none_over : ∀ x, decide (q.rank bp < q.rank x) = false := by
      intro x
      rw [rank_high is_high, decide_eq_false_iff_not, not_lt]
      exact q.rank_le x
    simp only [Queue.putbqPlace, queclass_high is_high, or_true, if_true, none_over,
      consistent.first_eq]
    cases cells <;> rfl
  have not_pctl : queclass (q.msg bp) ≠ qpctl := by
    rw [queclass_normal is_high]
    decide
  by_cases zero : (q.msg bp).band = 0
  · have search := consistent.putbq_search is_high is_last
    simp only [Queue.putbqPlace, empty, not_pctl, zero, is_last, or_self, if_false, if_true]
    simpa only [zero] using search
  · have positive : 0 < (q.msg bp).band.val := Nat.pos_of_ne_zero fun same => zero (Fin.ext same)
    obtain ⟨qb, is_band, first_eq, last_eq⟩ := consistent.band_some zero banded
    simp only [Queue.putbqPlace, empty, not_pctl, zero, is_band, is_last, or_self, if_false]
    cases member_first : qb.first with
    | none => exact consistent.putbq_search is_high is_last
    | some tmp =>
      rw [first_eq] at member_first
      rw [rank_normal is_high]
      exact consistent.place_ahead positive (q.msg bp).band.isLt member_first

end

end Queue

end Sol25.Streams
