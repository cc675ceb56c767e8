import Sol25.Streams.Order

/-!
# Putting messages on a queue

`putq` and `putbq` keep the order and the counts of a queue, and they leave the want flags alone.
-/

namespace Sol25.Streams
namespace Queue

open List Option Function

variable {q q' q'' : Queue} {cells front back : List ℕ} {x y band bp : ℕ}

/-! ### The flow control of the bands -/

@[simp] theorem flowAt_zero (q : Queue) : q.flowAt 0 = some q.flow := rfl

theorem flowAt_pos (positive : 0 < band) : q.flowAt band = (q.bands[band - 1]?).map Qband.flow :=
  if_neg (by omega)

theorem flowAt_succ (q : Queue) (i : ℕ) : q.flowAt (i + 1) = (q.bands[i]?).map Qband.flow :=
  flowAt_pos (Nat.succ_pos i)

theorem bands_setBand (q : Queue) (band i : ℕ) (change : Qband → Qband) :
    (q.setBand band change).bands[i]? =
      if band - 1 = i then q.bands[i]?.map change else q.bands[i]? := by
  rw [setBand, getElem?_modify]
  split_ifs <;> simp

theorem flowAt_setBand (positive : 0 < band) (b : ℕ) (change : Qband → Qband) :
    (q.setBand band change).flowAt b =
      if b = band then q.bands[b - 1]?.map fun qb => (change qb).flow else q.flowAt b := by
  cases b with
  | zero =>
    rw [if_neg (by omega)]
    rfl
  | succ i =>
    rw [flowAt_succ, flowAt_succ, bands_setBand, Nat.add_sub_cancel]
    by_cases same : band - 1 = i
    · rw [if_pos same, if_pos (by omega), Option.map_map]
      rfl
    · rw [if_neg same, if_neg (by omega)]

theorem nband_setBand (q : Queue) (band : ℕ) (change : Qband → Qband) :
    (q.setBand band change).nband = q.nband := length_modify ..

/-- The bands keep their marks and their want flags; a new band has the marks of band 0. -/
structure Kept (q q' : Queue) : Prop where
  old : ∀ b f, q.flowAt b = some f → ∃ f', q'.flowAt b = some f' ∧
    f'.hiwat = f.hiwat ∧ f'.lowat = f.lowat ∧ f'.wantw = f.wantw
  new : ∀ b f', q'.flowAt b = some f' → q.flowAt b = none →
    f'.hiwat = q.flow.hiwat ∧ f'.lowat = q.flow.lowat ∧ f'.wantw = false

theorem Kept.refl (q : Queue) : Kept q q := by
  refine ⟨fun b f is_flow => ⟨f, is_flow, rfl, rfl, rfl⟩, ?_⟩
  intro b f is_flow none_before
  rw [is_flow] at none_before
  exact absurd none_before (by simp)

theorem Kept.trans (first : Kept q q') (second : Kept q' q'') : Kept q q'' := by
  refine ⟨?_, ?_⟩
  · intro b f is_flow
    obtain ⟨f', is_flow', hiwat', lowat', wantw'⟩ := first.old b f is_flow
    obtain ⟨f'', is_flow'', hiwat'', lowat'', wantw''⟩ := second.old b f' is_flow'
    exact ⟨f'', is_flow'', hiwat''.trans hiwat', lowat''.trans lowat', wantw''.trans wantw'⟩
  · intro b f'' is_flow'' none_before
    cases between : q'.flowAt b with
    | none =>
      obtain ⟨hiwat'', lowat'', wantw''⟩ := second.new b f'' is_flow'' between
      obtain ⟨f', is_flow', hiwat', lowat', -⟩ := first.old 0 q.flow rfl
      obtain rfl : q'.flow = f' := some.inj is_flow'
      exact ⟨hiwat''.trans hiwat', lowat''.trans lowat', wantw''⟩
    | some f' =>
      obtain ⟨hiwat', lowat', wantw'⟩ := first.new b f' between none_before
      obtain ⟨g, is_flow, hiwat'', lowat'', wantw''⟩ := second.old b f' between
      obtain rfl : f'' = g := some.inj (is_flow''.symm.trans is_flow)
      exact ⟨hiwat''.trans hiwat', lowat''.trans lowat', wantw''.trans wantw'⟩

theorem Kept.of_flows (change : ∀ b, q'.flowAt b = q.flowAt b ∨
    ∃ size, q'.flowAt b = (q.flowAt b).map fun f => f.add size) : Kept q q' := by
  refine ⟨?_, ?_⟩
  · intro b f is_flow
    rcases change b with same | ⟨size, added⟩
    · exact ⟨f, same.trans is_flow, rfl, rfl, rfl⟩
    · refine ⟨f.add size, ?_, rfl, rfl, rfl⟩
      rw [added, is_flow]
      rfl
  · intro b f' is_flow none_before
    rcases change b with same | ⟨size, added⟩
    · rw [same, none_before] at is_flow
      exact absurd is_flow (by simp)
    · rw [added, none_before] at is_flow
      exact absurd is_flow (by simp)

/-! ### The sanity checks -/

theorem msg_checkBand_ne (ne : x ≠ bp) : (q.checkBand bp).msg x = q.msg x := by
  simp only [checkBand]
  split_ifs
  · exact update_of_ne ne _ _
  · rfl

section

variable (q bp)

theorem checkBand_msg : (q.checkBand bp).msg bp =
    if qpctl ≤ (q.msg bp).type.val then { q.msg bp with band := 0 } else q.msg bp := by
  simp only [checkBand]
  by_cases is_high : qpctl ≤ (q.msg bp).type.val
  · rw [if_pos (queclass_high is_high), if_pos is_high]
    exact update_self ..
  · have not_pctl : queclass (q.msg bp) ≠ qpctl := by
      rw [queclass_normal is_high]
      decide
    rw [if_neg not_pctl, if_neg is_high]

theorem rank_checkBand : (q.checkBand bp).rank = q.rank := by
  funext x
  by_cases same : x = bp
  · subst same
    simp only [rank, checkBand_msg]
    by_cases is_high : qpctl ≤ (q.msg x).type.val <;> simp [is_high]
  · simp only [rank, msg_checkBand_ne same]

@[simp] theorem made_checkBand : (q.checkBand bp).made = q.made := by
  simp only [checkBand]
  split_ifs <;> rfl

@[simp] theorem links_checkBand : (q.checkBand bp).links = q.links := by
  simp only [checkBand]
  split_ifs <;> rfl

@[simp] theorem flow_checkBand : (q.checkBand bp).flow = q.flow := by
  simp only [checkBand]
  split_ifs <;> rfl

theorem bands_checkBand :
    ∃ more, (q.checkBand bp).bands = q.bands ++ List.replicate more q.allocband := by
  simp only [checkBand]
  split_ifs
  · exact ⟨0, by simp⟩
  · exact ⟨_, rfl⟩

theorem checkBand_high (is_high : qpctl ≤ ((q.checkBand bp).msg bp).type.val) :
    ((q.checkBand bp).msg bp).band = 0 := by
  rw [checkBand_msg] at is_high ⊢
  by_cases was_high : qpctl ≤ (q.msg bp).type.val
  · rw [if_pos was_high]
  · rw [if_neg was_high] at is_high
    exact absurd is_high was_high

theorem checkBand_banded :
    ((q.checkBand bp).msg bp).band.val ≤ (q.checkBand bp).nband := by
  rw [checkBand_msg]
  by_cases is_high : qpctl ≤ (q.msg bp).type.val
  · rw [if_pos is_high]
    exact Nat.zero_le _
  · have not_pctl : queclass (q.msg bp) ≠ qpctl := by
      rw [queclass_normal is_high]
      decide
    rw [if_neg is_high]
    simp only [checkBand, not_pctl, if_false, nband, length_append, length_replicate]
    omega

end

theorem checkBand_band {i : ℕ} {qb : Qband} (is_band : (q.checkBand bp).bands[i]? = some qb) :
    q.bands[i]? = some qb ∨ (q.bands[i]? = none ∧ qb = q.allocband) := by
  obtain ⟨more, bands_eq⟩ := q.bands_checkBand bp
  rw [bands_eq, getElem?_append] at is_band
  split_ifs at is_band with old
  · exact .inl is_band
  · refine .inr ⟨getElem?_eq_none (by omega), ?_⟩
    exact eq_of_mem_replicate (mem_of_getElem? is_band)

theorem Kept.checkBand (q : Queue) (bp : ℕ) : Kept q (q.checkBand bp) := by
  obtain ⟨more, bands_eq⟩ := q.bands_checkBand bp
  refine ⟨?_, ?_⟩
  · intro b f is_flow
    refine ⟨f, ?_, rfl, rfl, rfl⟩
    cases b with
    | zero => rwa [flowAt_zero, flow_checkBand]
    | succ i =>
      rw [flowAt_succ, map_eq_some_iff] at is_flow ⊢
      obtain ⟨qb, is_band, rfl⟩ := is_flow
      refine ⟨qb, ?_, rfl⟩
      have small := (List.getElem?_eq_some_iff.1 is_band).1
      rw [bands_eq, getElem?_append_left small, is_band]
  · intro b f' is_flow none_before
    cases b with
    | zero => exact absurd none_before (by simp)
    | succ i =>
      rw [flowAt_succ, map_eq_some_iff] at is_flow
      rw [flowAt_succ, map_eq_none_iff] at none_before
      obtain ⟨qb, is_band, rfl⟩ := is_flow
      rcases checkBand_band is_band with old | ⟨-, rfl⟩
      · rw [old] at none_before
        exact absurd none_before (by simp)
      · exact ⟨rfl, rfl, rfl⟩

theorem Booked.checkBand (booked : Booked q cells) (outside : bp ∉ cells) :
    Booked (q.checkBand bp) cells := by
  have same : ∀ x ∈ cells, (q.checkBand bp).msg x = q.msg x := fun x member =>
    msg_checkBand_ne fun eq => outside (eq ▸ member)
  have beyond : ∀ i, q.bands[i]? = none → q.members (i + 1) cells = [] := by
    intro i none_there
    rw [members, filter_eq_nil_iff]
    intro x member inside
    have small := booked.banded x member
    rw [inBand, decide_eq_true_eq] at inside
    rw [List.getElem?_eq_none_iff] at none_there
    rw [nband] at small
    omega
  refine ⟨?_, ?_, ?_, ?_, ?_, ?_, ?_⟩
  · rw [links_checkBand]
    exact booked.linked
  · rw [made_checkBand]
    exact booked.made
  · intro x member
    rw [same x member]
    exact booked.high x member
  · intro x member
    obtain ⟨more, bands_eq⟩ := q.bands_checkBand bp
    have := booked.banded x member
    rw [same x member, nband, bands_eq, length_append]
    rw [nband] at this
    omega
  · intro i qb is_band
    rw [members_congr same]
    rcases checkBand_band is_band with old | ⟨none_there, rfl⟩
    · exact booked.first i qb old
    · rw [beyond i none_there]
      rfl
  · intro i qb is_band
    rw [members_congr same]
    rcases checkBand_band is_band with old | ⟨none_there, rfl⟩
    · exact booked.last i qb old
    · rw [beyond i none_there]
      rfl
  · intro b f is_flow
    rw [bytes_congr same]
    cases b with
    | zero =>
      rw [flowAt_zero, flow_checkBand] at is_flow
      exact booked.count 0 f is_flow
    | succ i =>
      rw [flowAt_succ, map_eq_some_iff] at is_flow
      obtain ⟨qb, is_band, rfl⟩ := is_flow
      rcases checkBand_band is_band with old | ⟨none_there, rfl⟩
      · refine booked.count (i + 1) _ ?_
        rw [flowAt_succ, old]
        rfl
      · rw [bytes, beyond i none_there]
        rfl

theorem Consistent.checkBand (consistent : Consistent q cells) (outside : bp ∉ cells) :
    Consistent (q.checkBand bp) cells := by
  obtain ⟨linked, made, high, banded, first, last, count⟩ := consistent.booked.checkBand outside
  refine ⟨linked, made, high, ?_, banded, first, last, count, ?_⟩
  · rw [rank_checkBand]
    exact consistent.sorted
  · intro b f is_flow
    cases b with
    | zero =>
      rw [flowAt_zero, flow_checkBand] at is_flow
      exact consistent.full 0 f is_flow
    | succ i =>
      rw [flowAt_succ, map_eq_some_iff] at is_flow
      obtain ⟨qb, is_band, rfl⟩ := is_flow
      rcases checkBand_band is_band with old | ⟨-, rfl⟩
      · refine consistent.full (i + 1) _ ?_
        rw [flowAt_succ, old]
        rfl
      · exact Flow.right_fresh _ _

/-! ### Admission -/

section Admit

variable {place : Option ℕ × Option ℕ} {ends : Qband → Qband}

@[simp] theorem msg_enlist : (q.enlist bp place ends).msg = q.msg := by
  simp only [enlist]
  split_ifs <;> rfl

@[simp] theorem made_enlist : (q.enlist bp place ends).made = q.made := by
  simp only [enlist]
  split_ifs <;> rfl

@[simp] theorem links_enlist : (q.enlist bp place ends).links =
    q.links.link place.1 bp place.2 := by
  simp only [enlist]
  split_ifs <;> rfl

@[simp] theorem nband_enlist : (q.enlist bp place ends).nband = q.nband := by
  simp only [enlist]
  split_ifs
  · rfl
  · exact nband_setBand ..

theorem flowAt_enlist (b : ℕ) : (q.enlist bp place ends).flowAt b =
    if b = (q.msg bp).band.val then (q.flowAt b).map fun f => f.add (q.msg bp).size
    else q.flowAt b := by
  simp only [enlist]
  by_cases zero : (q.msg bp).band = 0
  · rw [if_pos zero, zero]
    cases b with
    | zero => rfl
    | succ i => rfl
  · have positive : 0 < (q.msg bp).band.val := Nat.pos_of_ne_zero fun same => zero (Fin.ext same)
    rw [if_neg zero, flowAt_setBand positive]
    by_cases same : b = (q.msg bp).band.val
    · rw [if_pos same, if_pos same, flowAt_pos (by omega), Option.map_map]
      rfl
    · rw [if_neg same, if_neg same]
      rfl

theorem bands_enlist (i : ℕ) : (q.enlist bp place ends).bands[i]? =
    if i + 1 = (q.msg bp).band.val then
      q.bands[i]?.map fun qb => { ends qb with flow := qb.flow.add (q.msg bp).size }
    else q.bands[i]? := by
  simp only [enlist]
  by_cases zero : (q.msg bp).band = 0
  · rw [if_pos zero, if_neg]
    rw [zero, Fin.val_zero]
    omega
  · have positive : 0 < (q.msg bp).band.val := Nat.pos_of_ne_zero fun same => zero (Fin.ext same)
    rw [if_neg zero, bands_setBand]
    by_cases same : i + 1 = (q.msg bp).band.val
    · rw [if_pos same, if_pos (by omega)]
    · rw [if_neg same, if_neg (by omega)]

theorem Kept.enlist : Kept q (q.enlist bp place ends) := by
  refine Kept.of_flows ?_
  intro b
  rw [flowAt_enlist]
  split_ifs
  · exact .inr ⟨_, rfl⟩
  · exact .inl rfl

end Admit

/-- A message is counted for its band, and the ends of the band are set right. -/
theorem Booked.enlist (booked : Booked q (front ++ back)) (outside : bp ∉ front ++ back)
    (made : bp < q.made) (high : qpctl ≤ (q.msg bp).type.val → (q.msg bp).band = 0)
    (banded : (q.msg bp).band.val ≤ q.nband) {ends : Qband → Qband}
    (first : ∀ i qb, i + 1 = (q.msg bp).band.val → q.bands[i]? = some qb →
      (ends qb).first = (q.members (i + 1) (front ++ bp :: back)).head?)
    (last : ∀ i qb, i + 1 = (q.msg bp).band.val → q.bands[i]? = some qb →
      (ends qb).last = (q.members (i + 1) (front ++ bp :: back)).getLast?) :
    Booked (q.enlist bp (front.getLast?, back.head?) ends) (front ++ bp :: back) := by
  have members_same : ∀ b c, (q.enlist bp (front.getLast?, back.head?) ends).members b c =
      q.members b c := fun b c => members_congr (fun x _ => by rw [msg_enlist]) b
  have bytes_same : ∀ b c, (q.enlist bp (front.getLast?, back.head?) ends).bytes b c =
      q.bytes b c := fun b c => bytes_congr (fun x _ => by rw [msg_enlist]) b
  have split : ∀ x, x ∈ front ++ bp :: back ↔ x = bp ∨ x ∈ front ++ back := by
    intro x
    simp only [mem_append, mem_cons]
    tauto
  have others : ∀ b, b ≠ (q.msg bp).band.val →
      q.members b (front ++ bp :: back) = q.members b (front ++ back) := by
    intro b ne
    rw [members_append, members_append, members_cons_neg]
    simpa [inBand] using ne.symm
  refine ⟨?_, ?_, ?_, ?_, ?_, ?_, ?_⟩
  · rw [links_enlist]
    exact booked.linked.link outside
  · intro x member
    rw [made_enlist]
    rcases (split x).1 member with rfl | old
    · exact made
    · exact booked.made x old
  · intro x member
    rw [msg_enlist]
    rcases (split x).1 member with rfl | old
    · exact high
    · exact booked.high x old
  · intro x member
    rw [msg_enlist, nband_enlist]
    rcases (split x).1 member with rfl | old
    · exact banded
    · exact booked.banded x old
  · intro i qb is_band
    rw [members_same]
    rw [bands_enlist] at is_band
    split_ifs at is_band with here
    · obtain ⟨old, is_old, rfl⟩ := map_eq_some_iff.1 is_band
      exact first i old here is_old
    · rw [others _ here]
      exact booked.first i qb is_band
  · intro i qb is_band
    rw [members_same]
    rw [bands_enlist] at is_band
    split_ifs at is_band with here
    · obtain ⟨old, is_old, rfl⟩ := map_eq_some_iff.1 is_band
      exact last i old here is_old
    · rw [others _ here]
      exact booked.last i qb is_band
  · intro b f is_flow
    rw [bytes_same]
    rw [flowAt_enlist] at is_flow
    split_ifs at is_flow with here
    · obtain ⟨old, is_old, rfl⟩ := map_eq_some_iff.1 is_flow
      rw [bytes_insert_pos (by simp [inBand, here]), ← booked.count b old is_old]
      rfl
    · rw [bytes, others _ here]
      exact booked.count b f is_flow

/-- A message goes between those above its rank and those below it. -/
theorem Consistent.enlist (consistent : Consistent q (front ++ back)) (outside : bp ∉ front ++ back)
    (made : bp < q.made) (high : qpctl ≤ (q.msg bp).type.val → (q.msg bp).band = 0)
    (banded : (q.msg bp).band.val ≤ q.nband) (above : ∀ y ∈ front, q.rank bp ≤ q.rank y)
    (below : ∀ y ∈ back, q.rank y ≤ q.rank bp) {ends : Qband → Qband}
    (first : ∀ i qb, i + 1 = (q.msg bp).band.val → q.bands[i]? = some qb →
      (ends qb).first = (q.members (i + 1) (front ++ bp :: back)).head?)
    (last : ∀ i qb, i + 1 = (q.msg bp).band.val → q.bands[i]? = some qb →
      (ends qb).last = (q.members (i + 1) (front ++ bp :: back)).getLast?) :
    Consistent (q.enlist bp (front.getLast?, back.head?) ends) (front ++ bp :: back) := by
  obtain ⟨linked', made', high', banded', first', last', count'⟩ :=
    consistent.booked.enlist outside made high banded first last
  refine ⟨linked', made', high', ?_, banded', first', last', count', ?_⟩
  · have rank_same : (q.enlist bp (front.getLast?, back.head?) ends).rank = q.rank := by
      funext x
      simp only [rank, msg_enlist]
    rw [rank_same]
    exact consistent.sorted.insert above below
  · intro b f is_flow
    rw [flowAt_enlist] at is_flow
    split_ifs at is_flow with here
    · obtain ⟨old, is_old, rfl⟩ := map_eq_some_iff.1 is_flow
      exact (consistent.full b old is_old).add _
    · exact consistent.full b f is_flow

theorem rank_of_band (high : qpctl ≤ (q.msg x).type.val → (q.msg x).band = 0)
    (positive : 0 < (q.msg x).band.val) : q.rank x = (q.msg x).band.val := by
  refine rank_normal ?_
  intro is_high
  rw [high is_high] at positive
  exact absurd positive (by simp)

theorem Consistent.first_ne (consistent : Consistent q cells) {i : ℕ} {qb : Qband}
    (is_band : q.bands[i]? = some qb) (some_first : qb.first ≠ none) : q.links.first ≠ none := by
  intro empty
  rw [consistent.first i qb is_band, consistent.eq_nil empty] at some_first
  exact some_first rfl

/-- What `putq` and `putbq` have in common: the message is between those in front and behind. -/
structure Put (q : Queue) (bp : ℕ) (front back : List ℕ) (q' : Queue) (calls : List Call) :
    Prop where
  consistent : Consistent q' (front ++ bp :: back)
  kept : Kept q q'
  calls : ∀ call ∈ calls, call = .qenable
  msg : q'.msg = (q.checkBand bp).msg
  made : q'.made = q.made
  nband : q'.nband = (q.checkBand bp).nband
  /-- The links of messages that are not on the queue stay. -/
  frame : ∀ y, y ≠ bp → y ∉ front ++ back →
    q'.links.next y = q.links.next y ∧ q'.links.prev y = q.links.prev y

theorem put_frame (linked : q.links = q'.links.link front.getLast? bp back.head?) {y : ℕ}
    (ne : y ≠ bp) (outside : y ∉ front ++ back) :
    q.links.next y = q'.links.next y ∧ q.links.prev y = q'.links.prev y := by
  rw [mem_append, not_or] at outside
  have not_before : some y ≠ front.getLast? := fun same => outside.1 (mem_of_getLast? same.symm)
  have not_after : some y ≠ back.head? := fun same => outside.2 (mem_of_head? same.symm)
  rw [linked]
  simp [Doubly.link, ne, not_before, not_after]

/-- `putq` puts a message behind those of its rank. -/
theorem Consistent.putq (consistent : Consistent q cells) (outside : bp ∉ cells)
    (made : bp < q.made) : ∃ q' calls, q.putq bp = some (q', calls) ∧
      Put q bp (cells.takeWhile fun x => decide (q.rank bp ≤ q.rank x))
        (cells.dropWhile fun x => decide (q.rank bp ≤ q.rank x)) q' calls := by
  have checked := consistent.checkBand outside
  have high := q.checkBand_high bp
  have banded := q.checkBand_banded bp
  have place := checked.putqPlace high banded
  have threshold := consistent.sorted.threshold_le (q.rank bp)
  have below : ∀ y ∈ cells.dropWhile fun x => decide (q.rank bp ≤ q.rank x),
      q.rank y < q.rank bp := by
    intro y member
    simpa using threshold.of_mem_dropWhile y member
  have above : ∀ y ∈ cells.takeWhile fun x => decide (q.rank bp ≤ q.rank x),
      q.rank bp ≤ q.rank y := by
    intro y member
    simpa using mem_takeWhile_imp member
  rw [rank_checkBand] at place
  generalize front_eq : (cells.takeWhile fun x => decide (q.rank bp ≤ q.rank x)) = front at *
  generalize back_eq : (cells.dropWhile fun x => decide (q.rank bp ≤ q.rank x)) = back at *
  have parts : cells = front ++ back := by
    rw [← front_eq, ← back_eq, takeWhile_append_dropWhile]
  subst parts
  have behind : ∀ b, 0 < b → b < 256 → b = ((q.checkBand bp).msg bp).band.val →
      (q.checkBand bp).members b back = [] := by
    intro b positive small same
    refine checked.members_nil (subset_append_right ..) positive small ?_
    intro y member
    have := below y member
    rw [rank_checkBand, same, ← rank_of_band high (same ▸ positive), rank_checkBand]
    omega
  rw [Queue.putq, place]
  refine ⟨_, _, rfl, ?_, ?_, ?_, ?_, ?_, ?_, ?_⟩
  · refine checked.enlist outside (by rwa [made_checkBand]) high banded
      (by rwa [rank_checkBand]) ?_ ?_ ?_
    · rw [rank_checkBand]
      exact fun y member => (below y member).le
    · intro i qb here is_band
      have small := ((q.checkBand bp).msg bp).band.isLt
      have inside : (q.checkBand bp).inBand (i + 1) bp = true := by simp [inBand, here]
      rw [members_append, members_cons_pos inside, behind (i + 1) (by omega) (by omega) here]
      have first_eq := checked.first i qb is_band
      rw [members_append, behind (i + 1) (by omega) (by omega) here, append_nil] at first_eq
      simp only [head?_append, head?_cons]
      by_cases none_first : qb.first = none
      · rw [if_pos (.inr none_first), ← first_eq, none_first]
        rfl
      · rw [if_neg (not_or.2 ⟨checked.first_ne is_band none_first, none_first⟩), ← first_eq]
        cases is_first : qb.first with
        | none => exact absurd is_first none_first
        | some y => rfl
    · intro i qb here is_band
      have small := ((q.checkBand bp).msg bp).band.isLt
      have inside : (q.checkBand bp).inBand (i + 1) bp = true := by simp [inBand, here]
      rw [members_append, members_cons_pos inside, behind (i + 1) (by omega) (by omega) here]
      simp
  · exact (Kept.checkBand q bp).trans Kept.enlist
  · intro call member
    split_ifs at member
    · exact mem_singleton.1 member
    · exact absurd member not_mem_nil
  · exact msg_enlist
  · rw [made_enlist, made_checkBand]
  · exact nband_enlist
  · intro y ne not_mem
    refine put_frame ?_ ne not_mem
    rw [links_enlist, links_checkBand]

/-- `putbq` puts a message in front of those of its rank. -/
theorem Consistent.putbq (consistent : Consistent q cells) (outside : bp ∉ cells)
    (made : bp < q.made) : ∃ q' calls, q.putbq bp = some (q', calls) ∧
      Put q bp (cells.takeWhile fun x => decide (q.rank bp < q.rank x))
        (cells.dropWhile fun x => decide (q.rank bp < q.rank x)) q' calls := by
  have checked := consistent.checkBand outside
  have high := q.checkBand_high bp
  have banded := q.checkBand_banded bp
  have place := checked.putbqPlace banded
  have threshold := consistent.sorted.threshold_lt (q.rank bp)
  have below : ∀ y ∈ cells.dropWhile fun x => decide (q.rank bp < q.rank x),
      q.rank y ≤ q.rank bp := by
    intro y member
    simpa using threshold.of_mem_dropWhile y member
  have above : ∀ y ∈ cells.takeWhile fun x => decide (q.rank bp < q.rank x),
      q.rank bp < q.rank y := by
    intro y member
    simpa using mem_takeWhile_imp member
  rw [rank_checkBand] at place
  generalize front_eq : (cells.takeWhile fun x => decide (q.rank bp < q.rank x)) = front at *
  generalize back_eq : (cells.dropWhile fun x => decide (q.rank bp < q.rank x)) = back at *
  have parts : cells = front ++ back := by
    rw [← front_eq, ← back_eq, takeWhile_append_dropWhile]
  subst parts
  have ahead : ∀ b, 0 < b → b < 256 → b = ((q.checkBand bp).msg bp).band.val →
      (q.checkBand bp).members b front = [] := by
    intro b positive small same
    refine checked.members_nil (subset_append_left ..) positive small ?_
    intro y member
    have := above y member
    rw [rank_checkBand, same, ← rank_of_band high (same ▸ positive), rank_checkBand]
    omega
  rw [Queue.putbq, place]
  refine ⟨_, _, rfl, ?_, ?_, ?_, ?_, ?_, ?_, ?_⟩
  · refine checked.enlist outside (by rwa [made_checkBand]) high banded ?_
      (by rwa [rank_checkBand]) ?_ ?_
    · rw [rank_checkBand]
      exact fun y member => (above y member).le
    · intro i qb here is_band
      have small := ((q.checkBand bp).msg bp).band.isLt
      have inside : (q.checkBand bp).inBand (i + 1) bp = true := by simp [inBand, here]
      rw [members_append, members_cons_pos inside, ahead (i + 1) (by omega) (by omega) here]
      rfl
    · intro i qb here is_band
      have small := ((q.checkBand bp).msg bp).band.isLt
      have inside : (q.checkBand bp).inBand (i + 1) bp = true := by simp [inBand, here]
      have last_eq := checked.last i qb is_band
      have first_eq := checked.first i qb is_band
      rw [members_append, ahead (i + 1) (by omega) (by omega) here, nil_append]
        at last_eq first_eq
      rw [members_append, ahead (i + 1) (by omega) (by omega) here, nil_append,
        members_cons_pos inside]
      cases rest : (q.checkBand bp).members (i + 1) back with
      | nil =>
        rw [rest, head?_nil] at first_eq
        rw [if_pos (.inr first_eq)]
        rfl
      | cons y ys =>
        rw [rest] at first_eq last_eq
        have none_first : qb.first ≠ none := by simp [first_eq]
        rw [if_neg (not_or.2 ⟨checked.first_ne is_band none_first, none_first⟩), last_eq,
          getLast?_cons_cons]
  · exact (Kept.checkBand q bp).trans Kept.enlist
  · intro call member
    split_ifs at member
    · exact mem_singleton.1 member
    · exact absurd member not_mem_nil
  · exact msg_enlist
  · rw [made_enlist, made_checkBand]
  · exact nband_enlist
  · intro y ne not_mem
    refine put_frame ?_ ne not_mem
    rw [links_enlist, links_checkBand]

end Queue
end Sol25.Streams
