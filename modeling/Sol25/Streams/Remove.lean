import Sol25.Streams.Put

/-!
# Taking messages off a queue

`getq` and `rmvq` keep the order and the counts of a queue.  When they take a band below its
low-water mark, they clear its want flag and back-enable it, and no other band.
-/

namespace Sol25.Streams

open List Option Bool

theorem Flow.release_wantw (f : Flow) : f.release.wantw = (f.wantw && !f.due) := by
  rw [Flow.release]
  by_cases due : f.due = true
  · simp [due]
  · simp [due]

theorem Flow.not_low {f : Flow} (still : f.release.wantw = true) :
    0 < f.lowat ∧ f.lowat ≤ f.count := by
  rw [Flow.release_wantw, Flow.due, Flow.low] at still
  cases wantw : f.wantw with
  | false =>
    rw [wantw] at still
    exact absurd still (by simp)
  | true =>
    simp only [wantw, Bool.true_and, Bool.not_or, Bool.and_eq_true, Bool.not_eq_true',
      decide_eq_false_iff_not] at still
    omega

@[simp] theorem Flow.release_count (f : Flow) : f.release.count = f.count := by
  rw [Flow.release]
  split_ifs <;> rfl

@[simp] theorem Flow.release_hiwat (f : Flow) : f.release.hiwat = f.hiwat := by
  rw [Flow.release]
  split_ifs <;> rfl

@[simp] theorem Flow.release_lowat (f : Flow) : f.release.lowat = f.lowat := by
  rw [Flow.release]
  split_ifs <;> rfl

@[simp] theorem Flow.release_full (f : Flow) : f.release.full = f.full := by
  rw [Flow.release]
  split_ifs <;> rfl

theorem Flow.release_low (f : Flow) : f.release.low = f.low := by
  rw [Flow.low, Flow.low, Flow.release_count, Flow.release_lowat]

theorem Flow.low_of_due {f : Flow} (due : f.due = true) : f.low = true := by
  rw [Flow.due, and_eq_true] at due
  exact due.2

namespace Queue

variable {q q' q'' : Queue} {cells cells' cells'' front back : List ℕ} {x y band : ℕ}
  {calls calls' : List Call}

/-! ### Back-enabling -/

/-- How calls serve the writers of the bands: a want flag is cleared exactly with a back-enable, and
one that stays is that of a band that is not low. -/
structure Serves (q : Queue) (cells : List ℕ) (q' : Queue) (cells' : List ℕ) (calls : List Call) :
    Prop where
  old : ∀ b f, q.flowAt b = some f → ∃ f', q'.flowAt b = some f' ∧ f'.hiwat = f.hiwat ∧
    f'.lowat = f.lowat ∧ (.backenable b ∈ calls ↔ f.wantw = true ∧ f'.wantw = false) ∧
    (f'.wantw = true → f.wantw = true ∧ (0 < f.lowat → f.lowat ≤ f.count → f.lowat ≤ f'.count) ∧
      (f.lowat = 0 → ∀ x ∈ cells, q.inBand b x = true → x ∈ cells'))
  new : ∀ b f', q'.flowAt b = some f' → q.flowAt b = none →
    f'.hiwat = q.flow.hiwat ∧ f'.lowat = q.flow.lowat ∧ f'.wantw = false
  none : ∀ b, q.flowAt b = none → .backenable b ∉ calls

theorem Serves.trans (first : Serves q cells q' cells' calls)
    (second : Serves q' cells' q'' cells'' calls') (msg : q'.msg = q.msg) :
    Serves q cells q'' cells'' (calls ++ calls') := by
  refine ⟨?_, ?_, ?_⟩
  · intro b f is_flow
    obtain ⟨f', is_flow', hiwat', lowat', back', want'⟩ := first.old b f is_flow
    obtain ⟨f'', is_flow'', hiwat'', lowat'', back'', want''⟩ := second.old b f' is_flow'
    refine ⟨f'', is_flow'', hiwat''.trans hiwat', lowat''.trans lowat', ?_, ?_⟩
    · rw [mem_append, back', back'']
      constructor
      · rintro (⟨wanted, cleared⟩ | ⟨wanted, cleared⟩)
        · refine ⟨wanted, ?_⟩
          by_contra still
          have := (want'' (by simpa using still)).1
          rw [this] at cleared
          exact Bool.noConfusion cleared
        · exact ⟨(want' wanted).1, cleared⟩
      · rintro ⟨wanted, cleared⟩
        cases between : f'.wantw with
        | false => exact .inl ⟨wanted, rfl⟩
        | true => exact .inr ⟨rfl, cleared⟩
    · intro still
      obtain ⟨wanted', count'', members''⟩ := want'' still
      obtain ⟨wanted, count', members'⟩ := want' wanted'
      rw [lowat'] at count'' members''
      refine ⟨wanted, fun positive above => count'' positive (count' positive above), ?_⟩
      intro zero x member inside
      refine members'' zero x (members' zero x member inside) ?_
      rwa [inBand, msg]
  · intro b f'' is_flow'' none_before
    cases between : q'.flowAt b with
    | none =>
      obtain ⟨hiwat'', lowat'', wantw''⟩ := second.new b f'' is_flow'' between
      obtain ⟨f', is_flow', hiwat', lowat', -⟩ := first.old 0 q.flow rfl
      obtain rfl : q'.flow = f' := some.inj is_flow'
      exact ⟨hiwat''.trans hiwat', lowat''.trans lowat', wantw''⟩
    | some f' =>
      obtain ⟨hiwat', lowat', wantw'⟩ := first.new b f' between none_before
      obtain ⟨g, is_flow, hiwat'', lowat'', -, want''⟩ := second.old b f' between
      obtain rfl : f'' = g := some.inj (is_flow''.symm.trans is_flow)
      refine ⟨hiwat''.trans hiwat', lowat''.trans lowat', ?_⟩
      by_contra still
      have := (want'' (by simpa using still)).1
      rw [wantw'] at this
      exact Bool.noConfusion this
  · intro b none_before member
    rcases mem_append.1 member with early | late
    · exact first.none b none_before early
    · cases between : q'.flowAt b with
      | none => exact second.none b between late
      | some f' =>
        obtain ⟨-, -, wantw'⟩ := first.new b f' between none_before
        obtain ⟨g, is_flow, -, -, back'', -⟩ := second.old b f' between
        have := (back''.1 late).1
        rw [wantw'] at this
        exact Bool.noConfusion this

theorem Serves.refl (q : Queue) (cells : List ℕ) : Serves q cells q cells [] := by
  refine ⟨?_, ?_, fun _ _ => not_mem_nil⟩
  · intro b f is_flow
    refine ⟨f, is_flow, rfl, rfl, ?_, ?_⟩
    · simp
    · exact fun wanted => ⟨wanted, fun _ above => above, fun _ x member _ => member⟩
  · intro b f is_flow none_before
    rw [is_flow] at none_before
    exact absurd none_before (by simp)

/-- One band may lose messages: its want flag is cleared when it is low. -/
theorem Serves.of_release {change : Flow → Flow}
    (same : ∀ f, (change f).hiwat = f.hiwat ∧ (change f).lowat = f.lowat ∧
      (change f).wantw = f.wantw)
    (flows : ∀ b, q'.flowAt b =
      if b = band then (q.flowAt b).map fun f => (change f).release else q.flowAt b)
    (back : ∀ b, .backenable b ∈ calls ↔
      b = band ∧ ∃ f, q.flowAt b = some f ∧ (change f).due = true)
    (others : ∀ x ∈ cells, q.inBand band x = false → x ∈ cells') :
    Serves q cells q' cells' calls := by
  refine ⟨?_, ?_, ?_⟩
  · intro b f is_flow
    by_cases here : b = band
    · obtain ⟨hiwat, lowat, wantw⟩ := same f
      refine ⟨(change f).release, ?_, ?_, ?_, ?_, ?_⟩
      · rw [flows, if_pos here, is_flow]
        rfl
      · rw [Flow.release_hiwat, hiwat]
      · rw [Flow.release_lowat, lowat]
      · have due : (∃ g, q.flowAt b = some g ∧ (change g).due = true) ↔ (change f).due = true := by
          rw [is_flow]
          simp
        rw [back, due, Flow.release_wantw, wantw]
        constructor
        · rintro ⟨-, is_due⟩
          have wanted : f.wantw = true := by
            rw [Flow.due, wantw, and_eq_true] at is_due
            exact is_due.1
          exact ⟨wanted, by simp [is_due]⟩
        · rintro ⟨wanted, cleared⟩
          rw [wanted] at cleared
          exact ⟨here, by simpa using cleared⟩
      · intro still
        obtain ⟨positive, above⟩ := Flow.not_low still
        rw [Flow.release_wantw, wantw, and_eq_true] at still
        rw [Flow.release_count]
        rw [lowat] at positive above
        exact ⟨still.1, fun _ _ => above, fun zero => absurd zero (by omega)⟩
    · refine ⟨f, ?_, rfl, rfl, ?_, ?_⟩
      · rw [flows, if_neg here, is_flow]
      · rw [back]
        simp [here]
      · refine fun wanted => ⟨wanted, fun _ above => above, fun _ x member inside => ?_⟩
        refine others x member ?_
        simp only [inBand, decide_eq_true_eq, decide_eq_false_iff_not] at inside ⊢
        omega
  · intro b f' is_flow none_before
    rw [flows, none_before] at is_flow
    exact absurd is_flow (by simp)
  · intro b none_before member
    obtain ⟨-, f, is_flow, -⟩ := (back b).1 member
    rw [none_before] at is_flow
    exact absurd is_flow (by simp)

/-- No count rises, and a band that is back-enabled is low. -/
def Lowers (q q' : Queue) (calls : List Call) : Prop :=
  ∀ b f f', q.flowAt b = some f → q'.flowAt b = some f' →
    f'.count ≤ f.count ∧ (.backenable b ∈ calls → f'.low = true)

theorem Lowers.trans (first : Lowers q q' calls) (second : Lowers q' q'' calls')
    (exist : ∀ b f, q.flowAt b = some f → ∃ f', q'.flowAt b = some f')
    (lowat : ∀ b f f', q'.flowAt b = some f → q''.flowAt b = some f' → f'.lowat = f.lowat) :
    Lowers q q'' (calls ++ calls') := by
  intro b f f'' is_flow is_flow''
  obtain ⟨f', is_flow'⟩ := exist b f is_flow
  obtain ⟨less', low'⟩ := first b f f' is_flow is_flow'
  obtain ⟨less'', low''⟩ := second b f' f'' is_flow' is_flow''
  have same := lowat b f' f'' is_flow' is_flow''
  refine ⟨less''.trans less', ?_⟩
  intro member
  rcases mem_append.1 member with early | late
  · have := low' early
    rw [Flow.low, or_eq_true, decide_eq_true_eq, decide_eq_true_eq] at this ⊢
    omega
  · exact low'' late

theorem Lowers.of_release {change : Flow → Flow} (less : ∀ f, (change f).count ≤ f.count)
    (flows : ∀ b, q'.flowAt b =
      if b = band then (q.flowAt b).map fun f => (change f).release else q.flowAt b)
    (back : ∀ b, .backenable b ∈ calls ↔
      b = band ∧ ∃ f, q.flowAt b = some f ∧ (change f).due = true) : Lowers q q' calls := by
  intro b f f' is_flow is_flow'
  rw [flows, is_flow] at is_flow'
  refine ⟨?_, ?_⟩
  · split_ifs at is_flow'
    · rw [← some.inj is_flow', Flow.release_count]
      exact less f
    · rw [← some.inj is_flow']
  · intro member
    obtain ⟨here, g, is_flow_g, is_due⟩ := (back b).1 member
    obtain rfl : f = g := some.inj (is_flow.symm.trans is_flow_g)
    rw [if_pos here] at is_flow'
    rw [← some.inj is_flow', Flow.release_low]
    exact Flow.low_of_due is_due

theorem Lowers.refl (q : Queue) : Lowers q q [] := by
  intro b f f' is_flow is_flow'
  obtain rfl : f = f' := some.inj (is_flow.symm.trans is_flow')
  exact ⟨le_refl _, fun member => absurd member not_mem_nil⟩

/-- Calls that put messages on the queue do not serve anyone. -/
theorem Serves.of_kept (kept : Kept q q')
    (count : ∀ b f f', q.flowAt b = some f → q'.flowAt b = some f' → f.count ≤ f'.count)
    (subset : cells ⊆ cells') (silent : ∀ b, .backenable b ∉ calls) :
    Serves q cells q' cells' calls := by
  refine ⟨?_, kept.new, fun b _ => silent b⟩
  intro b f is_flow
  obtain ⟨f', is_flow', hiwat, lowat, wantw⟩ := kept.old b f is_flow
  refine ⟨f', is_flow', hiwat, lowat, ?_, ?_⟩
  · constructor
    · exact fun member => absurd member (silent b)
    · rintro ⟨wanted, cleared⟩
      rw [wantw, wanted] at cleared
      exact Bool.noConfusion cleared
  · intro wanted
    have := count b f f' is_flow is_flow'
    exact ⟨wantw ▸ wanted, fun _ above => by omega, fun _ x member _ => subset member⟩

/-- Only flags that the order and the counts do not depend on change. -/
theorem Consistent.reflow (consistent : Consistent q cells) (msg : q'.msg = q.msg)
    (made : q'.made = q.made) (links : q'.links = q.links) (nband : q'.nband = q.nband)
    (ends : ∀ (i : ℕ) (qb' : Qband), q'.bands[i]? = some qb' →
      ∃ qb, q.bands[i]? = some qb ∧ qb'.first = qb.first ∧ qb'.last = qb.last)
    (flows : ∀ b f', q'.flowAt b = some f' → ∃ f, q.flowAt b = some f ∧ f'.count = f.count ∧
      f'.hiwat = f.hiwat ∧ f'.full = f.full) : Consistent q' cells := by
  have same : ∀ x ∈ cells, q'.msg x = q.msg x := fun x _ => by rw [msg]
  have rank_same : q'.rank = q.rank := by
    funext x
    simp only [rank, msg]
  refine ⟨?_, ?_, ?_, ?_, ?_, ?_, ?_, ?_, ?_⟩
  · rw [links]
    exact consistent.linked
  · rw [made]
    exact consistent.made
  · rw [msg]
    exact consistent.high
  · rw [rank_same]
    exact consistent.sorted
  · rw [msg, nband]
    exact consistent.banded
  · intro i qb' is_band
    obtain ⟨qb, is_old, first, -⟩ := ends i qb' is_band
    rw [first, members_congr same, consistent.first i qb is_old]
  · intro i qb' is_band
    obtain ⟨qb, is_old, -, last⟩ := ends i qb' is_band
    rw [last, members_congr same, consistent.last i qb is_old]
  · intro b f' is_flow'
    obtain ⟨f, is_flow, count, -, -⟩ := flows b f' is_flow'
    rw [count, bytes_congr same, consistent.count b f is_flow]
  · intro b f' is_flow' positive
    obtain ⟨f, is_flow, count, hiwat, full⟩ := flows b f' is_flow'
    rw [hiwat] at positive ⊢
    rw [count, full]
    exact consistent.full b f is_flow positive

/-! ### The end of getq and rmvq -/

section Handoff

variable {wantw : Want} {wake backenab : Bool}

/-- The queue with the want flag of a band cleared. -/
def calm (q : Queue) (band : ℕ) : Queue :=
  if band = 0 then { q with flow := { q.flow with wantw := false } }
  else q.setBand band fun qb => { qb with flow := { qb.flow with wantw := false } }

theorem handoff_fst (q : Queue) (band : ℕ) (wantw : Want) (wake backenab : Bool) :
    ∃ wantwsync, (handoff q band wantw wake backenab).1 =
      if (backenab && (wantw.qwantw || wantw.qbwantw)) = true then
        { q with wantwsync }.calm band
      else { q with wantwsync } := by
  by_cases sync : (wake && wantw.qwantwsync) = true
  · refine ⟨false, ?_⟩
    simp only [handoff, sync, if_true]
    rfl
  · refine ⟨q.wantwsync, ?_⟩
    simp only [handoff, sync]
    rfl

theorem calm_fields (q : Queue) (band : ℕ) : (q.calm band).msg = q.msg ∧
    (q.calm band).made = q.made ∧ (q.calm band).links = q.links ∧
    (q.calm band).nband = q.nband := by
  rw [calm]
  split_ifs
  · exact ⟨rfl, rfl, rfl, rfl⟩
  · exact ⟨rfl, rfl, rfl, nband_setBand ..⟩

theorem handoff_fields (q : Queue) (band : ℕ) (wantw : Want) (wake backenab : Bool) :
    (handoff q band wantw wake backenab).1.msg = q.msg ∧
      (handoff q band wantw wake backenab).1.made = q.made ∧
      (handoff q band wantw wake backenab).1.links = q.links ∧
      (handoff q band wantw wake backenab).1.nband = q.nband := by
  obtain ⟨wantwsync, eq⟩ := handoff_fst q band wantw wake backenab
  rw [eq]
  split_ifs
  · exact calm_fields _ band
  · exact ⟨rfl, rfl, rfl, rfl⟩

theorem bands_calm {i : ℕ} {qb' : Qband} (is_band : (q.calm band).bands[i]? = some qb') :
    ∃ qb, q.bands[i]? = some qb ∧ qb'.first = qb.first ∧ qb'.last = qb.last := by
  rw [calm] at is_band
  split_ifs at is_band
  · exact ⟨qb', is_band, rfl, rfl⟩
  · rw [bands_setBand] at is_band
    split_ifs at is_band
    · obtain ⟨qb, is_old, rfl⟩ := map_eq_some_iff.1 is_band
      exact ⟨qb, is_old, rfl, rfl⟩
    · exact ⟨qb', is_band, rfl, rfl⟩

theorem bands_handoff {i : ℕ} {qb' : Qband}
    (is_band : (handoff q band wantw wake backenab).1.bands[i]? = some qb') :
    ∃ qb, q.bands[i]? = some qb ∧ qb'.first = qb.first ∧ qb'.last = qb.last := by
  obtain ⟨wantwsync, eq⟩ := handoff_fst q band wantw wake backenab
  rw [eq] at is_band
  split_ifs at is_band
  · exact @bands_calm { q with wantwsync } band i qb' is_band
  · exact ⟨qb', is_band, rfl, rfl⟩

theorem flowAt_calm (q : Queue) (band b : ℕ) : (q.calm band).flowAt b =
    if b = band then (q.flowAt b).map fun f => { f with wantw := false } else q.flowAt b := by
  rw [calm]
  by_cases zero : band = 0
  · rw [if_pos zero, zero]
    cases b with
    | zero => rfl
    | succ i => rfl
  · rw [if_neg zero, flowAt_setBand (by omega)]
    by_cases here : b = band
    · rw [if_pos here, if_pos here, flowAt_pos (by omega), Option.map_map]
      rfl
    · rw [if_neg here, if_neg here]

/-- The hand-off clears the want flag of its band when a back-enable is due. -/
theorem flowAt_handoff {f : Flow} (is_flow : q.flowAt band = some f)
    (due : (backenab && (wantw.qwantw || wantw.qbwantw)) = f.due) (b : ℕ) :
    (handoff q band wantw wake backenab).1.flowAt b =
      if b = band then (q.flowAt b).map Flow.release else q.flowAt b := by
  obtain ⟨wantwsync, eq⟩ := handoff_fst q band wantw wake backenab
  rw [eq, due]
  by_cases is_due : f.due = true
  · rw [if_pos is_due, flowAt_calm]
    by_cases here : b = band
    · rw [if_pos here, if_pos here, here, is_flow]
      have : Queue.flowAt { q with wantwsync } band = some f := is_flow
      rw [this, map_some, map_some, Flow.release, if_pos is_due]
    · rw [if_neg here, if_neg here]
      rfl
  · rw [if_neg is_due]
    by_cases here : b = band
    · rw [if_pos here, here, is_flow, map_some, Flow.release, if_neg is_due]
      exact is_flow
    · rw [if_neg here]
      rfl

theorem backenable_mem_handoff (b : ℕ) :
    .backenable b ∈ (handoff q band wantw wake backenab).2 ↔
      b = band ∧ (backenab && (wantw.qwantw || wantw.qbwantw)) = true := by
  simp only [handoff, mem_append]
  split_ifs with sync back back <;> simp [back]

theorem Consistent.handoff (consistent : Consistent q cells) {f : Flow}
    (is_flow : q.flowAt band = some f)
    (due : (backenab && (wantw.qwantw || wantw.qbwantw)) = f.due) :
    Consistent (q.handoff band wantw wake backenab).1 cells := by
  obtain ⟨msg, made, links, nband⟩ := handoff_fields q band wantw wake backenab
  refine consistent.reflow msg made links nband (fun i qb' is_band => bands_handoff is_band) ?_
  intro b g is_new
  rw [flowAt_handoff is_flow due] at is_new
  split_ifs at is_new
  · obtain ⟨old, is_old, rfl⟩ := map_eq_some_iff.1 is_new
    exact ⟨old, is_old, old.release_count, old.release_hiwat, old.release_full⟩
  · exact ⟨g, is_new, rfl, rfl, rfl⟩

end Handoff

/-! ### Removal -/

/-- A message is taken out and its bytes are uncounted. -/
theorem Consistent.detach (consistent : Consistent q (front ++ x :: back))
    (msg : q'.msg = q.msg) (made : q'.made = q.made) (nband : q'.nband = q.nband)
    (links : q'.links = q.links.unlink front.getLast? x back.head?)
    (flows : ∀ b, q'.flowAt b = if b = (q.msg x).band.val then
      (q.flowAt b).map fun f => f.sub (q.msg x).size else q.flowAt b)
    (first : ∀ i qb, q'.bands[i]? = some qb → qb.first = (q.members (i + 1) (front ++ back)).head?)
    (last : ∀ i qb, q'.bands[i]? = some qb →
      qb.last = (q.members (i + 1) (front ++ back)).getLast?) :
    Consistent q' (front ++ back) := by
  have same : ∀ y ∈ front ++ back, q'.msg y = q.msg y := fun y _ => by rw [msg]
  have rank_same : q'.rank = q.rank := by
    funext y
    simp only [rank, msg]
  have sub : (front ++ back).Sublist (front ++ x :: back) :=
    Sublist.append (Sublist.refl _) (sublist_cons_self ..)
  have member_old : ∀ y ∈ front ++ back, y ∈ front ++ x :: back := fun y member => sub.subset member
  refine ⟨?_, ?_, ?_, ?_, ?_, ?_, ?_, ?_, ?_⟩
  · rw [links]
    exact consistent.linked.unlink
  · rw [made]
    exact fun y member => consistent.made y (member_old y member)
  · rw [msg]
    exact fun y member => consistent.high y (member_old y member)
  · rw [rank_same]
    exact Pairwise.sublist sub consistent.sorted
  · rw [msg, nband]
    exact fun y member => consistent.banded y (member_old y member)
  · intro i qb is_band
    rw [members_congr same, first i qb is_band]
  · intro i qb is_band
    rw [members_congr same, last i qb is_band]
  · intro b f is_flow
    rw [bytes_congr same]
    rw [flows] at is_flow
    split_ifs at is_flow with here
    · obtain ⟨old, is_old, rfl⟩ := map_eq_some_iff.1 is_flow
      have count := consistent.count b old is_old
      rw [bytes_insert_pos (by simp [inBand, here])] at count
      simp only [Flow.sub]
      omega
    · rw [consistent.count b f is_flow, bytes_insert_neg]
      simpa [inBand] using Ne.symm here
  · intro b f is_flow
    rw [flows] at is_flow
    split_ifs at is_flow
    · obtain ⟨old, is_old, rfl⟩ := map_eq_some_iff.1 is_flow
      exact (consistent.full b old is_old).sub _
    · exact consistent.full b f is_flow

theorem within_eq (q : Queue) (b : Fin 256) (x : Option ℕ) :
    q.within b x = x.filter (q.inBand b.val) := by
  rw [within]
  congr 1
  funext y
  rw [inBand, decide_eq_decide]
  exact Fin.ext_iff

theorem members_here (q : Queue) (x : ℕ) (front back : List ℕ) :
    q.members (q.msg x).band.val (front ++ x :: back) =
      q.members (q.msg x).band.val front ++ x :: q.members (q.msg x).band.val back := by
  rw [members_append, members_cons_pos]
  simp [inBand]

section Ends

variable (consistent : Consistent q (front ++ x :: back)) (named : (q.msg x).band ≠ 0)

include consistent named

theorem Consistent.named_rank : q.rank x = (q.msg x).band.val := by
  refine rank_of_band (consistent.high x (by simp)) ?_
  exact Nat.pos_of_ne_zero fun same => named (Fin.ext same)

theorem Consistent.back_below : ∀ y ∈ back, q.rank y ≤ (q.msg x).band.val := by
  intro y member
  rw [← consistent.named_rank named]
  exact rel_of_pairwise_cons (pairwise_append.1 consistent.sorted).2.1 member

theorem Consistent.front_above : ∀ y ∈ front, (q.msg x).band.val ≤ q.rank y := by
  intro y member
  rw [← consistent.named_rank named]
  exact (pairwise_append.1 consistent.sorted).2.2 y member x mem_cons_self

theorem Consistent.back_head : (q.members (q.msg x).band.val back).head? =
    back.head?.filter (q.inBand (q.msg x).band.val) := by
  have shifted : Consistent q ((front ++ [x]) ++ back) := by simpa using consistent
  exact shifted.members_head (Nat.pos_of_ne_zero fun same => named (Fin.ext same))
    (q.msg x).band.isLt (consistent.back_below named)

theorem Consistent.front_last : (q.members (q.msg x).band.val front).getLast? =
    front.getLast?.filter (q.inBand (q.msg x).band.val) :=
  consistent.members_last (Nat.pos_of_ne_zero fun same => named (Fin.ext same))
    (q.msg x).band.isLt (consistent.front_above named)

omit named in
theorem Consistent.not_around : x ∉ front ∧ x ∉ back := by
  have nodup := consistent.linked.nodup
  rw [nodup_append, nodup_cons] at nodup
  exact ⟨fun member => nodup.2.2 x member x mem_cons_self rfl, nodup.2.1.1⟩

/-- The first message of the band, when `rmvq` takes one out. -/
theorem Consistent.rmvq_first {first : Option ℕ}
    (is_first : first = (q.members (q.msg x).band.val (front ++ x :: back)).head?) :
    (if first = some x then q.within (q.msg x).band back.head? else first) =
      (q.members (q.msg x).band.val (front ++ back)).head? := by
  rw [members_here] at is_first
  rw [within_eq, ← consistent.back_head named, members_append]
  cases ahead : q.members (q.msg x).band.val front with
  | nil =>
    rw [ahead] at is_first
    rw [if_pos (show first = some x from is_first)]
    rfl
  | cons y ys =>
    rw [ahead] at is_first
    have ne : y ≠ x := by
      rintro rfl
      have member : y ∈ q.members (q.msg y).band.val front := by
        rw [ahead]
        exact mem_cons_self
      exact consistent.not_around.1 (mem_of_mem_filter member)
    rw [if_neg (by simpa [is_first] using ne), is_first]
    rfl

/-- The last message of the band, when `rmvq` takes one out. -/
theorem Consistent.rmvq_last {last : Option ℕ}
    (is_last : last = (q.members (q.msg x).band.val (front ++ x :: back)).getLast?) :
    (if last = some x then q.within (q.msg x).band front.getLast? else last) =
      (q.members (q.msg x).band.val (front ++ back)).getLast? := by
  rw [members_here] at is_last
  rw [within_eq, ← consistent.front_last named, members_append]
  rw [getLast?_append] at is_last
  rw [getLast?_append]
  cases behind : q.members (q.msg x).band.val back with
  | nil =>
    rw [behind] at is_last
    rw [if_pos (show last = some x from is_last)]
    rfl
  | cons y ys =>
    rw [behind, getLast?_cons_cons] at is_last
    cases end_eq : (y :: ys).getLast? with
    | none => simp [getLast?_eq_none_iff] at end_eq
    | some z =>
      have ne : z ≠ x := by
        rintro rfl
        have member := mem_of_getLast? end_eq
        rw [← behind] at member
        exact consistent.not_around.2 (mem_of_mem_filter member)
      rw [end_eq] at is_last
      rw [if_neg (by simpa [is_last] using ne), is_last]

end Ends

/-- A message was taken off the queue. -/
structure Took (q : Queue) (cells : List ℕ) (q' : Queue) (cells' : List ℕ) (calls : List Call) :
    Prop where
  consistent : Consistent q' cells'
  serves : Serves q cells q' cells' calls
  lowers : Lowers q q' calls
  msg : q'.msg = q.msg
  made : q'.made = q.made

theorem Took.refl (consistent : Consistent q cells) : Took q cells q cells [] :=
  ⟨consistent, Serves.refl q cells, Lowers.refl q, rfl, rfl⟩

theorem Took.trans (first : Took q cells q' cells' calls)
    (second : Took q' cells' q'' cells'' calls') : Took q cells q'' cells'' (calls ++ calls') := by
  refine ⟨second.consistent, first.serves.trans second.serves first.msg, ?_,
    second.msg.trans first.msg, second.made.trans first.made⟩
  refine first.lowers.trans second.lowers ?_ ?_
  · intro b f is_flow
    obtain ⟨f', is_flow', -⟩ := first.serves.old b f is_flow
    exact ⟨f', is_flow'⟩
  · intro b f f' is_flow is_flow'
    obtain ⟨g, is_flow_g, -, lowat, -⟩ := second.serves.old b f is_flow
    rwa [some.inj (is_flow'.symm.trans is_flow_g)]

/-- A message is detached and the hand-off for its band follows. -/
theorem Consistent.handed (consistent : Consistent q (front ++ x :: back))
    (detached : Consistent q' (front ++ back)) (msg : q'.msg = q.msg) (made : q'.made = q.made)
    (flows : ∀ b, q'.flowAt b = if b = (q.msg x).band.val then
      (q.flowAt b).map fun f => f.sub (q.msg x).size else q.flowAt b)
    {f : Flow} (is_flow : q.flowAt (q.msg x).band.val = some f) (wantw : Want) (wake : Bool)
    (captured : (wantw.qwantw || wantw.qbwantw) = f.wantw) :
    Took q (front ++ x :: back)
      (q'.handoff (q.msg x).band.val wantw wake (f.sub (q.msg x).size).low).1 (front ++ back)
      (q'.handoff (q.msg x).band.val wantw wake (f.sub (q.msg x).size).low).2 ∧
    ∀ b, .backenable b ∈ (q'.handoff (q.msg x).band.val wantw wake (f.sub (q.msg x).size).low).2 →
        b = (q.msg x).band.val := by
  have is_flow' : q'.flowAt (q.msg x).band.val = some (f.sub (q.msg x).size) := by
    rw [flows, if_pos rfl, is_flow]
    rfl
  have due : ((f.sub (q.msg x).size).low && (wantw.qwantw || wantw.qbwantw)) =
      (f.sub (q.msg x).size).due := by
    rw [captured, Flow.due, Bool.and_comm]
    rfl
  obtain ⟨msg', made', -, -⟩ :=
    handoff_fields q' (q.msg x).band.val wantw wake (f.sub (q.msg x).size).low
  have released : ∀ b,
      (q'.handoff (q.msg x).band.val wantw wake (f.sub (q.msg x).size).low).1.flowAt b =
        if b = (q.msg x).band.val then (q.flowAt b).map fun f => (f.sub (q.msg x).size).release
        else q.flowAt b := by
    intro b
    rw [flowAt_handoff is_flow' due, flows]
    split_ifs
    · rw [Option.map_map]
      rfl
    · rfl
  have back_iff : ∀ b, .backenable b ∈
      (q'.handoff (q.msg x).band.val wantw wake (f.sub (q.msg x).size).low).2 ↔
        b = (q.msg x).band.val ∧ ∃ g, q.flowAt b = some g ∧ (g.sub (q.msg x).size).due = true := by
    intro b
    rw [backenable_mem_handoff, due]
    constructor
    · rintro ⟨rfl, is_due⟩
      exact ⟨rfl, f, is_flow, is_due⟩
    · rintro ⟨rfl, g, is_flow_g, is_due⟩
      obtain rfl : f = g := some.inj (is_flow.symm.trans is_flow_g)
      exact ⟨rfl, is_due⟩
  refine ⟨⟨detached.handoff is_flow' due, ?_,
    Lowers.of_release (fun g => Nat.sub_le ..) released back_iff, msg'.trans msg,
    made'.trans made⟩, fun b member => ((back_iff b).1 member).1⟩
  refine @Serves.of_release q _ _ _ (q.msg x).band.val _ (fun f => f.sub (q.msg x).size)
    (fun _ => ⟨rfl, rfl, rfl⟩) released back_iff ?_
  intro y member outside
  rw [mem_append, mem_cons] at member
  rw [mem_append]
  rcases member with front_mem | rfl | back_mem
  · exact .inl front_mem
  · simp [inBand] at outside
  · exact .inr back_mem

theorem members_detach_zero (zero : (q.msg x).band = 0) (i : ℕ) (front back : List ℕ) :
    q.members (i + 1) (front ++ x :: back) = q.members (i + 1) (front ++ back) := by
  rw [members_append, members_append, members_cons_neg]
  simp [inBand, zero]

theorem Consistent.detach_zero (consistent : Consistent q (front ++ x :: back))
    (zero : (q.msg x).band = 0) {wantr : Bool} :
    Consistent { q with
      links := q.links.unlink front.getLast? x back.head?
      flow := q.flow.sub (q.msg x).size
      wantr := wantr } (front ++ back) := by
  refine consistent.detach rfl rfl rfl rfl ?_ ?_ ?_
  · intro b
    rw [zero]
    cases b with
    | zero => rfl
    | succ i => rfl
  · intro i qb is_band
    rw [← members_detach_zero zero]
    exact consistent.first i qb is_band
  · intro i qb is_band
    rw [← members_detach_zero zero]
    exact consistent.last i qb is_band

/-- A message of another band is taken out, and the ends of its band move. -/
theorem Consistent.detach_band (consistent : Consistent q (front ++ x :: back))
    (named : (q.msg x).band ≠ 0) {qb : Qband}
    (is_band : q.bands[(q.msg x).band.val - 1]? = some qb) {change : Qband → Qband} {wantr : Bool}
    (flow : (change qb).flow = qb.flow.sub (q.msg x).size)
    (first : (change qb).first = (q.members (q.msg x).band.val (front ++ back)).head?)
    (last : (change qb).last = (q.members (q.msg x).band.val (front ++ back)).getLast?) :
    Consistent ({ q with
      links := q.links.unlink front.getLast? x back.head?
      wantr := wantr }.setBand (q.msg x).band.val change) (front ++ back) ∧
    ∀ b, ({ q with
      links := q.links.unlink front.getLast? x back.head?
      wantr := wantr }.setBand (q.msg x).band.val change).flowAt b =
        if b = (q.msg x).band.val then (q.flowAt b).map fun f => f.sub (q.msg x).size
        else q.flowAt b := by
  have positive : 0 < (q.msg x).band.val := Nat.pos_of_ne_zero fun same => named (Fin.ext same)
  have flows : ∀ b, ({ q with
      links := q.links.unlink front.getLast? x back.head?
      wantr := wantr }.setBand (q.msg x).band.val change).flowAt b =
        if b = (q.msg x).band.val then (q.flowAt b).map fun f => f.sub (q.msg x).size
        else q.flowAt b := by
    intro b
    rw [flowAt_setBand positive]
    by_cases here : b = (q.msg x).band.val
    · rw [if_pos here, if_pos here, here, flowAt_pos positive, is_band, map_some,
        map_some, map_some, flow]
    · rw [if_neg here, if_neg here]
      rfl
  refine ⟨?_, flows⟩
  have other : ∀ i, ¬ (q.msg x).band.val - 1 = i →
      q.members (i + 1) (front ++ x :: back) = q.members (i + 1) (front ++ back) := by
    intro i ne
    rw [members_append, members_append, members_cons_neg]
    rw [inBand, decide_eq_false_iff_not]
    omega
  refine consistent.detach rfl rfl (nband_setBand ..) rfl flows ?_ ?_
  · intro i qb' is_band'
    rw [bands_setBand] at is_band'
    split_ifs at is_band' with here
    · subst here
      rw [is_band, map_some, some.injEq] at is_band'
      rw [← is_band', Nat.sub_add_cancel positive, first]
    · rw [← other i here]
      exact consistent.first i qb' is_band'
  · intro i qb' is_band'
    rw [bands_setBand] at is_band'
    split_ifs at is_band' with here
    · subst here
      rw [is_band, map_some, some.injEq] at is_band'
      rw [← is_band', Nat.sub_add_cancel positive, last]
    · rw [← other i here]
      exact consistent.last i qb' is_band'

/-- `rmvq` takes a message out. -/
theorem Consistent.rmvq (consistent : Consistent q (front ++ x :: back)) :
    ∃ q' calls, q.rmvq x = some (q', calls) ∧ Took q (front ++ x :: back) q' (front ++ back) calls ∧
      ∀ b, .backenable b ∈ calls → b = (q.msg x).band.val := by
  obtain ⟨prev, next⟩ := consistent.linked.neighbours
  by_cases zero : (q.msg x).band = 0
  · have is_flow : q.flowAt (q.msg x).band.val = some q.flow := by
      rw [zero]
      rfl
    have detached := @Consistent.detach_zero q front back x consistent zero q.wantr
    simp only [Queue.rmvq, zero, if_true, prev, next]
    refine ⟨_, _, rfl, ?_⟩
    have took := consistent.handed detached rfl rfl (fun b => by rw [zero]; cases b <;> rfl)
      is_flow q.wants
      (decide ((q.flow.sub (q.msg x).size).count < (q.flow.sub (q.msg x).size).hiwat))
      (or_false _)
    rw [zero] at took
    exact took
  · obtain ⟨qb, is_band, first, last⟩ := consistent.band_some zero (consistent.banded x (by simp))
    have positive : 0 < (q.msg x).band.val := Nat.pos_of_ne_zero fun same => zero (Fin.ext same)
    have is_flow : q.flowAt (q.msg x).band.val = some qb.flow := by
      rw [flowAt_pos positive, is_band]
      rfl
    simp only [Queue.rmvq, zero, if_false, prev, next, is_band]
    refine ⟨_, _, rfl, ?_⟩
    obtain ⟨detached, flows⟩ := @Consistent.detach_band q front back x consistent zero qb is_band
      (fun qb' =>
        { first := if qb'.first = some x then q.within (q.msg x).band back.head? else qb'.first
          last := if qb'.last = some x then q.within (q.msg x).band front.getLast? else qb'.last
          flow := qb.flow.sub (q.msg x).size }) q.wantr rfl
      (consistent.rmvq_first zero first) (consistent.rmvq_last zero last)
    exact consistent.handed detached rfl rfl flows is_flow qb.wants false rfl

/-- The ends of the band of the first message, when `getq` takes it. -/
theorem Consistent.getq_ends (consistent : Consistent q (x :: back)) (named : (q.msg x).band ≠ 0)
    {qb : Qband} (first : qb.first = (q.members (q.msg x).band.val (x :: back)).head?)
    (last : qb.last = (q.members (q.msg x).band.val (x :: back)).getLast?) {flow : Flow} :
    (if qb.first = qb.last then ⟨none, none, flow⟩ else ⟨back.head?, qb.last, flow⟩ : Qband) =
      ⟨(q.members (q.msg x).band.val back).head?, (q.members (q.msg x).band.val back).getLast?,
        flow⟩ := by
  have inside : q.inBand (q.msg x).band.val x = true := by simp [inBand]
  have head := @Consistent.back_head q [] back x consistent named
  rw [members_cons_pos inside] at first last
  cases rest : q.members (q.msg x).band.val back with
  | nil =>
    rw [rest] at first last
    rw [if_pos (first.trans last.symm)]
    rfl
  | cons y ys =>
    rw [rest, getLast?_cons_cons] at last
    rw [rest] at head
    have back_head : back.head? = some y := (filter_eq_some_iff.1 head.symm).1
    have ne : qb.first ≠ qb.last := by
      rw [first, last]
      intro same
      have member := mem_of_getLast? same.symm
      rw [← rest] at member
      exact (@Consistent.not_around q [] back x consistent).2 (mem_of_mem_filter member)
    rw [if_neg ne, back_head, last]
    rfl

/-- `getq` finds no message: the writers of band 0 are served when it is low. -/
theorem Consistent.getq_empty (consistent : Consistent q []) :
    Took q [] ({ q with wantr := true }.handoff 0 q.wants true q.flow.low).1 []
      ({ q with wantr := true }.handoff 0 q.wants true q.flow.low).2 := by
  have due : (q.flow.low && (q.wants.qwantw || q.wants.qbwantw)) = q.flow.due := by
    simp only [wants, Bool.or_false, Flow.due, Bool.and_comm]
  have reading : Consistent { q with wantr := true } [] :=
    ⟨consistent.linked, consistent.made, consistent.high, consistent.sorted, consistent.banded,
      consistent.first, consistent.last, consistent.count, consistent.full⟩
  have is_flow : Queue.flowAt { q with wantr := true } 0 = some q.flow := rfl
  obtain ⟨msg, made, -, -⟩ := handoff_fields { q with wantr := true } 0 q.wants true q.flow.low
  have released : ∀ b, ({ q with wantr := true }.handoff 0 q.wants true q.flow.low).1.flowAt b =
      if b = 0 then (q.flowAt b).map fun f => (id f).release else q.flowAt b := by
    intro b
    rw [flowAt_handoff is_flow due]
    rfl
  have back_iff : ∀ b, .backenable b ∈
      ({ q with wantr := true }.handoff 0 q.wants true q.flow.low).2 ↔
        b = 0 ∧ ∃ f, q.flowAt b = some f ∧ (id f).due = true := by
    intro b
    rw [backenable_mem_handoff, due]
    constructor
    · rintro ⟨rfl, is_due⟩
      exact ⟨rfl, q.flow, rfl, is_due⟩
    · rintro ⟨rfl, f, is_flow, is_due⟩
      obtain rfl : q.flow = f := some.inj is_flow
      exact ⟨rfl, is_due⟩
  exact ⟨reading.handoff is_flow due, Serves.of_release (fun _ => ⟨rfl, rfl, rfl⟩) released
    back_iff fun y member => absurd member not_mem_nil,
    Lowers.of_release (fun _ => le_refl _) released back_iff, msg, made⟩

/-- `getq` takes no message behind one that it may take. -/
def Passes (q : Queue) (cells : List ℕ) (y : ℕ) : Prop :=
  ∃ front back, cells = front ++ y :: back ∧ ∀ z ∈ front, (q.msg z).noget = true

/-- `getq` passes over the messages it may not take. -/
theorem Consistent.getq_skip (consistent : Consistent q (x :: back))
    (noget : (q.msg x).noget = true) :
    ∃ result q' calls, q.getq = some (result, q', calls) ∧
      Took q (x :: back) q' (match result with
        | none => x :: back
        | some y => (x :: back).erase y) calls ∧
      ∀ y, result = some y → q.Passes (x :: back) y ∧
        ∀ b, .backenable b ∈ calls → b = (q.msg y).band.val := by
  have first : q.links.first = some x := consistent.first_eq
  have skipped := @Consistent.skip q [] (x :: back) consistent fun tmp => tmp.noget
  simp only [Queue.getq, first, noget, if_true]
  rw [head?_cons] at skipped
  rw [skipped]
  cases found : ((x :: back).dropWhile fun y => (q.msg y).noget).head? with
  | none => exact ⟨none, q, [], rfl, Took.refl consistent, fun y same => absurd same (by simp)⟩
  | some mp =>
    obtain ⟨back', drops⟩ := head?_eq_some_iff.1 found
    have parts := (takeWhile_append_dropWhile (p := fun y => (q.msg y).noget) (l := x :: back)).symm
    have passed := @mem_takeWhile_imp _ (fun y => (q.msg y).noget) (x :: back)
    rw [drops] at parts
    generalize (x :: back).takeWhile (fun y => (q.msg y).noget) = front' at parts passed
    have around : Consistent q (front' ++ mp :: back') := parts ▸ consistent
    obtain ⟨q', calls, removes, took, only⟩ := around.rmvq
    have erases : (x :: back).erase mp = front' ++ back' := by
      rw [parts, erase_append_right _ around.not_around.1, erase_cons_head]
    refine ⟨some mp, q', calls, ?_, ?_, ?_⟩
    · simp only [removes, map_some]
    · simp only [erases]
      rw [parts]
      exact took
    · intro y same
      rw [← some.inj same]
      exact ⟨⟨front', back', parts, fun z => passed⟩, only⟩

/-- `getq` takes the first message. -/
theorem Consistent.getq_take (consistent : Consistent q (x :: back))
    (noget : ¬ (q.msg x).noget = true) :
    ∃ q' calls, q.getq = some (some x, q', calls) ∧ Took q (x :: back) q' back calls ∧
      ∀ b, .backenable b ∈ calls → b = (q.msg x).band.val := by
  have first : q.links.first = some x := consistent.first_eq
  have next := (@Doubly.Holds.neighbours _ q.links [] x back consistent.linked).2
  by_cases zero : (q.msg x).band = 0
  · have is_flow : q.flowAt (q.msg x).band.val = some q.flow := by
      rw [zero]
      rfl
    have took := @Consistent.handed q _ [] back x consistent
      (@Consistent.detach_zero q [] back x consistent zero false) rfl rfl
      (fun b => by rw [zero]; cases b <;> rfl) _ is_flow q.wants
      (decide ((q.flow.sub (q.msg x).size).count < (q.flow.sub (q.msg x).size).hiwat))
      (or_false _)
    rw [zero] at took
    refine ⟨_, _, ?_, took.1, by rw [zero]; exact took.2⟩
    simp only [Queue.getq, first, noget, next, zero, if_true]
    rfl
  · obtain ⟨qb, is_band, band_first, band_last⟩ := consistent.band_some zero
      (consistent.banded x (by simp))
    have positive : 0 < (q.msg x).band.val := Nat.pos_of_ne_zero fun same => zero (Fin.ext same)
    have is_flow : q.flowAt (q.msg x).band.val = some qb.flow := by
      rw [flowAt_pos positive, is_band]
      rfl
    have ends := @Consistent.getq_ends q back x consistent zero qb band_first band_last
      (qb.flow.sub (q.msg x).size)
    obtain ⟨detached, flows⟩ := @Consistent.detach_band q [] back x consistent zero qb is_band
      (fun qb' =>
        if qb'.first = qb'.last then ⟨none, none, qb.flow.sub (q.msg x).size⟩
        else ⟨back.head?, qb'.last, qb.flow.sub (q.msg x).size⟩) false
      (by simp only [ends]) (by simp only [ends]; rfl) (by simp only [ends]; rfl)
    have took := @Consistent.handed q _ [] back x consistent detached rfl rfl flows _ is_flow
      qb.wants false rfl
    refine ⟨_, _, ?_, took⟩
    simp only [Queue.getq, first, noget, next, zero, is_band, if_false]
    rfl

/-- `getq` takes at most one message. -/
theorem Consistent.getq (consistent : Consistent q cells) :
    ∃ result q' calls, q.getq = some (result, q', calls) ∧
      Took q cells q' (match result with
        | none => cells
        | some x => cells.erase x) calls ∧
      ∀ y, result = some y → q.Passes cells y ∧
        ∀ b, .backenable b ∈ calls → b = (q.msg y).band.val := by
  cases cells with
  | nil =>
    have first : q.links.first = none := consistent.first_eq
    refine ⟨none, _, _, ?_, consistent.getq_empty, fun y same => absurd same (by simp)⟩
    simp only [Queue.getq, first]
  | cons x back =>
    by_cases noget : (q.msg x).noget = true
    · exact consistent.getq_skip noget
    · obtain ⟨q', calls, gets, took, only⟩ := consistent.getq_take noget
      refine ⟨some x, q', calls, gets, ?_, ?_⟩
      · simpa only [erase_cons_head] using took
      · intro y same
        rw [← some.inj same]
        exact ⟨⟨[], back, rfl, fun _ none_here => nomatch none_here⟩, only⟩

end Queue
end Sol25.Streams
