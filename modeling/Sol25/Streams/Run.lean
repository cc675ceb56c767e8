import Sol25.Streams.Flush

/-!
# Runs of a queue

Every call that the interface allows returns and leaves the queue in order.
-/

namespace Sol25.Streams

open List Option Function Nat

namespace Queue

variable {q q' : Queue} {cells cells' front back : List ℕ} {x y band : ℕ}

/-! ### One call -/

/-- How the messages on the queue change in one call. -/
inductive Moved (q : Queue) (cells : List ℕ) (event : Event) (q' : Queue) : List ℕ → Prop
  | fewer {cells' : List ℕ} (sub : cells'.Sublist cells) (msg : q'.msg = q.msg)
      (made : q'.made = q.made) (taking : ∀ m, event ≠ .putq m) : Moved q cells event q' cells'
  | put {front back : List ℕ} (parts : cells = front ++ back)
      (msg : ∀ x, x ≠ q.made → q'.msg x = q.msg x) (made : q'.made = q.made + 1)
      (behind : ∀ m, event = .putq m → ∀ y ∈ back, q'.rank y < q'.rank q.made) :
      Moved q cells event q' (front ++ q.made :: back)

structure Asked (q : Queue) (pri : ℕ) (q' : Queue) (refusal : Option ℕ) : Prop where
  flows : ∀ b, q'.flowAt b = if b = pri then (q.flowAt b).map Flow.ask else q.flowAt b
  refusal : ∀ b, refusal = some b ↔ b = pri ∧ ∃ f, q.flowAt b = some f ∧ f.full = true

/-- What one call does. -/
structure Acted (q : Queue) (cells : List ℕ) (event : Event) (out : Outcome) (cells' : List ℕ) :
    Prop where
  consistent : Consistent out.queue cells'
  moved : Moved q cells event out.queue cells'
  serves : (out.refusal = none ∧ Serves q cells out.queue cells' out.calls) ∨
    (cells' = cells ∧ out.calls = [] ∧ ∃ pri, Asked q pri out.queue out.refusal)
  /-- A band that is back-enabled is low. -/
  low : ∀ b f', .backenable b ∈ out.calls → out.queue.flowAt b = some f' → f'.low = true
  /-- Where one message is taken, only its band is back-enabled. -/
  only : (event = .getq ∨ ∃ mp, event = .rmvq mp) → ∀ x ∈ cells, x ∉ cells' →
    ∀ b, .backenable b ∈ out.calls → b = (q.msg x).band.val

theorem Consistent.hand (consistent : Consistent q cells) (m : Msg) :
    Consistent (q.hand m) cells := by
  have same : ∀ x ∈ cells, (q.hand m).msg x = q.msg x := fun x member =>
    update_of_ne (consistent.made x member).ne _ _
  refine ⟨consistent.linked, ?_, ?_, ?_, ?_, ?_, ?_, ?_, consistent.full⟩
  · exact fun x member => lt_succ_of_lt (consistent.made x member)
  · intro x member
    rw [same x member]
    exact consistent.high x member
  · refine Pairwise.imp_of_mem ?_ consistent.sorted
    intro x y x_mem y_mem falls
    simpa only [rank, same x x_mem, same y y_mem] using falls
  · intro x member
    rw [same x member]
    exact consistent.banded x member
  · intro i qb is_band
    rw [members_congr same]
    exact consistent.first i qb is_band
  · intro i qb is_band
    rw [members_congr same]
    exact consistent.last i qb is_band
  · intro b f is_flow
    rw [bytes_congr same]
    exact consistent.count b f is_flow

theorem not_mem_of_made (consistent : Consistent q cells) : q.made ∉ cells := fun member =>
  absurd (consistent.made _ member) (lt_irrefl _)

theorem bytes_le_insert (q : Queue) (band x : ℕ) (front back : List ℕ) :
    q.bytes band (front ++ back) ≤ q.bytes band (front ++ x :: back) := by
  cases inside : q.inBand band x with
  | true =>
    rw [bytes_insert_pos inside]
    exact Nat.le_add_right ..
  | false => rw [bytes_insert_neg inside]

/-- What `putq` and `putbq` of a new message have in common. -/
theorem Put.acted {m : Msg} {calls : List Call} (consistent : Consistent q cells)
    (put : Put (q.hand m) q.made front back q' calls) (parts : front ++ back = cells)
    (event : Event) (taking : ¬ (event = .getq ∨ ∃ mp, event = .rmvq mp))
    (behind : (∃ m, event = .putq m) → ∀ y ∈ back, (q.hand m).rank y < (q.hand m).rank q.made) :
    Acted q cells event ⟨q', calls, none⟩ (front ++ q.made :: back) := by
  subst parts
  have msg : ∀ x, x ≠ q.made → q'.msg x = q.msg x := by
    intro x ne
    rw [put.msg, msg_checkBand_ne ne]
    exact update_of_ne ne _ _
  have rank_same : q'.rank = (q.hand m).rank := by
    rw [← rank_checkBand (q.hand m) q.made]
    funext x
    simp only [rank, put.msg]
  have silent : ∀ b, .backenable b ∉ calls := fun b member => absurd (put.calls _ member) (by simp)
  refine ⟨put.consistent, ?_, .inl ⟨rfl, ?_⟩, ?_, ?_⟩
  · refine Moved.put rfl msg put.made ?_
    intro m' is_putq y member
    rw [rank_same]
    exact behind ⟨m', is_putq⟩ y member
  · have handed : Kept q (q.hand m) := Kept.of_flows fun _ => .inl rfl
    refine Serves.of_kept (handed.trans put.kept) ?_ ?_ silent
    · intro b f f' is_flow is_flow'
      have same : ∀ x ∈ front ++ back, q'.msg x = q.msg x := fun x member =>
        msg x (consistent.made x member).ne
      rw [consistent.count b f is_flow, put.consistent.count b f' is_flow', ← bytes_congr same]
      exact bytes_le_insert q' b q.made front back
    · exact (Sublist.append (Sublist.refl _) (sublist_cons_self ..)).subset
  · exact fun b f' member => absurd member (silent b)
  · exact fun takes => absurd takes taking

variable {event : Event}

theorem Took.acted {calls : List Call} (took : Took q cells q' cells' calls)
    (sub : cells'.Sublist cells) (taking : ∀ m, event ≠ .putq m)
    (only : (event = .getq ∨ ∃ mp, event = .rmvq mp) → ∀ x ∈ cells, x ∉ cells' →
      ∀ b, .backenable b ∈ calls → b = (q.msg x).band.val) :
    Acted q cells event ⟨q', calls, none⟩ cells' := by
  refine ⟨took.consistent, Moved.fewer sub took.msg took.made taking,
    .inl ⟨rfl, took.serves⟩, ?_, only⟩
  intro b f' member is_flow'
  cases before : q.flowAt b with
  | none => exact absurd member (took.serves.none b before)
  | some f => exact (took.lowers b f f' before is_flow').2 member

end Queue

theorem Flow.ask_same (f : Flow) : f.ask.count = f.count ∧ f.ask.hiwat = f.hiwat ∧
    f.ask.lowat = f.lowat ∧ f.ask.full = f.full ∧ f.ask.wantw = (f.wantw || f.full) := by
  rw [Flow.ask]
  by_cases full : f.full = true
  · simp [full]
  · simp [full]

namespace Queue

variable {q q' : Queue} {cells cells' front back : List ℕ} {x y band : ℕ}

theorem Asked.acted {pri : ℕ} {refusal : Option ℕ} (consistent : Consistent q cells)
    (asked : Asked q pri q' refusal) (msg : q'.msg = q.msg) (made : q'.made = q.made)
    (links : q'.links = q.links) (nband : q'.nband = q.nband)
    (ends : ∀ (i : ℕ) (qb' : Qband), q'.bands[i]? = some qb' → ∃ qb, q.bands[i]? = some qb ∧
      qb'.first = qb.first ∧ qb'.last = qb.last)
    (taking : ∀ m, event ≠ .putq m) (only : ¬ (event = .getq ∨ ∃ mp, event = .rmvq mp)) :
    Acted q cells event ⟨q', [], refusal⟩ cells := by
  refine ⟨?_, Moved.fewer (Sublist.refl _) msg made taking, .inr ⟨rfl, rfl, pri, asked⟩,
    fun b f' member => absurd member not_mem_nil, fun takes => absurd takes only⟩
  refine consistent.reflow msg made links nband ends ?_
  intro b f' is_flow'
  rw [asked.flows] at is_flow'
  split_ifs at is_flow'
  · obtain ⟨f, is_flow, rfl⟩ := map_eq_some_iff.1 is_flow'
    exact ⟨f, is_flow, f.ask_same.1, f.ask_same.2.1, f.ask_same.2.2.2.1⟩
  · exact ⟨f', is_flow', rfl, rfl, rfl⟩

theorem refusal_iff (full : Bool) (pri b : ℕ) :
    (if (!full) = true then none else some pri) = some b ↔ b = pri ∧ full = true := by
  cases full <;> simp [eq_comm]

theorem flow_full_iff {f : Flow} (is_flow : q.flowAt band = some f) (b : ℕ) :
    (b = band ∧ f.full = true) ↔ b = band ∧ ∃ g, q.flowAt b = some g ∧ g.full = true := by
  constructor
  · rintro ⟨rfl, full⟩
    exact ⟨rfl, f, is_flow, full⟩
  · rintro ⟨rfl, g, is_flow_g, full⟩
    rw [← some.inj (is_flow.symm.trans is_flow_g)] at full
    exact ⟨rfl, full⟩

theorem Consistent.canput_acted (consistent : Consistent q cells) (taking : ∀ m, event ≠ .putq m)
    (only : ¬ (event = .getq ∨ ∃ mp, event = .rmvq mp)) :
    Acted q cells event ⟨q.canput.2, [], if q.canput.1 then none else some 0⟩ cells := by
  have asked : Asked q 0 q.canput.2 (if q.canput.1 then none else some 0) := by
    refine ⟨?_, ?_⟩
    · intro b
      cases b with
      | zero => rfl
      | succ i => rfl
    · intro b
      rw [← flow_full_iff rfl b]
      exact refusal_iff q.flow.full 0 b
  exact asked.acted consistent rfl rfl rfl rfl (fun i qb is_band => ⟨qb, is_band, rfl, rfl⟩)
    taking only

theorem Consistent.bcanput_acted (consistent : Consistent q cells) (pri : Fin 256) :
    ∃ room q', q.bcanput pri = some (room, q') ∧
      Acted q cells (.bcanput pri) ⟨q', [], if room then none else some pri.val⟩ cells := by
  have taking : ∀ m, Event.bcanput pri ≠ .putq m := by simp
  have only : ¬ (Event.bcanput pri = .getq ∨ ∃ mp, Event.bcanput pri = .rmvq mp) := by simp
  by_cases zero : pri = 0
  · subst zero
    exact ⟨_, _, rfl, consistent.canput_acted taking only⟩
  have positive : 0 < pri.val := Nat.pos_of_ne_zero fun same => zero (Fin.ext same)
  by_cases missing : q.nband < pri.val
  · refine ⟨true, q, by rw [Queue.bcanput, if_neg zero, if_pos missing], ?_⟩
    exact (Took.refl consistent).acted (Sublist.refl _) taking fun takes => absurd takes only
  obtain ⟨qb, is_band⟩ : ∃ qb, q.bands[pri.val - 1]? = some qb := by
    rw [nband] at missing
    exact ⟨_, getElem?_eq_getElem (by omega)⟩
  have is_flow : q.flowAt pri.val = some qb.flow := by
    rw [flowAt_pos positive, is_band]
    rfl
  have asks : q.bcanput pri = some (!qb.flow.full,
      q.setBand pri.val fun qb => { qb with flow := qb.flow.ask }) := by
    simp only [Queue.bcanput, zero, missing, is_band, if_false]
  refine ⟨_, _, asks, ?_⟩
  have asked : Asked q pri.val (q.setBand pri.val fun qb => { qb with flow := qb.flow.ask })
      (if (!qb.flow.full) = true then none else some pri.val) := by
    refine ⟨?_, ?_⟩
    · intro b
      rw [flowAt_setBand positive]
      by_cases here : b = pri.val
      · rw [if_pos here, if_pos here, flowAt_pos (by omega), Option.map_map]
        rfl
      · rw [if_neg here, if_neg here]
    · intro b
      rw [← flow_full_iff is_flow b]
      exact refusal_iff qb.flow.full pri.val b
  refine asked.acted consistent rfl rfl rfl (nband_setBand ..) ?_ taking only
  intro i qb' is_band'
  rw [bands_setBand] at is_band'
  split_ifs at is_band'
  · obtain ⟨old, is_old, rfl⟩ := map_eq_some_iff.1 is_band'
    exact ⟨old, is_old, rfl, rfl⟩
  · exact ⟨qb', is_band', rfl, rfl⟩

/-- Every call that is allowed returns. -/
theorem Consistent.act (consistent : Consistent q cells) (allowed : q.Allowed event) :
    ∃ out cells', q.act event = some out ∧ Acted q cells event out cells' := by
  cases event with
  | putq m =>
    obtain ⟨q', calls, puts, put⟩ := (consistent.hand m).putq (not_mem_of_made consistent)
      (lt_succ_self q.made)
    have threshold := (consistent.hand m).sorted.threshold_le ((q.hand m).rank q.made)
    have acted := put.acted consistent takeWhile_append_dropWhile (.putq m) (by simp) (by
      intro _ y member
      simpa using threshold.of_mem_dropWhile y member)
    exact ⟨⟨q', calls, none⟩, _, by rw [Queue.act, puts]; rfl, acted⟩
  | putbq m =>
    obtain ⟨q', calls, puts, put⟩ := (consistent.hand m).putbq (not_mem_of_made consistent)
      (lt_succ_self q.made)
    have acted := put.acted consistent takeWhile_append_dropWhile (.putbq m) (by simp)
      (by simp)
    exact ⟨⟨q', calls, none⟩, _, by rw [Queue.act, puts]; rfl, acted⟩
  | getq =>
    obtain ⟨result, q', calls, gets, took, only⟩ := consistent.getq
    refine ⟨⟨q', calls, none⟩, _, by rw [Queue.act, gets]; rfl, took.acted ?_ (by simp) ?_⟩
    · cases result with
      | none => exact Sublist.refl _
      | some x => exact erase_sublist
    · intro _ x member gone
      cases result with
      | none => exact absurd member gone
      | some y =>
        have same : x = y := by
          by_contra ne
          exact gone ((mem_erase_of_ne ne).2 member)
        rw [same]
        exact (only y rfl).2
  | rmvq mp =>
    have member : mp ∈ cells := consistent.contents ▸ allowed
    obtain ⟨front, back, rfl⟩ := append_of_mem member
    obtain ⟨q', calls, removes, took, only⟩ := consistent.rmvq
    refine ⟨⟨q', calls, none⟩, _, by rw [Queue.act, removes]; rfl, took.acted ?_ (by simp) ?_⟩
    · exact Sublist.append (Sublist.refl _) (sublist_cons_self ..)
    · intro _ x member gone
      have same : x = mp := by
        by_contra ne
        simp only [mem_append, mem_cons, ne, false_or] at member gone
        exact gone member
      rw [same]
      exact only
  | flushq flag =>
    obtain ⟨q', calls, flushes, took⟩ := consistent.flushq flag
    exact ⟨⟨q', calls, none⟩, _, by rw [Queue.act, flushes]; rfl,
      took.acted filter_sublist (by simp) (by simp)⟩
  | flushband pri flag =>
    obtain ⟨q', calls, flushes, took⟩ := consistent.flushband pri flag
    exact ⟨⟨q', calls, none⟩, _, by rw [Queue.act, flushes]; rfl,
      took.acted filter_sublist (by simp) (by simp)⟩
  | canput => exact ⟨_, cells, rfl, consistent.canput_acted (by simp) (by simp)⟩
  | bcanput pri =>
    obtain ⟨room, q', asks, acted⟩ := consistent.bcanput_acted pri
    exact ⟨_, cells, by rw [Queue.act, asks]; rfl, acted⟩

end Queue

/-! ### Order and accounting -/

namespace History

open Queue

/-- The queue is consistent, and what `putq` added is in order within its rank. -/
structure Fifo (h : History) (cells : List ℕ) : Prop where
  consistent : Consistent h.queue cells
  added : ∀ x ∈ h.added, x < h.queue.made
  fifo : cells.Pairwise fun x y =>
    x ∈ h.added → y ∈ h.added → h.queue.rank x = h.queue.rank y → x < y

theorem idle_flow {hiwat lowat : ℕ} {marks : List (ℕ × ℕ)} {noenb : Bool} {b : ℕ} {f : Flow}
    (is_flow : (idle hiwat lowat marks noenb).flowAt b = some f) :
    ∃ hiwat' lowat', f = .fresh hiwat' lowat' ∧
      (hiwat', lowat') ∈ (hiwat, lowat) :: marks := by
  cases b with
  | zero => exact ⟨hiwat, lowat, (some.inj is_flow).symm, mem_cons_self⟩
  | succ i =>
    rw [flowAt_succ, idle, getElem?_map, Option.map_map] at is_flow
    obtain ⟨pair, is_pair, rfl⟩ := map_eq_some_iff.1 is_flow
    exact ⟨pair.1, pair.2, rfl, mem_cons_of_mem _ (mem_of_getElem? is_pair)⟩

theorem consistent_idle (hiwat lowat : ℕ) (marks : List (ℕ × ℕ)) (noenb : Bool) :
    Consistent (idle hiwat lowat marks noenb) [] := by
  refine .of_empty Doubly.empty_holds ?_ ?_
  · intro i qb is_band
    rw [idle, getElem?_map] at is_band
    obtain ⟨pair, -, rfl⟩ := map_eq_some_iff.1 is_band
    exact ⟨rfl, rfl⟩
  · intro b f is_flow
    obtain ⟨hiwat', lowat', rfl, -⟩ := idle_flow is_flow
    exact ⟨rfl, Flow.right_fresh _ _⟩

theorem mem_added_next {h : History} {out : Outcome} {x : ℕ}
    (member : x ∈ (h.next event out).added) :
    x ∈ h.added ∨ x = h.queue.made ∧ ∃ m, event = .putq m := by
  cases event with
  | putq m =>
    rcases mem_cons.1 member with here | old
    · exact .inr ⟨here, m, rfl⟩
    · exact .inl old
  | _ => exact .inl member

/-- One call keeps the order. -/
theorem Fifo.next {h : History} {cells cells' : List ℕ} (fifo : Fifo h cells) {out : Outcome}
    (acted : Acted h.queue cells event out cells') :
    Fifo (h.next event out) cells' := by
  cases acted.moved with
  | fewer sub msg made taking =>
    have added_same : ∀ x, x ∈ (h.next event out).added → x ∈ h.added := by
      intro x member
      rcases mem_added_next member with old | ⟨-, m, is_putq⟩
      · exact old
      · exact absurd is_putq (taking m)
    have rank_same : (h.next event out).queue.rank = h.queue.rank := by
      funext x
      simp only [rank, History.next, msg]
    refine ⟨acted.consistent, ?_, ?_⟩
    · intro x member
      simp only [History.next, made]
      exact fifo.added x (added_same x member)
    · refine Pairwise.imp ?_ (fifo.fifo.sublist sub)
      intro x y order x_added y_added same
      rw [rank_same] at same
      exact order (added_same x x_added) (added_same y y_added) same
  | @put front back parts msg made behind =>
    have old_rank : ∀ x, x ≠ h.queue.made → (h.next event out).queue.rank x = h.queue.rank x := by
      intro x ne
      simp only [rank, History.next, msg x ne]
    have old_added : ∀ x ∈ cells, x ∈ (h.next event out).added → x ∈ h.added := by
      intro x member is_added
      rcases mem_added_next is_added with old | ⟨rfl, -⟩
      · exact old
      · exact absurd member (not_mem_of_made fifo.consistent)
    subst parts
    refine ⟨acted.consistent, ?_, ?_⟩
    · intro x member
      simp only [History.next, made]
      rcases mem_added_next member with old | ⟨rfl, -⟩
      · exact lt_succ_of_lt (fifo.added x old)
      · exact lt_succ_self _
    · have order : (front ++ back).Pairwise fun x y => x ∈ (h.next event out).added →
          y ∈ (h.next event out).added →
          (h.next event out).queue.rank x = (h.next event out).queue.rank y → x < y := by
        refine Pairwise.imp_of_mem ?_ fifo.fifo
        intro x y x_mem y_mem order x_added y_added same
        rw [old_rank x (fifo.consistent.made x x_mem).ne,
          old_rank y (fifo.consistent.made y y_mem).ne] at same
        exact order (old_added x x_mem x_added) (old_added y y_mem y_added) same
      obtain ⟨front_order, back_order, across⟩ := pairwise_append.1 order
      refine pairwise_append.2 ⟨front_order, pairwise_cons.2 ⟨?_, back_order⟩, ?_⟩
      · intro y member x_added y_added same
        rcases mem_added_next x_added with old | ⟨-, m, is_putq⟩
        · exact absurd (fifo.added _ old) (lt_irrefl _)
        · have := behind m is_putq y member
          exact absurd same (by simp only [History.next]; omega)
      · intro x x_mem y y_mem
        rcases mem_cons.1 y_mem with rfl | y_mem
        · intro _ _ _
          exact fifo.consistent.made x (mem_append_left _ x_mem)
        · exact across x x_mem y y_mem

variable {hiwat lowat : ℕ} {marks : List (ℕ × ℕ)} {noenb : Bool} {h : History}

theorem Reachable.fifo (reachable : Reachable (idle hiwat lowat marks noenb) h) :
    Fifo h h.queue.contents := by
  induction reachable with
  | start =>
    exact ⟨consistent_idle hiwat lowat marks noenb,
      fun x member => absurd member not_mem_nil, List.Pairwise.nil⟩
  | @next h event out earlier allowed acts ih =>
    obtain ⟨out', cells', acts', acted⟩ := ih.consistent.act allowed
    obtain rfl : out = out' := some.inj (acts.symm.trans acts')
    have fifo := ih.next acted
    rw [← fifo.consistent.contents] at fifo
    exact fifo

/-- A queue in order: the links, the priorities, the ends of the bands and the counts. -/
structure InOrder (h : History) : Prop where
  linked : h.queue.links.Holds h.queue.contents
  /-- High priority messages come first. -/
  priority : h.queue.contents.Pairwise fun x y =>
    qpctl ≤ (h.queue.msg y).type.val → qpctl ≤ (h.queue.msg x).type.val
  /-- The bands of the others do not rise. -/
  bands : h.queue.contents.Pairwise fun x y => ¬ qpctl ≤ (h.queue.msg x).type.val →
    ¬ qpctl ≤ (h.queue.msg y).type.val → (h.queue.msg y).band ≤ (h.queue.msg x).band
  /-- What `putq` added keeps its order within a class and band. -/
  fifo : h.queue.contents.Pairwise fun x y => x ∈ h.added → y ∈ h.added →
    queclass (h.queue.msg x) = queclass (h.queue.msg y) →
    (h.queue.msg x).band = (h.queue.msg y).band → x < y
  /-- Every message has its `qband`. -/
  banded : ∀ x ∈ h.queue.contents, (h.queue.msg x).band.val ≤ h.queue.nband
  first : ∀ (i : ℕ) (qb : Qband), h.queue.bands[i]? = some qb →
    qb.first = (h.queue.contents.filter fun x => (h.queue.msg x).band.val = i + 1).head?
  last : ∀ (i : ℕ) (qb : Qband), h.queue.bands[i]? = some qb →
    qb.last = (h.queue.contents.filter fun x => (h.queue.msg x).band.val = i + 1).getLast?
  /-- Band 0 is charged for its messages and for those of high priority. -/
  count : h.queue.flow.count = ((h.queue.contents.filter fun x => (h.queue.msg x).band.val = 0 ∨
    qpctl ≤ (h.queue.msg x).type.val).map fun x => (h.queue.msg x).size).sum
  counts : ∀ (i : ℕ) (qb : Qband), h.queue.bands[i]? = some qb →
    qb.flow.count = ((h.queue.contents.filter fun x => (h.queue.msg x).band.val = i + 1).map
      fun x => (h.queue.msg x).size).sum
  full : h.queue.flow.Right
  fulls : ∀ (i : ℕ) (qb : Qband), h.queue.bands[i]? = some qb → qb.flow.Right

theorem Fifo.inOrder (fifo : Fifo h h.queue.contents) : InOrder h := by
  have consistent := fifo.consistent
  refine ⟨consistent.linked, ?_, ?_, ?_, consistent.banded, consistent.first, consistent.last, ?_,
    ?_, consistent.full 0 _ rfl, ?_⟩
  · refine Pairwise.imp ?_ consistent.sorted
    intro x y falls y_high
    rw [← rank_eq_256_iff] at y_high ⊢
    have := h.queue.rank_le x
    omega
  · refine Pairwise.imp ?_ consistent.sorted
    intro x y falls x_normal y_normal
    rw [rank_normal x_normal, rank_normal y_normal] at falls
    exact falls
  · refine Pairwise.imp ?_ fifo.fifo
    intro x y order x_added y_added same_class same_band
    refine order x_added y_added ?_
    by_cases x_high : qpctl ≤ (h.queue.msg x).type.val
    · have y_high : qpctl ≤ (h.queue.msg y).type.val := by
        by_contra y_normal
        rw [queclass_high x_high, queclass_normal y_normal] at same_class
        exact absurd same_class (by decide)
      rw [rank_high x_high, rank_high y_high]
    · have y_normal : ¬ qpctl ≤ (h.queue.msg y).type.val := by
        intro y_high
        rw [queclass_normal x_high, queclass_high y_high] at same_class
        exact absurd same_class (by decide)
      rw [rank_normal x_high, rank_normal y_normal, same_band]
  · rw [consistent.count 0 _ rfl, bytes, members]
    congr 2
    refine filter_congr ?_
    intro x member
    rw [inBand, decide_eq_decide]
    constructor
    · exact .inl
    · rintro (zero | is_high)
      · exact zero
      · rw [consistent.high x member is_high]
        rfl
  · intro i qb is_band
    refine consistent.count (i + 1) _ ?_
    rw [flowAt_succ, is_band]
    rfl
  · intro i qb is_band
    refine consistent.full (i + 1) _ ?_
    rw [flowAt_succ, is_band]
    rfl

/-- After every sequence of calls the queue is in order and the next call returns. -/
theorem queue_in_order (reachable : Reachable (idle hiwat lowat marks noenb) h) :
    InOrder h ∧ ∀ event, h.queue.Allowed event → ∃ out, h.queue.act event = some out := by
  refine ⟨reachable.fifo.inOrder, ?_⟩
  intro event allowed
  obtain ⟨out, cells', acts, -⟩ := reachable.fifo.consistent.act allowed
  exact ⟨out, acts⟩

/-- A message of band 2, one of high priority that asks for a band, and one that is put back. -/
theorem queue_in_order_run : ∃ h, Reachable (idle 10 4 [] false) h ∧ InOrder h ∧
    h.queue.contents = [1, 2, 0] := by
  have first := @Reachable.next (idle 10 4 [] false) _ (.putq ⟨0, 2, [3, 2], false⟩) _ .start
    trivial rfl
  have second := @Reachable.next (idle 10 4 [] false) _ (.putq ⟨0x81, 7, [4], false⟩) _ first
    trivial rfl
  have third := @Reachable.next (idle 10 4 [] false) _ (.putbq ⟨1, 2, [5], false⟩) _ second
    trivial rfl
  exact ⟨_, third, (queue_in_order third).1, rfl⟩

/-- With a high-water mark of 0 the full flag is not set, although the count reaches the mark. -/
theorem full_unset_at_zero_mark : ∃ h, Reachable (idle 0 0 [] false) h ∧
    ¬ (h.queue.flow.full = true ↔ h.queue.flow.hiwat ≤ h.queue.flow.count) := by
  have first := @Reachable.next (idle 0 0 [] false) _ (.putq ⟨0, 0, [5], false⟩) _ .start
    trivial rfl
  have second := @Reachable.next (idle 0 0 [] false) _ (.flushq true) _ first trivial rfl
  refine ⟨_, second, ?_⟩
  intro right
  exact absurd (right.2 (zero_le _)) (by decide)

/-- After every sequence of calls, what `getq` takes `putbq` puts back: the queue holds the same
messages again, consistent in its bands, with every count as it was.  It puts the message in front
of those of its rank, which is the place it was taken from just if none that `getq` has passed over
has its rank. -/
theorem getq_putbq (reachable : Reachable (idle hiwat lowat marks noenb) h) {x : ℕ} {q : Queue}
    {calls : List Call} (gets : h.queue.getq = some (some x, q, calls)) :
    ∃ front back q' calls', h.queue.contents = front ++ x :: back ∧
      (∀ y ∈ front, (h.queue.msg y).noget = true) ∧ q.putbq x = some (q', calls') ∧
      Consistent q' q'.contents ∧ q'.contents.Perm h.queue.contents ∧ q'.msg = h.queue.msg ∧
      (∀ b f f', h.queue.flowAt b = some f → q'.flowAt b = some f' → f'.count = f.count) ∧
      (q'.contents = h.queue.contents ↔ ∀ y ∈ front, h.queue.rank x < h.queue.rank y) := by
  have consistent := reachable.fifo.consistent
  obtain ⟨result, q₁, calls₁, gets₁, took, only⟩ := consistent.getq
  obtain ⟨rfl, rfl, rfl⟩ : result = some x ∧ q₁ = q ∧ calls₁ = calls := by
    rw [gets] at gets₁
    cases gets₁
    exact ⟨rfl, rfl, rfl⟩
  obtain ⟨front, back, parts, passed⟩ := (only x rfl).1
  rw [parts] at consistent took ⊢
  have x_notMem := consistent.not_around
  dsimp only at took
  rw [erase_append_right _ x_notMem.1, erase_cons_head] at took
  have outside : x ∉ front ++ back := fun member => (mem_append.1 member).elim x_notMem.1 x_notMem.2
  obtain ⟨q', calls', puts, put⟩ := took.consistent.putbq outside
    (took.made ▸ consistent.made x (by simp))
  have rank : q₁.rank = h.queue.rank := by
    funext y
    rw [Queue.rank, took.msg, ← Queue.rank]
  have msg : q'.msg = h.queue.msg := by
    rw [put.msg, ← took.msg]
    funext y
    by_cases same : y = x
    · rw [same, checkBand_msg]
      split_ifs with is_high
      · rw [took.msg] at is_high ⊢
        rw [← consistent.high x (by simp) is_high]
      · rfl
    · exact msg_checkBand_ne same
  have placed := put.consistent
  rw [rank] at placed
  -- Nothing behind the message is above it in rank.
  have low : ∀ y ∈ back, ¬ h.queue.rank x < h.queue.rank y := fun y member =>
    Nat.not_lt.2 ((pairwise_cons.1 (pairwise_append.1 consistent.sorted).2.1).1 y member)
  have split := takeWhile_append_dropWhile
    (p := fun y => decide (h.queue.rank x < h.queue.rank y)) (l := front ++ back)
  have above := @mem_takeWhile_imp _ (fun y => decide (h.queue.rank x < h.queue.rank y))
    (front ++ back)
  have perm : ((front ++ back).takeWhile (fun y => decide (h.queue.rank x < h.queue.rank y)) ++
      x :: (front ++ back).dropWhile fun y => decide (h.queue.rank x < h.queue.rank y)).Perm
        (front ++ x :: back) := by
    refine perm_middle.trans ?_
    rw [split]
    exact perm_middle.symm
  refine ⟨front, back, q', calls', rfl, passed, puts, placed.contents.symm ▸ placed,
    placed.contents.symm ▸ perm, msg, fun b f f' old new => ?_, ?_⟩
  · have inBand : q'.inBand b = h.queue.inBand b := by
      funext y
      rw [Queue.inBand, Queue.inBand, msg]
    rw [placed.count b f' new, consistent.count b f old]
    simp only [bytes, members, msg, inBand]
    exact ((perm.filter _).map _).sum_eq
  · rw [placed.contents]
    constructor
    · intro same y member
      have before := ((append_cons_inj_of_notMem
        (fun early => outside (takeWhile_subset _ early))
        fun late => outside (dropWhile_subset _ late)).1 same).1
      rw [← before] at member
      simpa using above member
    · intro high
      rw [takeWhile_append_of_pos fun y member => decide_eq_true (high y member),
        dropWhile_append_of_pos fun y member => decide_eq_true (high y member)]
      cases back with
      | nil => simp
      | cons y back => simp [low y mem_cons_self]

/-- Behind a message that may not be taken, one of its rank is taken, and put back in front. -/
theorem getq_putbq_noget : ∃ h : History, h.queue.contents = [0, 1] ∧
    ∃ q calls q' calls', h.queue.getq = some (some 1, q, calls) ∧
      q.putbq 1 = some (q', calls') ∧ q'.contents.Perm [0, 1] ∧ q'.contents ≠ [0, 1] := by
  have first := @Reachable.next (idle 10 4 [] false) _ (.putq ⟨0, 2, [3], true⟩)
    _ .start trivial rfl
  have second := @Reachable.next (idle 10 4 [] false) _ (.putq ⟨0, 2, [5], false⟩)
    _ first trivial rfl
  obtain ⟨h, run, queued, same_rank, q, calls, gets⟩ : ∃ h, Reachable (idle 10 4 [] false) h ∧
      h.queue.contents = [0, 1] ∧ ¬ h.queue.rank 1 < h.queue.rank 0 ∧
        ∃ q calls, h.queue.getq = some (some 1, q, calls) :=
    ⟨_, second, rfl, by decide, _, _, rfl⟩
  obtain ⟨front, back, q', calls', parts, -, puts, -, perm, -, -, restored⟩ := getq_putbq run gets
  rw [queued] at parts perm restored
  refine ⟨h, queued, q, calls, q', calls', gets, puts, perm, fun same => ?_⟩
  have front_eq : [0] = front :=
    ((@append_cons_inj_of_notMem _ [0] _ [] _ 1 1 (by decide) (by decide)).1 parts).1
  exact same_rank (restored.1 same 0 (by simp [← front_eq]))

end History

end Sol25.Streams
