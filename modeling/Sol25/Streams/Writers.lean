import Sol25.Streams.Run

/-!
# Writers

A writer that `canput` or `bcanput` refused is back-enabled when its band gets low.
-/

namespace Sol25.Streams
namespace History

open Queue Option Bool

variable {hiwat lowat : ℕ} {marks : List (ℕ × ℕ)} {noenb : Bool} {h : History}

/-- Every refused writer of the history is still known, and waits for a band that is not low. -/
structure Attended (h : History) : Prop where
  consistent : Consistent h.queue h.queue.contents
  marks : ∀ b f, h.queue.flowAt b = some f → 0 < f.hiwat ∧ f.lowat ≤ f.hiwat
  refused : ∀ b, h.refused b = true ↔ ∃ f, h.queue.flowAt b = some f ∧ f.wantw = true
  waits : ∀ b f, h.queue.flowAt b = some f → f.wantw = true →
    (0 < f.lowat ∧ f.lowat ≤ f.count) ∨ (f.lowat = 0 ∧ h.removed b = false)

/-- A message of the band is gone after the call. -/
def Lost (q : Queue) (out : Outcome) (b : ℕ) : Prop :=
  ∃ x ∈ q.contents, (q.msg x).band.val = b ∧ x ∉ out.queue.contents

variable {event : Event} {out : Outcome} {b : ℕ}

theorem removed_next :
    (h.next event out).removed b = false ↔
      (h.refused b = true → h.removed b = false ∧ ¬ Lost h.queue out b) := by
  simp only [History.next, Lost, and_eq_false_iff, or_eq_false_iff,
    decide_eq_false_iff_not]
  cases h.refused b <;> simp

theorem refused_next :
    (h.next event out).refused b = true ↔
      (h.refused b = true ∧ .backenable b ∉ out.calls) ∨ out.refusal = some b := by
  simp [History.next]

theorem Attended.serves (attended : Attended h) {cells' : List ℕ}
    (consistent' : Consistent out.queue cells') (no_refusal : out.refusal = none)
    (serves : Serves h.queue h.queue.contents out.queue cells' out.calls) :
    Attended (h.next event out) := by
  have contents' : out.queue.contents = cells' := consistent'.contents
  refine ⟨?_, ?_, ?_, ?_⟩
  · exact contents'.symm ▸ consistent'
  · intro b f' is_flow'
    cases before : h.queue.flowAt b with
    | none =>
      obtain ⟨hiwat', lowat', -⟩ := serves.new b f' is_flow' before
      rw [hiwat', lowat']
      exact attended.marks 0 _ rfl
    | some f =>
      obtain ⟨g, is_flow_g, hiwat', lowat', -⟩ := serves.old b f before
      rw [some.inj (is_flow'.symm.trans is_flow_g), hiwat', lowat']
      exact attended.marks b f before
  · intro b
    rw [refused_next, no_refusal, attended.refused b]
    constructor
    · rintro (⟨⟨f, before, wanted⟩, silent⟩ | impossible)
      · obtain ⟨f', is_flow', -, -, back, -⟩ := serves.old b f before
        refine ⟨f', is_flow', ?_⟩
        by_contra cleared
        exact silent (back.2 ⟨wanted, by simpa using cleared⟩)
      · exact absurd impossible (by simp)
    · rintro ⟨f', is_flow', wanted'⟩
      left
      cases before : h.queue.flowAt b with
      | none =>
        have := (serves.new b f' is_flow' before).2.2
        rw [wanted'] at this
        exact Bool.noConfusion this
      | some f =>
        obtain ⟨g, is_flow_g, -, -, back, wants⟩ := serves.old b f before
        obtain rfl : f' = g := some.inj (is_flow'.symm.trans is_flow_g)
        refine ⟨⟨f, rfl, (wants wanted').1⟩, ?_⟩
        intro member
        have := (back.1 member).2
        rw [wanted'] at this
        exact Bool.noConfusion this
  · intro b f' is_flow' wanted'
    cases before : h.queue.flowAt b with
    | none =>
      have := (serves.new b f' is_flow' before).2.2
      rw [wanted'] at this
      exact Bool.noConfusion this
    | some f =>
      obtain ⟨g, is_flow_g, -, lowat', -, wants⟩ := serves.old b f before
      obtain rfl : f' = g := some.inj (is_flow'.symm.trans is_flow_g)
      obtain ⟨wanted, count, members⟩ := wants wanted'
      rw [lowat', removed_next]
      rcases attended.waits b f before wanted with ⟨positive, above⟩ | ⟨zero, kept⟩
      · exact .inl ⟨positive, count positive above⟩
      · refine .inr ⟨zero, fun _ => ⟨kept, ?_⟩⟩
        rintro ⟨x, member, band_eq, gone⟩
        rw [contents'] at gone
        exact gone (members zero x member (by simpa [inBand] using band_eq))

theorem Attended.asked (attended : Attended h) {pri : ℕ}
    (consistent' : Consistent out.queue h.queue.contents) (silent : out.calls = [])
    (asked : Asked h.queue pri out.queue out.refusal) : Attended (h.next event out) := by
  have contents' : out.queue.contents = h.queue.contents := consistent'.contents
  have none_lost : ∀ b, ¬ Lost h.queue out b := by
    rintro b ⟨x, member, -, gone⟩
    rw [contents'] at gone
    exact gone member
  have flow_of : ∀ b f', out.queue.flowAt b = some f' → ∃ f, h.queue.flowAt b = some f ∧
      f'.hiwat = f.hiwat ∧ f'.lowat = f.lowat ∧ f'.count = f.count ∧
      (f'.wantw = true ↔ f.wantw = true ∨ (b = pri ∧ f.full = true)) := by
    intro b f' is_flow'
    rw [asked.flows] at is_flow'
    split_ifs at is_flow' with here
    · obtain ⟨f, is_flow, rfl⟩ := map_eq_some_iff.1 is_flow'
      obtain ⟨count, hiwat', lowat', -, wantw⟩ := f.ask_same
      refine ⟨f, is_flow, hiwat', lowat', count, ?_⟩
      rw [wantw, or_eq_true]
      simp [here]
    · exact ⟨f', is_flow', rfl, rfl, rfl, by simp [here]⟩
  refine ⟨?_, ?_, ?_, ?_⟩
  · exact contents'.symm ▸ consistent'
  · intro b f' is_flow'
    obtain ⟨f, is_flow, hiwat', lowat', -⟩ := flow_of b f' is_flow'
    rw [hiwat', lowat']
    exact attended.marks b f is_flow
  · intro b
    rw [refused_next, silent, asked.refusal b, attended.refused b]
    constructor
    · intro refused
      obtain ⟨f, is_flow⟩ : ∃ f, h.queue.flowAt b = some f := by
        rcases refused with ⟨⟨f, is_flow, -⟩, -⟩ | ⟨-, f, is_flow, -⟩
        · exact ⟨f, is_flow⟩
        · exact ⟨f, is_flow⟩
      obtain ⟨f', is_flow'⟩ : ∃ f', out.queue.flowAt b = some f' := by
        rw [asked.flows, is_flow]
        split_ifs
        · exact ⟨f.ask, rfl⟩
        · exact ⟨f, rfl⟩
      obtain ⟨g, is_flow_g, -, -, -, wantw⟩ := flow_of b f' is_flow'
      obtain rfl : f = g := some.inj (is_flow.symm.trans is_flow_g)
      refine ⟨f', is_flow', wantw.2 ?_⟩
      rcases refused with ⟨⟨f₁, is_flow₁, wanted⟩, -⟩ | ⟨here, f₁, is_flow₁, full⟩
      · rw [some.inj (is_flow.symm.trans is_flow₁)]
        exact .inl wanted
      · rw [some.inj (is_flow.symm.trans is_flow₁)]
        exact .inr ⟨here, full⟩
    · rintro ⟨f', is_flow', wanted'⟩
      obtain ⟨f, is_flow, -, -, -, wantw⟩ := flow_of b f' is_flow'
      rcases wantw.1 wanted' with wanted | ⟨here, full⟩
      · exact .inl ⟨⟨f, is_flow, wanted⟩, List.not_mem_nil⟩
      · exact .inr ⟨here, f, is_flow, full⟩
  · intro b f' is_flow' wanted'
    obtain ⟨f, is_flow, -, lowat', count, wantw⟩ := flow_of b f' is_flow'
    rw [lowat', count, removed_next, attended.refused b]
    by_cases wanted : f.wantw = true
    · rcases attended.waits b f is_flow wanted with above | ⟨zero, kept⟩
      · exact .inl above
      · exact .inr ⟨zero, fun _ => ⟨kept, none_lost b⟩⟩
    · obtain ⟨here, full⟩ := (wantw.1 wanted').resolve_left wanted
      obtain ⟨positive, ordered⟩ := attended.marks b f is_flow
      have reaches := (attended.consistent.full b f is_flow positive).1 full
      by_cases zero : f.lowat = 0
      · refine .inr ⟨zero, ?_⟩
        rintro ⟨g, is_flow_g, wanted_g⟩
        rw [← some.inj (is_flow.symm.trans is_flow_g)] at wanted_g
        exact absurd wanted_g wanted
      · exact .inl ⟨by omega, by omega⟩

theorem Reachable.attended (zero : 0 < hiwat ∧ lowat ≤ hiwat)
    (others : ∀ m ∈ marks, 0 < m.1 ∧ m.2 ≤ m.1)
    (reachable : Reachable (idle hiwat lowat marks noenb) h) : Attended h := by
  induction reachable with
  | start =>
    refine ⟨consistent_idle hiwat lowat marks noenb, ?_, ?_, ?_⟩
    · intro b f is_flow
      obtain ⟨hiwat', lowat', rfl, member⟩ := idle_flow is_flow
      rcases List.mem_cons.1 member with same | is_mark
      · simp only [Prod.mk.injEq] at same
        simpa [Flow.fresh, same.1, same.2] using zero
      · exact others _ is_mark
    · intro b
      constructor
      · intro impossible
        exact Bool.noConfusion impossible
      · rintro ⟨f, is_flow, wanted⟩
        obtain ⟨hiwat', lowat', rfl, -⟩ := idle_flow is_flow
        exact Bool.noConfusion wanted
    · intro b f is_flow wanted
      obtain ⟨hiwat', lowat', rfl, -⟩ := idle_flow is_flow
      exact Bool.noConfusion wanted
  | @next h event out earlier allowed acts ih =>
    obtain ⟨out', cells', acts', acted⟩ := ih.consistent.act allowed
    obtain rfl : out = out' := some.inj (acts.symm.trans acts')
    rcases acted.serves with ⟨no_refusal, serves⟩ | ⟨same, silent, pri, asked⟩
    · exact ih.serves acted.consistent no_refusal serves
    · exact ih.asked (same ▸ acted.consistent) silent asked

/-- What a call does for the writers of a band. -/
structure Handoff (q : Queue) (event : Event) (out : Outcome) (b : ℕ) (f f' : Flow) : Prop where
  /-- The want flag is cleared exactly with a back-enable of the band. -/
  back : .backenable b ∈ out.calls ↔ f.wantw = true ∧ f'.wantw = false
  /-- A band that is back-enabled is below its low-water mark, or the mark is 0. -/
  low : .backenable b ∈ out.calls → f'.count < f'.lowat ∨ f'.lowat = 0
  /-- A writer is served when the band gets below its mark, or loses a message if the mark is 0. -/
  served : f.wantw = true → f'.count < f'.lowat ∨ (f'.lowat = 0 ∧ Lost q out b) →
    f'.wantw = false ∧ .backenable b ∈ out.calls
  /-- Where one message is taken, only its band is back-enabled. -/
  only : (event = .getq ∨ ∃ mp, event = .rmvq mp) → ∀ x ∈ q.contents, x ∉ out.queue.contents →
    .backenable b ∈ out.calls → b = (q.msg x).band.val

theorem Attended.handoff (attended : Attended h) {cells' : List ℕ}
    (acted : Acted h.queue h.queue.contents event out cells') {f f' : Flow}
    (is_flow : h.queue.flowAt b = some f) (is_flow' : out.queue.flowAt b = some f') :
    Handoff h.queue event out b f f' := by
  have contents' : out.queue.contents = cells' := acted.consistent.contents
  have low : .backenable b ∈ out.calls → f'.count < f'.lowat ∨ f'.lowat = 0 := by
    intro member
    have := acted.low b f' member is_flow'
    simpa [Flow.low] using this
  have only : (event = .getq ∨ ∃ mp, event = .rmvq mp) → ∀ x ∈ h.queue.contents,
      x ∉ out.queue.contents → .backenable b ∈ out.calls → b = (h.queue.msg x).band.val := by
    intro takes x member gone
    rw [contents'] at gone
    exact acted.only takes x member gone b
  rcases acted.serves with ⟨-, serves⟩ | ⟨same, silent, pri, asked⟩
  · obtain ⟨g, is_flow_g, -, lowat', back, wants⟩ := serves.old b f is_flow
    obtain rfl : f' = g := some.inj (is_flow'.symm.trans is_flow_g)
    refine ⟨back, low, ?_, only⟩
    intro wanted reaches
    have cleared : f'.wantw = false := by
      by_contra still
      obtain ⟨-, count, members⟩ := wants (by simpa using still)
      rw [lowat'] at reaches
      rcases reaches with below | ⟨zero, x, member, band_eq, gone⟩
      · rcases attended.waits b f is_flow wanted with ⟨positive, above⟩ | ⟨zero, -⟩
        · have := count positive above
          omega
        · omega
      · rw [contents'] at gone
        exact gone (members zero x member (by simpa [inBand] using band_eq))
    exact ⟨cleared, back.2 ⟨wanted, cleared⟩⟩
  · have silent' : .backenable b ∉ out.calls := by simp [silent]
    obtain ⟨count, lowat', wantw⟩ : f'.count = f.count ∧ f'.lowat = f.lowat ∧
        (f.wantw = true → f'.wantw = true) := by
      rw [asked.flows, is_flow] at is_flow'
      split_ifs at is_flow'
      · rw [← some.inj is_flow']
        obtain ⟨count, -, lowat', -, wantw⟩ := f.ask_same
        exact ⟨count, lowat', fun wanted => by rw [wantw, wanted]; rfl⟩
      · rw [← some.inj is_flow']
        exact ⟨rfl, rfl, id⟩
    refine ⟨?_, low, ?_, only⟩
    · constructor
      · exact fun member => absurd member silent'
      · rintro ⟨wanted, cleared⟩
        rw [wantw wanted] at cleared
        exact Bool.noConfusion cleared
    · intro wanted reaches
      rw [lowat', count] at reaches
      rcases reaches with below | ⟨-, x, member, -, gone⟩
      · rcases attended.waits b f is_flow wanted with ⟨-, above⟩ | ⟨zero, -⟩
        · omega
        · omega
      · rw [contents', same] at gone
        exact absurd member gone

/-- No writer is stranded: the band of a refused writer is not low, and a call that makes it low
back-enables it. -/
theorem no_stranded_writer (zero : 0 < hiwat ∧ lowat ≤ hiwat)
    (others : ∀ m ∈ marks, 0 < m.1 ∧ m.2 ≤ m.1)
    (reachable : Reachable (idle hiwat lowat marks noenb) h) :
    (∀ b, h.refused b = true ↔ ∃ f, h.queue.flowAt b = some f ∧ f.wantw = true) ∧
    (∀ b f, h.queue.flowAt b = some f → h.refused b = true →
      (0 < f.lowat ∧ f.lowat ≤ f.count) ∨ (f.lowat = 0 ∧ h.removed b = false)) ∧
    ∀ event out, h.queue.Allowed event → h.queue.act event = some out →
      ∀ b f f', h.queue.flowAt b = some f → out.queue.flowAt b = some f' →
        Handoff h.queue event out b f f' := by
  have attended := reachable.attended zero others
  refine ⟨attended.refused, ?_, ?_⟩
  · intro b f is_flow refused
    obtain ⟨g, is_flow_g, wanted⟩ := (attended.refused b).1 refused
    rw [← some.inj (is_flow.symm.trans is_flow_g)] at wanted
    exact attended.waits b f is_flow wanted
  · intro event out allowed acts b f f' is_flow is_flow'
    obtain ⟨out', cells', acts', acted⟩ := attended.consistent.act allowed
    obtain rfl : out = out' := some.inj (acts.symm.trans acts')
    exact attended.handoff acted is_flow is_flow'

/-- A writer of band 1 is refused; taking the message of the band back-enables it. -/
theorem no_stranded_writer_run : ∃ h, Reachable (idle 10 4 [(8, 3)] false) h ∧
    h.refused 1 = true ∧ h.queue.flowAt 1 = some ⟨9, 8, 3, true, true⟩ ∧
    ∃ out, h.queue.act .getq = some out ∧ out.calls = [.backenable 1] ∧
      Handoff h.queue .getq out 1 ⟨9, 8, 3, true, true⟩ ⟨0, 8, 3, false, false⟩ := by
  have first := @Reachable.next (idle 10 4 [(8, 3)] false) _ (.putq ⟨0, 1, [9], false⟩) _ .start
    trivial rfl
  have second := @Reachable.next (idle 10 4 [(8, 3)] false) _ (.bcanput 1) _ first trivial rfl
  have stranded := no_stranded_writer (by decide) (by decide) second
  exact ⟨_, second, rfl, rfl, _, rfl, rfl, stranded.2.2 .getq _ trivial rfl 1 _ _ rfl rfl⟩

end History

end Sol25.Streams
