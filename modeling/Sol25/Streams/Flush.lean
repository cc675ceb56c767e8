import Mathlib.Algebra.Order.BigOperators.Group.List
import Mathlib.Algebra.Order.Group.Nat
import Sol25.Streams.Remove

/-!
# Flushing a queue

`flushq` and `flushband` of band 0 empty the queue and put back what they keep; the other bands are
flushed message by message.
-/

namespace Sol25.Streams
namespace Queue

open Function List Option

variable {q q' : Queue} {cells front back rest : List ℕ} {x y band mp : ℕ}

/-! ### Rebuilding -/

/-- A message that was on the queue before passes the sanity checks unchanged. -/
theorem checkBand_eq (high : qpctl ≤ (q.msg x).type.val → (q.msg x).band = 0)
    (banded : (q.msg x).band.val ≤ q.nband) : q.checkBand x = q := by
  simp only [checkBand]
  split_ifs with is_pctl
  · have is_high : qpctl ≤ (q.msg x).type.val := by
      by_contra normal
      rw [queclass_normal normal] at is_pctl
      exact absurd is_pctl (by decide)
    have same : { q.msg x with band := 0 } = q.msg x := by
      rw [← high is_high]
    rw [same, update_eq_self]
  · have none_new : (q.msg x).band.val - q.nband = 0 := by omega
    rw [none_new, replicate_zero, append_nil]

/-- The queue while a message of the old one is not linked to anything. -/
def untied (q : Queue) (mp : ℕ) : Queue :=
  { q with links := { q.links with
    next := update q.links.next mp none
    prev := update q.links.prev mp none } }

theorem seg_untied {before after : Option ℕ} (outside : mp ∉ cells)
    (seg : Doubly.Seg q.links.next q.links.prev before cells after) :
    Doubly.Seg (q.untied mp).links.next (q.untied mp).links.prev before cells after := by
  refine Doubly.seg_congr ?_ seg
  intro x member
  have ne : x ≠ mp := fun same => outside (same ▸ member)
  exact ⟨update_of_ne ne _ _, update_of_ne ne _ _⟩

theorem Consistent.untied (consistent : Consistent q cells) (outside : mp ∉ cells) :
    Consistent (q.untied mp) cells :=
  ⟨⟨consistent.linked.nodup, seg_untied outside consistent.linked.seg, consistent.linked.first,
    consistent.linked.last⟩, consistent.made, consistent.high, consistent.sorted,
    consistent.banded, consistent.first, consistent.last, consistent.count, consistent.full⟩

theorem Kept.untied (q : Queue) (mp : ℕ) : Kept q (q.untied mp) := Kept.of_flows fun _ => .inl rfl

/-- `putq` at the end of the queue. -/
theorem Consistent.putq_end (consistent : Consistent q cells) (outside : x ∉ cells)
    (made : x < q.made) (high : qpctl ≤ (q.msg x).type.val → (q.msg x).band = 0)
    (banded : (q.msg x).band.val ≤ q.nband) (above : ∀ y ∈ cells, q.rank x ≤ q.rank y) :
    ∃ q' calls, q.putq x = some (q', calls) ∧ Consistent q' (cells ++ [x]) ∧ Kept q q' ∧
      (∀ call ∈ calls, call = .qenable) ∧ q'.msg = q.msg ∧ q'.made = q.made ∧
      q'.nband = q.nband ∧ ∀ y, y ≠ x → y ∉ cells →
        q'.links.next y = q.links.next y ∧ q'.links.prev y = q.links.prev y := by
  obtain ⟨q', calls, puts, put⟩ := consistent.putq outside made
  have all : ∀ y ∈ cells, decide (q.rank x ≤ q.rank y) = true := by
    intro y member
    simpa using above y member
  rw [takeWhile_eq_self_iff.2 all, dropWhile_eq_nil_iff.2 all] at put
  have unchanged := checkBand_eq high banded
  refine ⟨q', calls, puts, put.consistent, put.kept, put.calls, ?_, put.made, ?_, ?_⟩
  · rw [put.msg, unchanged]
  · rw [put.nband, unchanged]
  · intro y ne not_mem
    exact put.frame y ne (by simpa using not_mem)

/-- The loop of a flush, over the messages of the old queue that are still to come. -/
theorem rebuild_spec (drop : Msg → Bool) {before : Option ℕ} {fuel : ℕ}
    (consistent : Consistent q cells) (nodup : (cells ++ rest).Nodup)
    (sorted : Descending q.rank (cells ++ rest)) (made : ∀ x ∈ rest, x < q.made)
    (high : ∀ x ∈ rest, qpctl ≤ (q.msg x).type.val → (q.msg x).band = 0)
    (banded : ∀ x ∈ rest, (q.msg x).band.val ≤ q.nband)
    (seg : Doubly.Seg q.links.next q.links.prev before rest none) (enough : rest.length ≤ fuel) :
    ∃ q' calls, rebuild drop (fuel + 1) q rest.head? = some (q', calls) ∧
      Consistent q' (cells ++ rest.filter fun x => !drop (q.msg x)) ∧ Kept q q' ∧
      (∀ call ∈ calls, call = .qenable) ∧ q'.msg = q.msg ∧ q'.made = q.made ∧
      q'.nband = q.nband := by
  induction rest generalizing q cells before fuel with
  | nil => exact ⟨q, [], rfl, by simpa using consistent, Kept.refl q, by simp, rfl, rfl, rfl⟩
  | cons mp rest ih =>
    obtain ⟨fuel, rfl⟩ : ∃ fuel', fuel = fuel' + 1 :=
      ⟨fuel - 1, by simp only [length_cons] at enough; omega⟩
    obtain ⟨-, next, seg_rest⟩ := seg
    rw [or_none] at next
    have outside : mp ∉ cells := by
      intro member
      exact (nodup_append.1 nodup).2.2 mp member mp mem_cons_self rfl
    have rest_outside : mp ∉ rest := (nodup_cons.1 (nodup_append.1 nodup).2.1).1
    have untied := consistent.untied outside
    have seg_untied := seg_untied rest_outside seg_rest
    have room : rest.length ≤ fuel := by simpa using enough
    simp only [head?_cons, rebuild, next]
    by_cases dropped : drop (q.msg mp) = true
    · obtain ⟨q', calls, rebuilds, consistent', kept, silent, msg', made', nband'⟩ :=
        ih untied (nodup.sublist (Sublist.append_left (sublist_cons_self ..) _))
          (Pairwise.sublist (Sublist.append_left (sublist_cons_self ..) _) sorted)
          (fun x member => made x (mem_cons_of_mem _ member))
          (fun x member => high x (mem_cons_of_mem _ member))
          (fun x member => banded x (mem_cons_of_mem _ member)) seg_untied room
      refine ⟨q', calls, ?_, ?_, (Kept.untied q mp).trans kept, silent, msg', made', nband'⟩
      · rw [if_pos dropped]
        exact rebuilds
      · rw [filter_cons_of_neg (by simp [dropped])]
        exact consistent'
    · have above : ∀ y ∈ cells, (q.untied mp).rank mp ≤ (q.untied mp).rank y := by
        intro y member
        exact (pairwise_append.1 sorted).2.2 y member mp mem_cons_self
      obtain ⟨q₁, calls₁, puts, consistent₁, kept₁, silent₁, msg₁, made₁, nband₁, frame⟩ :=
        untied.putq_end outside (made mp mem_cons_self) (high mp mem_cons_self)
          (banded mp mem_cons_self) above
      have rank₁ : q₁.rank = q.rank := by
        funext y
        simp only [rank, msg₁]
        rfl
      have seg₁ : Doubly.Seg q₁.links.next q₁.links.prev (some mp) rest none := by
        refine Doubly.seg_congr ?_ seg_untied
        intro y member
        refine frame y (fun same => rest_outside (same ▸ member)) ?_
        intro in_cells
        exact (nodup_append.1 nodup).2.2 y in_cells y (mem_cons_of_mem _ member) rfl
      have shifted : cells ++ [mp] ++ rest = cells ++ mp :: rest := by simp
      obtain ⟨q', calls, rebuilds, consistent', kept, silent, msg', made', nband'⟩ :=
        ih consistent₁ (shifted ▸ nodup) (by rw [rank₁, shifted]; exact sorted)
          (fun x member => made₁ ▸ made x (mem_cons_of_mem _ member))
          (fun x member => by rw [msg₁]; exact high x (mem_cons_of_mem _ member))
          (fun x member => by
            rw [msg₁, nband₁]
            exact banded x (mem_cons_of_mem _ member)) seg₁ room
      refine ⟨q', calls₁ ++ calls, ?_, ?_, (Kept.untied q mp).trans (kept₁.trans kept), ?_,
        msg'.trans msg₁, made'.trans made₁, nband'.trans nband₁⟩
      · rw [if_neg dropped]
        have puts' : Queue.putq { q with links := { q.links with
            next := update q.links.next mp none
            prev := update q.links.prev mp none } } mp = some (q₁, calls₁) := puts
        rw [puts']
        simp only [rebuilds, map_some]
      · rw [filter_cons_of_pos (by simp [dropped])]
        rw [msg₁, append_assoc, singleton_append] at consistent'
        exact consistent'
      · intro call member
        rcases mem_append.1 member with early | late
        · exact silent₁ call early
        · exact silent call late

/-! ### flushq and band 0 -/

theorem flowAt_cleared (q : Queue) (b : ℕ) : q.cleared.flowAt b = (q.flowAt b).map Flow.zero := by
  cases b with
  | zero => rfl
  | succ i =>
    rw [flowAt_succ, flowAt_succ, cleared, getElem?_map, Option.map_map, Option.map_map]
    rfl

theorem Consistent.cleared (q : Queue) : Consistent q.cleared [] := by
  refine .of_empty ⟨nodup_nil, trivial, rfl, rfl⟩ ?_ ?_
  · intro i qb is_band
    rw [Queue.cleared, getElem?_map] at is_band
    obtain ⟨old, -, rfl⟩ := map_eq_some_iff.1 is_band
    exact ⟨rfl, rfl⟩
  · intro b f is_flow
    rw [flowAt_cleared] at is_flow
    obtain ⟨old, -, rfl⟩ := map_eq_some_iff.1 is_flow
    exact ⟨rfl, old.right_zero⟩

/-- Emptying the queue and putting back what is kept. -/
theorem Consistent.rebuild (consistent : Consistent q cells) (drop : Msg → Bool) :
    ∃ q' calls, rebuild drop (q.made + 1) q.cleared q.links.first = some (q', calls) ∧
      Consistent q' (cells.filter fun x => !drop (q.msg x)) ∧ Kept q q' ∧
      (∀ call ∈ calls, call = .qenable) ∧ q'.msg = q.msg ∧ q'.made = q.made ∧
      q'.nband = q.nband := by
  have kept : Kept q q.cleared := by
    refine ⟨?_, ?_⟩
    · intro b f is_flow
      refine ⟨f.zero, ?_, rfl, rfl, rfl⟩
      rw [flowAt_cleared, is_flow]
      rfl
    · intro b f is_flow none_before
      rw [flowAt_cleared, none_before] at is_flow
      exact absurd is_flow (by simp)
  have nband : q.cleared.nband = q.nband := length_map ..
  obtain ⟨q', calls, rebuilds, consistent', kept', silent, msg', made', nband'⟩ :=
    @rebuild_spec q.cleared [] cells drop none q.made (Consistent.cleared q)
      consistent.linked.nodup consistent.sorted consistent.made consistent.high
      (fun x member => nband ▸ consistent.banded x member) consistent.linked.seg
      consistent.length_le
  refine ⟨q', calls, ?_, consistent', kept.trans kept', silent, msg', made', nband'.trans nband⟩
  rw [consistent.first_eq]
  exact rebuilds

/-- A band after a flush: the marks are the old ones and the count is that of the kept messages. -/
theorem Kept.flow (kept : Kept q q') (nband : q'.nband = q.nband) (b : ℕ) :
    (q.flowAt b = none ∧ q'.flowAt b = none) ∨
      ∃ f f', q.flowAt b = some f ∧ q'.flowAt b = some f' ∧ f'.hiwat = f.hiwat ∧
        f'.lowat = f.lowat ∧ f'.wantw = f.wantw := by
  cases before : q.flowAt b with
  | none =>
    refine .inl ⟨rfl, ?_⟩
    cases b with
    | zero => exact absurd before (by simp)
    | succ i =>
      rw [flowAt_succ, map_eq_none_iff, List.getElem?_eq_none_iff] at before ⊢
      simp only [Queue.nband] at nband
      omega
  | some f =>
    obtain ⟨f', is_flow', same⟩ := kept.old b f before
    exact .inr ⟨f, f', rfl, is_flow', same⟩

theorem backenable_mem_dueBands (q : Queue) (b : ℕ) :
    .backenable b ∈ q.dueBands ↔ ∃ f, q.flowAt b = some f ∧ f.due = true := by
  cases b with
  | zero =>
    simp only [dueBands, mem_append, List.mem_map, flowAt_zero]
    constructor
    · rintro (⟨i, -, same⟩ | here)
      · exact absurd same (by simp)
      · split_ifs at here with is_due
        · exact ⟨q.flow, rfl, is_due⟩
        · exact absurd here not_mem_nil
    · rintro ⟨f, same, is_due⟩
      rw [← some.inj same] at is_due
      exact .inr (by simp [is_due])
  | succ i =>
    simp only [dueBands, mem_append, List.mem_map, mem_reverse, mem_filter, mem_range, flowAt_succ]
    constructor
    · rintro (⟨j, ⟨-, is_due⟩, same⟩ | here)
      · obtain rfl : j = i := by simpa using same
        obtain ⟨qb, is_band, due⟩ := (Option.any_eq_true _ _).1 is_due
        exact ⟨qb.flow, by rw [is_band]; rfl, due⟩
      · split_ifs at here <;> simp at here
    · rintro ⟨f, is_flow, is_due⟩
      obtain ⟨qb, is_band, rfl⟩ := map_eq_some_iff.1 is_flow
      refine .inl ⟨i, ⟨(List.getElem?_eq_some_iff.1 is_band).1, ?_⟩, rfl⟩
      rw [is_band]
      exact is_due

variable {calls : List Call}

/-- A flush serves the bands it releases, and the others lose nothing. -/
theorem Serves.of_flush {q₁ : Queue} {cells' : List ℕ} (kept : Kept q q₁)
    (nband : q₁.nband = q.nband) {released : ℕ → Prop} [DecidablePred released]
    (flows : ∀ b, q'.flowAt b = if released b then (q₁.flowAt b).map Flow.release else q₁.flowAt b)
    (back : ∀ b, .backenable b ∈ calls ↔ released b ∧ ∃ f, q₁.flowAt b = some f ∧ f.due = true)
    (count : ∀ b f f₁, ¬ released b → q.flowAt b = some f → q₁.flowAt b = some f₁ →
      f.count ≤ f₁.count)
    (others : ∀ b, ¬ released b → ∀ x ∈ cells, q.inBand b x = true → x ∈ cells') :
    Serves q cells q' cells' calls := by
  refine ⟨?_, ?_, ?_⟩
  · intro b f is_flow
    rcases kept.flow nband b with ⟨none_before, -⟩ | ⟨g, f₁, is_flow_g, is_flow₁, hiwat,
      lowat, wantw⟩
    · rw [is_flow] at none_before
      exact absurd none_before (by simp)
    obtain rfl : f = g := some.inj (is_flow.symm.trans is_flow_g)
    have due : (∃ g, q₁.flowAt b = some g ∧ g.due = true) ↔ f₁.due = true := by
      rw [is_flow₁]
      simp
    by_cases here : released b
    · refine ⟨f₁.release, ?_, ?_, ?_, ?_, ?_⟩
      · rw [flows, if_pos here, is_flow₁]
        rfl
      · rw [Flow.release_hiwat, hiwat]
      · rw [Flow.release_lowat, lowat]
      · rw [back, due, Flow.release_wantw, wantw]
        constructor
        · rintro ⟨-, is_due⟩
          rw [is_due]
          rw [Flow.due, wantw, Bool.and_eq_true] at is_due
          exact ⟨is_due.1, by simp⟩
        · rintro ⟨wanted, cleared⟩
          rw [wanted] at cleared
          exact ⟨here, by simpa using cleared⟩
      · intro still
        obtain ⟨positive, above⟩ := Flow.not_low still
        rw [Flow.release_wantw, wantw, Bool.and_eq_true] at still
        rw [lowat] at positive above
        rw [Flow.release_count]
        exact ⟨still.1, fun _ _ => above, fun zero => absurd zero (by omega)⟩
    · refine ⟨f₁, ?_, hiwat, lowat, ?_, ?_⟩
      · rw [flows, if_neg here, is_flow₁]
      · rw [back, wantw]
        simp [here]
      · intro wanted
        have := count b f f₁ here is_flow is_flow₁
        exact ⟨wantw ▸ wanted, fun _ above => by omega, fun _ => others b here⟩
  · intro b f' is_flow none_before
    rcases kept.flow nband b with ⟨-, none_after⟩ | ⟨g, f₁, is_flow_g, -⟩
    · rw [flows, none_after] at is_flow
      exact absurd is_flow (by simp)
    · rw [is_flow_g] at none_before
      exact absurd none_before (by simp)
  · intro b none_before member
    obtain ⟨-, f, is_flow, -⟩ := (back b).1 member
    rcases kept.flow nband b with ⟨-, none_after⟩ | ⟨g, f₁, is_flow_g, -⟩
    · rw [none_after] at is_flow
      exact absurd is_flow (by simp)
    · rw [is_flow_g] at none_before
      exact absurd none_before (by simp)

/-- No band of a flushed queue counts more than before. -/
theorem Lowers.of_flush {q₁ : Queue} (consistent : Consistent q cells) {keep : ℕ → Bool}
    (consistent₁ : Consistent q₁ (cells.filter keep)) (msg : q₁.msg = q.msg) {released : ℕ → Prop}
    [DecidablePred released]
    (flows : ∀ b, q'.flowAt b = if released b then (q₁.flowAt b).map Flow.release else q₁.flowAt b)
    (back : ∀ b, .backenable b ∈ calls ↔ released b ∧ ∃ f, q₁.flowAt b = some f ∧ f.due = true) :
    Lowers q q' calls := by
  intro b f f' is_flow is_flow'
  rw [flows] at is_flow'
  obtain ⟨f₁, is_flow₁, count, low⟩ : ∃ f₁, q₁.flowAt b = some f₁ ∧ f'.count = f₁.count ∧
      f'.low = f₁.low := by
    split_ifs at is_flow'
    · obtain ⟨f₁, is_flow₁, rfl⟩ := map_eq_some_iff.1 is_flow'
      exact ⟨f₁, is_flow₁, f₁.release_count, f₁.release_low⟩
    · exact ⟨f', is_flow', rfl, rfl⟩
  refine ⟨?_, ?_⟩
  · rw [count, consistent.count b f is_flow, consistent₁.count b f₁ is_flow₁,
      bytes_congr fun x _ => congrFun msg x, bytes, bytes]
    refine Sublist.sum_le_sum ?_ (fun _ _ => Nat.zero_le _)
    exact (List.Sublist.filter _ filter_sublist).map _
  · intro member
    obtain ⟨-, g, is_flow_g, is_due⟩ := (back b).1 member
    rw [low, some.inj (is_flow₁.symm.trans is_flow_g)]
    exact Flow.low_of_due is_due

theorem backenable_mem_append (silent : ∀ call ∈ calls, call = .qenable) (more : List Call)
    (b : ℕ) : .backenable b ∈ calls ++ more ↔ .backenable b ∈ more := by
  rw [mem_append]
  constructor
  · rintro (early | late)
    · exact absurd (silent _ early) (by simp)
    · exact late
  · exact .inr

/-- The queue at the end of `flushq`. -/
def releaseAll (q : Queue) : Queue :=
  { q with
    flow := q.flow.release
    bands := q.bands.map fun qb => { qb with flow := qb.flow.release } }

theorem flowAt_releaseAll (q : Queue) (b : ℕ) :
    q.releaseAll.flowAt b = (q.flowAt b).map Flow.release := by
  cases b with
  | zero => rfl
  | succ i =>
    rw [flowAt_succ, flowAt_succ, releaseAll, getElem?_map, Option.map_map, Option.map_map]
    rfl

/-- The queue at the end of `flushband` for band 0. -/
def releaseZero (q : Queue) : Queue := { q with flow := q.flow.release }

theorem flowAt_releaseZero (q : Queue) (b : ℕ) : q.releaseZero.flowAt b =
    if b = 0 then (q.flowAt b).map Flow.release else q.flowAt b := by
  cases b with
  | zero => rfl
  | succ i => rfl

/-- `flushq` keeps the messages that are not flushed. -/
theorem Consistent.flushq (consistent : Consistent q cells) (flag : Bool) :
    ∃ q' calls, q.flushq flag = some (q', calls) ∧
      Took q cells q' (cells.filter fun x => !(flag || datamsg (q.msg x).type)) calls := by
  by_cases empty : q.links.first = none
  · have nil := consistent.eq_nil empty
    subst nil
    refine ⟨q, [], ?_, Took.refl consistent⟩
    rw [Queue.flushq, if_pos empty]
  · obtain ⟨q₁, calls, rebuilds, consistent₁, kept, silent, msg, made, nband⟩ :=
      consistent.rebuild fun m => flag || datamsg m.type
    have flushes : q.flushq flag = some (q₁.releaseAll, calls ++ q₁.dueBands) := by
      simp only [Queue.flushq, empty, if_false, rebuilds]
      rfl
    have flows : ∀ b, q₁.releaseAll.flowAt b =
        if True then (q₁.flowAt b).map Flow.release else q₁.flowAt b := by
      intro b
      rw [flowAt_releaseAll, if_pos trivial]
    have back_iff : ∀ b, .backenable b ∈ calls ++ q₁.dueBands ↔
        True ∧ ∃ f, q₁.flowAt b = some f ∧ f.due = true := by
      intro b
      rw [backenable_mem_append silent, backenable_mem_dueBands, true_and]
    refine ⟨q₁.releaseAll, calls ++ q₁.dueBands, flushes, ?_, ?_,
      Lowers.of_flush consistent consistent₁ msg flows back_iff, msg, made⟩
    · refine consistent₁.reflow rfl rfl rfl (length_map ..) ?_ ?_
      · intro i qb' is_band
        rw [releaseAll, getElem?_map] at is_band
        obtain ⟨qb, is_old, rfl⟩ := map_eq_some_iff.1 is_band
        exact ⟨qb, is_old, rfl, rfl⟩
      · intro b f' is_flow
        rw [flowAt_releaseAll] at is_flow
        obtain ⟨f, is_old, rfl⟩ := map_eq_some_iff.1 is_flow
        exact ⟨f, is_old, f.release_count, f.release_hiwat, f.release_full⟩
    · refine Serves.of_flush kept nband flows back_iff ?_ ?_
      · exact fun b f f₁ not_released => absurd trivial not_released
      · exact fun b not_released => absurd trivial not_released

/-- `flushband` of band 0 keeps the other bands. -/
theorem Consistent.flushband_zero (consistent : Consistent q cells) (flag : Bool) :
    ∃ q' calls, q.flushband 0 flag = some (q', calls) ∧
      Took q cells q' (cells.filter fun x => !(decide ((q.msg x).band = 0) &&
        (flag || datamsg (q.msg x).type))) calls := by
  obtain ⟨q₁, calls, rebuilds, consistent₁, kept, silent, msg, made, nband⟩ :=
    consistent.rebuild fun m => decide (m.band = 0) && (flag || datamsg m.type)
  have flushes : q.flushband 0 flag = some (q₁.releaseZero,
      calls ++ if q₁.flow.due then [.backenable 0] else []) := by
    simp only [Queue.flushband, Fin.val_zero, Nat.not_lt_zero, if_false, if_true, rebuilds]
    rfl
  have all_kept : ∀ b, b ≠ 0 → ∀ x ∈ cells, q.inBand b x = true → x ∈ cells.filter fun x =>
      !(decide ((q.msg x).band = 0) && (flag || datamsg (q.msg x).type)) := by
    intro b ne x member inside
    rw [mem_filter]
    refine ⟨member, ?_⟩
    have named : (q.msg x).band ≠ 0 := by
      rintro zero
      rw [inBand, zero, decide_eq_true_eq] at inside
      exact ne inside.symm
    simp [named]
  have back_iff : ∀ b, .backenable b ∈ calls ++ (if q₁.flow.due then [.backenable 0] else []) ↔
      b = 0 ∧ ∃ f, q₁.flowAt b = some f ∧ f.due = true := by
    intro b
    rw [backenable_mem_append silent]
    constructor
    · intro member
      split_ifs at member with is_due
      · obtain rfl : b = 0 := by simpa using member
        exact ⟨rfl, q₁.flow, rfl, is_due⟩
      · exact absurd member not_mem_nil
    · rintro ⟨rfl, f, is_flow, is_due⟩
      rw [← some.inj is_flow] at is_due
      simp [is_due]
  refine ⟨_, _, flushes, ?_, ?_,
    Lowers.of_flush consistent consistent₁ msg q₁.flowAt_releaseZero back_iff, msg, made⟩
  · refine consistent₁.reflow rfl rfl rfl rfl (fun i qb is_band => ⟨qb, is_band, rfl, rfl⟩) ?_
    intro b f' is_flow
    rw [flowAt_releaseZero] at is_flow
    split_ifs at is_flow
    · obtain ⟨f, is_old, rfl⟩ := map_eq_some_iff.1 is_flow
      exact ⟨f, is_old, f.release_count, f.release_hiwat, f.release_full⟩
    · exact ⟨f', is_flow, rfl, rfl, rfl⟩
  · refine Serves.of_flush kept nband q₁.flowAt_releaseZero back_iff ?_ all_kept
    · intro b f f₁ ne is_flow is_flow₁
      rw [consistent.count b f is_flow, consistent₁.count b f₁ is_flow₁,
        bytes_congr fun x _ => congrFun msg x]
      refine le_of_eq ?_
      rw [bytes, bytes, members, members, List.filter_filter]
      congr 2
      refine filter_congr ?_
      intro x member
      by_cases inside : q.inBand b x = true
      · have := (mem_filter.1 (all_kept b ne x member inside)).2
        rw [inside, this]
        rfl
      · rw [Bool.not_eq_true] at inside
        rw [inside, Bool.false_and]

/-! ### The other bands -/

/-- The messages that `flushband` leaves on the queue. -/
def keeps (pri : Fin 256) (flag : Bool) (m : Msg) : Bool :=
  !(decide (m.band = pri) && (flag || datamsg m.type))

section Band

variable {pri : Fin 256} {flag : Bool} {todo : List ℕ}

theorem Consistent.flushOne (consistent : Consistent q (front ++ x :: back)) (pri : Fin 256)
    (flag : Bool) : ∃ q' calls, q.flushOne pri flag x = some (q', calls) ∧
      Took q (front ++ x :: back) q'
        (front ++ ([x].filter fun y => keeps pri flag (q.msg y)) ++ back) calls := by
  by_cases flushed : (q.msg x).band = pri ∧ (flag || datamsg (q.msg x).type) = true
  · obtain ⟨q', calls, removes, took, -⟩ := consistent.rmvq
    refine ⟨q', calls, ?_, ?_⟩
    · rw [Queue.flushOne, if_pos flushed, removes]
    · rw [filter_cons_of_neg (by simp [keeps, flushed.1, flushed.2]), filter_nil, append_nil]
      exact took
  · refine ⟨q, [], ?_, ?_⟩
    · rw [Queue.flushOne, if_neg flushed]
    · have kept : keeps pri flag (q.msg x) = true := by
        rw [keeps, Bool.not_eq_true', Bool.and_eq_false_iff, decide_eq_false_iff_not]
        by_cases here : (q.msg x).band = pri
        · exact .inr (by simpa [here] using flushed)
        · exact .inl here
      rw [filter_cons_of_pos (by exact kept), filter_nil, append_assoc, singleton_append]
      exact Took.refl consistent

theorem flushLoop_stop (fuel : ℕ) (q : Queue) (mp : Option ℕ) :
    flushLoop pri flag mp (fuel + 1) q mp = match mp with
      | none => some (q, [])
      | some mp => q.flushOne pri flag mp := by
  rw [flushLoop.eq_def]
  exact if_pos rfl

theorem flushLoop_step {last : Option ℕ} (ne : some x ≠ last) (fuel : ℕ) (q : Queue) :
    flushLoop pri flag last (fuel + 1) q (some x) = match q.flushOne pri flag x with
      | none => none
      | some (q', calls) => (flushLoop pri flag last fuel q' (q.links.next x)).map
          fun (q', later) => (q', calls ++ later) := by
  rw [flushLoop.eq_def]
  exact if_neg ne

/-- The loop of `flushband` runs up to the last message of the band. -/
theorem flushLoop_run (consistent : Consistent q (front ++ todo ++ back)) (nonempty : todo ≠ [])
    {fuel : ℕ} (enough : todo.length ≤ fuel) :
    ∃ q' calls, flushLoop pri flag todo.getLast? fuel q todo.head? = some (q', calls) ∧
      Took q (front ++ todo ++ back) q'
        (front ++ (todo.filter fun y => keeps pri flag (q.msg y)) ++ back) calls := by
  induction todo generalizing q front fuel with
  | nil => exact absurd rfl nonempty
  | cons x rest ih =>
    obtain ⟨fuel, rfl⟩ : ∃ fuel', fuel = fuel' + 1 :=
      ⟨fuel - 1, by simp only [length_cons] at enough; omega⟩
    have around : Consistent q (front ++ x :: (rest ++ back)) := by simpa using consistent
    obtain ⟨q₁, calls₁, flushes, took₁⟩ := around.flushOne pri flag
    cases rest with
    | nil =>
      refine ⟨q₁, calls₁, ?_, by simpa using took₁⟩
      exact (flushLoop_stop fuel q (some x)).trans flushes
    | cons y ys =>
      have next := around.linked.neighbours.2
      have ne : some x ≠ (x :: y :: ys).getLast? := by
        rw [getLast?_cons_cons]
        intro same
        refine around.not_around.2 (mem_append_left _ ?_)
        exact mem_of_getLast? same.symm
      have consistent₁ : Consistent q₁
          ((front ++ [x].filter fun y => keeps pri flag (q.msg y)) ++ (y :: ys) ++ back) := by
        simpa using took₁.consistent
      obtain ⟨q₂, calls₂, loops, took₂⟩ := ih consistent₁ (by simp) (by simpa using enough)
      refine ⟨q₂, calls₁ ++ calls₂, ?_, ?_⟩
      · rw [head?_cons, flushLoop_step ne]
        simp only [flushes, next, cons_append, head?_cons, getLast?_cons_cons]
        rw [head?_cons] at loops
        rw [loops]
        rfl
      · have all := took₁.trans (by simpa using took₂)
        rw [took₁.msg] at all
        have split : (x :: y :: ys).filter (fun z => keeps pri flag (q.msg z)) =
            [x].filter (fun z => keeps pri flag (q.msg z)) ++
              (y :: ys).filter fun z => keeps pri flag (q.msg z) := by
          rw [← filter_append, singleton_append]
        rw [split]
        simpa using all

/-- The loop of `flushband` when the band has one message. -/
theorem flushLoop_single (consistent : Consistent q (front ++ x :: back))
    (outside : ∀ y, back.head? = some y → (q.msg y).band ≠ pri) {fuel : ℕ} :
    ∃ q' calls, flushLoop pri flag back.head? (fuel + 2) q (some x) = some (q', calls) ∧
      Took q (front ++ x :: back) q'
        (front ++ ([x].filter fun y => keeps pri flag (q.msg y)) ++ back) calls := by
  obtain ⟨q', calls, flushes, took⟩ := consistent.flushOne pri flag
  have ne : some x ≠ back.head? := fun same => consistent.not_around.2 (mem_of_head? same.symm)
  have next := consistent.linked.neighbours.2
  refine ⟨q', calls, ?_, took⟩
  rw [flushLoop_step ne]
  simp only [flushes, next]
  rw [flushLoop_stop]
  cases head : back.head? with
  | none => simp
  | some y =>
    have unflushed : ¬ ((q'.msg y).band = pri ∧ (flag || datamsg (q'.msg y).type) = true) := by
      rw [took.msg]
      exact fun here => outside y head here.1
    have unchanged : q'.flushOne pri flag y = some (q', []) := if_neg unflushed
    simp [unchanged]

/-- The messages of a band stand together. -/
theorem Consistent.band_split (consistent : Consistent q cells) (positive : 0 < band)
    (small : band < 256) : ∃ front back, cells = front ++ q.members band cells ++ back ∧
      (∀ y ∈ front, q.inBand band y = false) ∧ ∀ y ∈ back, q.inBand band y = false := by
  obtain ⟨front, back, parts, higher, under⟩ := consistent.sorted.split_at band
  rw [← members_eq consistent.high positive small] at parts
  refine ⟨front, back, parts, ?_, ?_⟩
  · intro y member
    have in_cells : y ∈ cells := by
      rw [parts]
      simp [member]
    have := higher y member
    rw [inBand_eq (consistent.high y in_cells) positive small, decide_eq_false_iff_not]
    omega
  · intro y member
    have in_cells : y ∈ cells := by
      rw [parts]
      simp [member]
    have := under y member
    rw [inBand_eq (consistent.high y in_cells) positive small, decide_eq_false_iff_not]
    omega

theorem keeps_of_outside (outside : q.inBand pri.val x = false) :
    keeps pri flag (q.msg x) = true := by
  have ne : (q.msg x).band ≠ pri := by
    rintro rfl
    simp [inBand] at outside
  simp [keeps, ne]

theorem filter_keeps_outside (outside : ∀ y ∈ cells, q.inBand pri.val y = false) :
    (cells.filter fun y => keeps pri flag (q.msg y)) = cells :=
  filter_eq_self.2 fun y member => keeps_of_outside (outside y member)

/-- `flushband` keeps the messages that are not flushed. -/
theorem Consistent.flushband (consistent : Consistent q cells) (pri : Fin 256) (flag : Bool) :
    ∃ q' calls, q.flushband pri flag = some (q', calls) ∧
      Took q cells q' (cells.filter fun x => keeps pri flag (q.msg x)) calls := by
  by_cases zero : pri = 0
  · subst zero
    exact consistent.flushband_zero flag
  have positive : 0 < pri.val := Nat.pos_of_ne_zero fun same => zero (Fin.ext same)
  obtain ⟨front, back, parts, front_out, back_out⟩ := consistent.band_split positive pri.isLt
  have result : (cells.filter fun x => keeps pri flag (q.msg x)) =
      front ++ ((q.members pri.val cells).filter fun x => keeps pri flag (q.msg x)) ++ back := by
    conv_lhs => rw [parts]
    rw [filter_append, filter_append, filter_keeps_outside front_out, filter_keeps_outside back_out]
  rw [result]
  by_cases missing : q.nband < pri.val
  · have nil : q.members pri.val cells = [] := by
      rw [members, filter_eq_nil_iff]
      intro y member inside
      have := consistent.banded y member
      rw [inBand, decide_eq_true_eq] at inside
      omega
    refine ⟨q, [], ?_, ?_⟩
    · rw [Queue.flushband, if_pos missing]
    · rw [nil] at parts ⊢
      rw [filter_nil, ← parts]
      exact Took.refl consistent
  have index : pri.val - 1 + 1 = pri.val := by omega
  obtain ⟨qb, is_band⟩ : ∃ qb, q.bands[pri.val - 1]? = some qb := by
    rw [nband] at missing
    exact ⟨_, getElem?_eq_getElem (by omega)⟩
  have first := consistent.first _ _ is_band
  have last := consistent.last _ _ is_band
  have length_le := consistent.length_le
  rw [index] at first last
  simp only [Queue.flushband, missing, zero, is_band, if_false]
  cases members_eq : q.members pri.val cells with
  | nil =>
    rw [members_eq] at first parts
    rw [filter_nil, ← parts]
    rw [head?_nil] at first
    simp only [first]
    exact ⟨q, [], rfl, Took.refl consistent⟩
  | cons x rest =>
    rw [members_eq] at first last parts
    rw [head?_cons] at first
    simp only [first]
    have consistent' : Consistent q (front ++ x :: rest ++ back) := parts ▸ consistent
    cases rest with
    | nil =>
      have around : Consistent q (front ++ x :: back) := by simpa using consistent'
      rw [getLast?_singleton] at last
      have outside : ∀ y, back.head? = some y → (q.msg y).band ≠ pri := by
        intro y head same
        have := back_out y (mem_of_head? head)
        rw [inBand, same, decide_eq_false_iff_not] at this
        exact this rfl
      obtain ⟨fuel, made_eq⟩ : ∃ fuel, q.made + 1 = fuel + 2 := by
        rw [parts] at length_le
        simp only [length_append, length_cons, length_nil] at length_le
        exact ⟨q.made - 1, by omega⟩
      rw [if_pos last, around.linked.neighbours.2, made_eq]
      have single := @flushLoop_single q front back x pri flag around outside fuel
      rw [parts]
      simpa using single
    | cons y ys =>
      have ne : qb.last ≠ some x := by
        rw [last, getLast?_cons_cons]
        intro same
        have around : Consistent q (front ++ x :: ((y :: ys) ++ back)) := by
          simpa using consistent'
        exact around.not_around.2 (mem_append_left _ (mem_of_getLast? same))
      have enough : (x :: y :: ys).length ≤ q.made + 1 := by
        rw [parts] at length_le
        simp only [length_append, length_cons] at length_le ⊢
        omega
      rw [if_neg ne, last, parts]
      exact flushLoop_run consistent' (by simp) enough

end Band

end Queue
end Sol25.Streams
