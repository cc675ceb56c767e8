import Sol25.Swap.Accounting
import Sol25.Swap.Run

/-!
# Adding a device back while it is deleted

A `swapadd` of an area that a `swapdel` is at work on clears `ST_DOINGDEL` and returns success.  The
deletion looks at the flag only behind each anonymous page it has moved away, so a request that
comes when no page is left on the device is never seen and the device goes.
-/

namespace Sol25.Swap

open Swapinfo List Option Bool

/-- One `swapdel` of a device, from a state in which nobody deletes it. -/
structure Deletion where
  /-- The state when both calls start. -/
  start : State
  d : Swapinfo
  consistent : Consistent start
  idle : start.dels = []
  listed : d ∈ start.swapinfo
  indel : d.indel = false
  doingdel : d.doingdel = false

namespace Deletion

variable (x : Deletion) {s s' : State}

/-- The device is on the list with these flags. -/
def Listed (s : State) (indel doingdel : Bool) : Prop :=
  ∃ e ∈ s.swapinfo, e.area = (x.d.id, x.d.vp, x.d.soff, x.d.eoff, x.d.npgs, indel, doingdel)

/-- The thread that deletes the device. -/
def thread (pc : DelPc) : Del := ⟨x.d.id, x.d.vp, x.d.soff, x.d.eoff, x.d.npgs, pc⟩

/-- The anonymous page has its slot on the device. -/
def Covers (ap : Anon) : Prop := (x.thread (.walking 0)).covers ap.phys = true

/-- Nobody deletes the device, and its pages count. -/
structure Kept (s : State) : Prop where
  consistent : Consistent s
  dels : s.dels = []
  listed : x.Listed s false false
  max : s.ani.max = x.start.ani.max

/-- The deletion goes on, with `ST_DOINGDEL` as `flag` says. -/
structure Going (flag : Bool) (pc : DelPc) (s : State) : Prop where
  consistent : Consistent s
  dels : s.dels = [x.thread pc]
  listed : x.Listed s true flag
  max : s.ani.max = x.start.ani.max - x.d.npgs

/-- The device is gone, and its pages do not count. -/
structure Gone (s : State) : Prop where
  consistent : Consistent s
  dels : s.dels = []
  apart : ∀ e ∈ s.swapinfo, e.vp = x.d.vp → e.eoff ≤ x.d.soff ∨ x.d.eoff ≤ e.soff
  max : s.ani.max = x.start.ani.max - x.d.npgs

theorem kept_start : x.Kept x.start := by
  refine ⟨x.consistent, x.idle, ⟨x.d, x.listed, ?_⟩, rfl⟩
  rw [area, x.indel, x.doingdel]

theorem nonempty : x.d.soff < x.d.eoff := by
  have good := x.consistent.good x.d x.listed
  have range := good.range
  have positive := good.positive
  omega

theorem npgs_eq : x.d.npgs = x.d.eoff - x.d.soff := by
  have range := (x.consistent.good x.d x.listed).range
  omega

theorem npgs_pos : 0 < x.d.npgs := (x.consistent.good x.d x.listed).positive

variable {doingdel flag indel : Bool} {pc : DelPc} {cpu : Fin 8} {result : Getpage} {ops : List Op}
  {ds : List Swapinfo}

theorem Listed.cases {x : Deletion} (listed : x.Listed s indel doingdel) :
    ∃ e ∈ s.swapinfo, e.id = x.d.id ∧ e.vp = x.d.vp ∧ e.soff = x.d.soff ∧ e.eoff = x.d.eoff ∧
      e.npgs = x.d.npgs ∧ e.indel = indel ∧ e.doingdel = doingdel := by
  obtain ⟨e, e_mem, same⟩ := listed
  simp only [area, Prod.mk.injEq] at same
  exact ⟨e, e_mem, same⟩

theorem Listed.framed {x : Deletion} (listed : x.Listed s indel doingdel)
    (areas : s'.swapinfo.map area = s.swapinfo.map area) : x.Listed s' indel doingdel := by
  obtain ⟨e, e_mem, same⟩ := listed
  obtain ⟨e', e'_mem, same'⟩ := exists_same_area areas.symm e_mem
  exact ⟨e', e'_mem, same'.trans same⟩

theorem Listed.modify {x : Deletion}
    (listed : ∃ e ∈ ds, e.area = (x.d.id, x.d.vp, x.d.soff, x.d.eoff, x.d.npgs, indel, doingdel))
    {f : Swapinfo → Swapinfo} (flags : FlagsOnly f) (indel' doingdel' : Bool)
    (sets : ∀ e, e.indel = indel → (f e).indel = indel' ∧ (f e).doingdel = doingdel') :
    ∃ e ∈ modify ds x.d.id f,
      e.area = (x.d.id, x.d.vp, x.d.soff, x.d.eoff, x.d.npgs, indel', doingdel') := by
  obtain ⟨e, e_mem, same⟩ := listed
  simp only [area, Prod.mk.injEq] at same
  obtain ⟨id, vp, soff, eoff, npgs, is_indel, -⟩ := same
  refine ⟨f e, List.mem_map.2 ⟨e, e_mem, if_pos id⟩, ?_⟩
  obtain ⟨sets_indel, sets_doingdel⟩ := sets e is_indel
  rw [area, sets_indel, sets_doingdel, flags e]
  simp only [id, vp, soff, eoff, npgs]

/-! ### Steps of the deletion -/

inductive Stepped (flag : Bool) (s : State) : DelPc → State → Prop
  | found {bucket : ℕ} {ap : Anon} {s' : State} (ap_mem : ap ∈ s.anons) (covered : x.Covers ap)
      (going : x.Going flag (.freeing bucket ap.vp ap.off) s') : Stepped flag s (.walking bucket) s'
  | passed {bucket : ℕ} {s' : State} (inside : bucket < 2 ^ s.hashBits)
      (hashBits : s'.hashBits = s.hashBits)
      (anons : s'.anons = s.anons) (going : x.Going flag (.walking (bucket + 1)) s') :
      Stepped flag s (.walking bucket) s'
  | gone {bucket : ℕ} {s' : State} (outside : 2 ^ s.hashBits ≤ bucket) (gone : x.Gone s') :
      Stepped flag s (.walking bucket) s'
  | freed {bucket vp off : ℕ} {failed : Bool}
      {s' : State} (going : x.Going flag (.checking bucket failed) s') :
      Stepped flag s (.freeing bucket vp off) s'
  | again {bucket : ℕ} {s' : State} (flagged : flag = true)
      (going : x.Going flag (.walking bucket) s') :
      Stepped flag s (.checking bucket false) s'
  | kept {bucket : ℕ} {failed : Bool} {s' : State} (kept : x.Kept s') :
      Stepped flag s (.checking bucket failed) s'

variable {x}

section

variable (going : x.Going flag pc s)

include going

theorem Going.any_doingdel :
    (s.swapinfo.any fun d => d.id = (x.thread pc).dev ∧ d.doingdel) = flag := by
  obtain ⟨e, e_mem, id, -, -, -, -, -, doingdel⟩ := going.listed.cases
  rw [Bool.eq_iff_iff, List.any_eq_true]
  constructor
  · rintro ⟨e', e'_mem, both⟩
    simp only [decide_eq_true_eq] at both
    rw [← doingdel, ← going.consistent.toLayout.eq_of_id e'_mem e_mem (both.1.trans id.symm)]
    exact both.2
  · intro set
    refine ⟨e, e_mem, ?_⟩
    rw [decide_eq_true_eq, doingdel]
    exact ⟨id, set⟩

theorem Going.at_zero : s.dels[0]? = some (x.thread pc) := by
  rw [going.dels]
  rfl

theorem Going.set_pc {pc' : DelPc}
    (consistent : Consistent { s with dels := s.dels.set 0 { x.thread pc with pc := pc' } }) :
    x.Going flag pc' { s with dels := s.dels.set 0 { x.thread pc with pc := pc' } } := by
  refine ⟨consistent, ?_, going.listed, going.max⟩
  rw [going.dels]
  rfl

theorem Going.finish
    (consistent : Consistent { (x.thread pc).finish s with dels := s.dels.eraseIdx 0 }) :
    x.Gone { (x.thread pc).finish s with dels := s.dels.eraseIdx 0 } := by
  refine ⟨consistent, ?_, ?_, going.max⟩
  · rw [going.dels]
    rfl
  · intro e e_mem same_vp
    obtain ⟨e_mem, e_id⟩ := mem_filter.1 e_mem
    rw [decide_eq_true_eq] at e_id
    obtain ⟨e', e'_mem, id, vp, soff, eoff, -⟩ := going.listed.cases
    rw [← soff, ← eoff]
    exact going.consistent.apart e e_mem e' e'_mem (by rw [id]; exact e_id) (by rw [vp, same_vp])

theorem Going.abort
    (consistent : Consistent { (x.thread pc).abort s cpu with dels := s.dels.eraseIdx 0 }) :
    x.Kept { (x.thread pc).abort s cpu with dels := s.dels.eraseIdx 0 } := by
  refine ⟨consistent, ?_, ?_, ?_⟩
  · rw [going.dels]
    rfl
  · exact Listed.modify going.listed (fun d => rfl) false false fun e _ => ⟨rfl, rfl⟩
  · have max := going.max
    simp only [Del.abort, State.aniAdd, thread]
    omega

theorem Going.stepped (steps : delStep s 0 result cpu = some s') :
    x.Stepped flag s pc s' := by
  obtain ⟨s'', steps', consistent⟩ := going.consistent.delStep 0 result cpu
  obtain rfl := some.inj (steps'.symm.trans steps)
  have pc_eq : (x.thread pc).pc = pc := rfl
  simp only [delStep, going.at_zero, Del.step, pc_eq] at steps
  rcases pc with bucket | ⟨bucket, vp, off⟩ | ⟨bucket, failed⟩
  · simp only at steps
    split_ifs at steps with inside
    · split at steps
      · next ap found =>
          obtain rfl := some.inj steps
          have chosen := find?_some found
          have chosen := of_decide_eq_true chosen
          exact .found (mem_of_find?_eq_some found) chosen.2 (going.set_pc consistent)
      · obtain rfl := some.inj steps
        exact .passed inside rfl rfl (going.set_pc consistent)
    · obtain rfl := some.inj steps
      exact .gone (Nat.le_of_not_lt inside) (going.finish consistent)
  · simp only at steps
    obtain ⟨⟨pc', s₁⟩, freed, steps⟩ := map_eq_some_iff.1 steps
    obtain ⟨⟨failed, s₂⟩, frees, freed⟩ := map_eq_some_iff.1 freed
    obtain ⟨rfl, rfl⟩ := Prod.mk.inj freed
    obtain ⟨failed', s₃, frees', consistent₁, framed⟩ :=
      going.consistent.slotFree (x.thread (.freeing bucket vp off)) vp off result
    obtain ⟨rfl, rfl⟩ := Prod.mk.inj (some.inj (frees'.symm.trans frees))
    have same := books_slotFree frees
    simp only [books, Prod.mk.injEq] at same
    have going₁ : x.Going flag (.freeing bucket vp off) s₃ :=
      ⟨consistent₁, framed.dels.trans going.dels, going.listed.framed framed.areas, by
        rw [same.1]
        exact going.max⟩
    subst steps
    exact .freed (going₁.set_pc consistent)
  · simp only [going.any_doingdel] at steps
    by_cases goes_on : (!failed && flag) = true
    · rw [if_pos goes_on] at steps
      obtain rfl := some.inj steps
      simp only [and_eq_true, not_eq_true'] at goes_on
      obtain ⟨rfl, flagged⟩ := goes_on
      exact .again flagged (going.set_pc consistent)
    · rw [if_neg goes_on] at steps
      obtain rfl := some.inj steps
      exact .kept (going.abort consistent)

end

/-! ### The deletion from its start -/

/-- The deletion goes on, is over or has been abandoned. -/
inductive Phase (x : Deletion) (flag : Bool) (s : State) : Prop
  | kept (kept : x.Kept s)
  | going (pc : DelPc) (going : x.Going flag pc s)
  | gone (gone : x.Gone s)

theorem delStep_idle (idle : s.dels = []) (steps : delStep s 0 result cpu = some s') : s' = s := by
  simp only [delStep, idle, getElem?_nil, some.injEq] at steps
  exact steps.symm

theorem Phase.step (phase : x.Phase flag s) (steps : delStep s 0 result cpu = some s') :
    x.Phase flag s' := by
  rcases phase with kept | ⟨pc, going⟩ | gone
  · rw [delStep_idle kept.dels steps]
    exact .kept kept
  · cases going.stepped steps with
    | found _ _ going => exact .going _ going
    | passed _ _ _ going => exact .going _ going
    | gone _ gone => exact .gone gone
    | freed going => exact .going _ going
    | again _ going => exact .going _ going
    | kept kept => exact .kept kept
  · rw [delStep_idle gone.dels steps]
    exact .gone gone

def DelSteps (ops : List Op) : Prop := ∀ op ∈ ops, ∃ result cpu, op = .delStep 0 result cpu

theorem run_of_step {motive : State → Prop}
    (keeps : ∀ {s s' result cpu}, motive s → delStep s 0 result cpu = some s' → motive s')
    (del_steps : DelSteps ops) (first : motive s) (runs : run s ops = some s') :
    motive s' := by
  induction ops generalizing s with
  | nil =>
    cases runs
    exact first
  | cons op ops ih =>
    obtain ⟨result, cpu, rfl⟩ := del_steps op mem_cons_self
    obtain ⟨s₁, steps, runs⟩ := bind_eq_some_iff.1 runs
    exact ih (fun op op_mem => del_steps op (mem_cons_of_mem _ op_mem))
      (keeps first steps) runs

variable (x) in
theorem swapdel_start (cpu : Fin 8) : x.Phase true (swapdel x.start x.d.vp x.d.soff cpu).2 := by
  have consistent := x.consistent.swapdel x.d.vp x.d.soff cpu
  have nonempty := x.nonempty
  rcases found : x.start.swapinfo.find? fun e => e.vp = x.d.vp ∧ e.soff = x.d.soff ∧
    !e.indel ∧ !e.doingdel
    with _ | e
  · have := find?_eq_none.1 found x.d x.listed
    simp [x.indel, x.doingdel] at this
  · -- The device that is found starts where the one to delete does, so it is that one.
    have e_mem := mem_of_find?_eq_some found
    have chosen := find?_some found
    have chosen := of_decide_eq_true chosen
    have positive := (x.consistent.good e e_mem).positive
    have range := (x.consistent.good e e_mem).range
    have same : e = x.d := by
      refine x.consistent.toLayout.eq_of_covers e_mem x.listed
        (covers_iff.2 ⟨chosen.1, le_of_eq chosen.2.1, ?_⟩)
          (covers_iff.2 ⟨rfl, le_refl _, x.nonempty⟩)
      omega
    subst same
    simp only [swapdel, found] at consistent ⊢
    split_ifs at consistent ⊢
    · exact .kept x.kept_start
    · refine .going (.walking 0) ⟨consistent, ?_, ?_, rfl⟩
      · simp only [State.aniAdd, x.idle, nil_append, thread]
      · exact Listed.modify x.kept_start.listed (fun d => rfl) true true fun e _ => ⟨rfl, rfl⟩
    · refine .going (.walking 0) ⟨consistent, ?_, ?_, rfl⟩
      · simp only [State.aniAdd, x.idle, nil_append, thread]
      · exact Listed.modify x.kept_start.listed (fun d => rfl) true true fun e _ => ⟨rfl, rfl⟩

/-! ### `swapadd` of the same area -/

/-- What `swapadd` finds when the device is on the list. -/
theorem existing_of_mem {d : Swapinfo} (d_mem : d ∈ ds) (pages : d.npgs = d.eoff - d.soff)
    (nonempty : d.soff < d.eoff)
    (others : ∀ e ∈ ds, e.id ≠ d.id → e.vp = d.vp → e.soff < e.eoff ∧
      (e.eoff ≤ d.soff ∨ d.eoff ≤ e.soff))
    (unique : ∀ e ∈ ds, e.id = d.id → e = d) :
    existing d.vp d.soff d.eoff ds = some (if d.doingdel then .deleting d.id else .overlaps) := by
  induction ds with
  | nil => cases d_mem
  | cons e es ih =>
    rw [existing]
    by_cases is_d : e.id = d.id
    · rw [unique e mem_cons_self is_d, if_pos rfl]
      cases doingdel : d.doingdel with
      | true => rw [if_pos ⟨rfl, pages, rfl⟩, if_pos rfl]
      | false =>
        rw [if_neg (by simp), if_pos ⟨nonempty, nonempty⟩]
        rfl
    · have d_mem' : d ∈ es := by
        rcases mem_cons.1 d_mem with rfl | d_mem'
        · exact (is_d rfl).elim
        · exact d_mem'
      have rest := ih d_mem' (fun a a_mem => others a (mem_cons_of_mem _ a_mem))
        fun a a_mem => unique a (mem_cons_of_mem _ a_mem)
      by_cases same_vp : e.vp = d.vp
      · obtain ⟨e_nonempty, apart⟩ := others e mem_cons_self is_d same_vp
        rw [if_pos same_vp, if_neg (by omega), if_neg (by omega), rest]
      · rw [if_neg same_vp, rest]

theorem existing_listed (consistent : Consistent s) (listed : x.Listed s indel doingdel) :
    existing x.d.vp x.d.soff x.d.eoff s.swapinfo =
      some (if doingdel then .deleting x.d.id else .overlaps) := by
  obtain ⟨d, d_mem, id, vp, soff, eoff, -, -, is_doingdel⟩ := listed.cases
  have nonempty := x.nonempty
  have good := consistent.good d d_mem
  have range := good.range
  rw [← id, ← vp, ← soff, ← eoff, ← is_doingdel]
  refine existing_of_mem d_mem (by omega) (by omega) ?_ ?_
  · intro e e_mem distinct same_vp
    have e_positive := (consistent.good e e_mem).positive
    have e_range := (consistent.good e e_mem).range
    exact ⟨by omega, consistent.apart e e_mem d d_mem distinct same_vp⟩
  · exact fun e e_mem same => consistent.toLayout.eq_of_id e_mem d_mem same

theorem existing_apart {vp soff eoff : ℕ} (nonempty : soff < eoff)
    (apart : ∀ e ∈ ds, e.vp = vp → e.soff < e.eoff ∧ (e.eoff ≤ soff ∨ eoff ≤ e.soff)) :
    existing vp soff eoff ds = none := by
  induction ds with
  | nil => rfl
  | cons e es ih =>
    have rest := ih fun a a_mem => apart a (mem_cons_of_mem _ a_mem)
    rw [existing]
    by_cases same_vp : e.vp = vp
    · obtain ⟨e_nonempty, e_apart⟩ := apart e mem_cons_self same_vp
      rw [if_pos same_vp, if_neg (by omega), if_neg (by omega), rest]
    · rw [if_neg same_vp, rest]

/-- The device is in use again. -/
def Restored (x : Deletion) (s : State) : Prop :=
  (∃ e ∈ s.swapinfo, e.vp = x.d.vp ∧ e.soff = x.d.soff ∧ e.npgs = x.d.npgs ∧ e.indel = false) ∧
    s.ani.max = x.start.ani.max

theorem Kept.restored (kept : x.Kept s) : x.Restored s := by
  obtain ⟨e, e_mem, -, vp, soff, -, npgs, indel, -⟩ := kept.listed.cases
  exact ⟨⟨e, e_mem, vp, soff, npgs, indel⟩, kept.max⟩

theorem Gone.not_restored (gone : x.Gone s) : ¬ x.Restored s := by
  rintro ⟨-, max⟩
  have := gone.max
  have := x.npgs_pos
  omega

theorem Kept.swapadd (kept : x.Kept s) (cpu : Fin 8) :
    swapadd s x.d.vp x.d.soff x.d.eoff cpu = (some .eexist, s) := by
  rw [Swap.swapadd, if_neg (Nat.not_le_of_lt x.nonempty),
    existing_listed kept.consistent kept.listed]
  rfl

theorem Going.swapadd (going : x.Going true pc s) (cpu : Fin 8) :
    (swapadd s x.d.vp x.d.soff x.d.eoff cpu).1 = none ∧
      x.Going false pc (swapadd s x.d.vp x.d.soff x.d.eoff cpu).2 ∧
      (swapadd s x.d.vp x.d.soff x.d.eoff cpu).2.anons = s.anons := by
  have consistent := going.consistent.swapadd x.d.vp x.d.soff x.d.eoff cpu
  rw [Swap.swapadd, if_neg (Nat.not_le_of_lt x.nonempty),
    existing_listed going.consistent going.listed]
    at consistent ⊢
  refine ⟨rfl, ⟨consistent, going.dels, ?_, going.max⟩, rfl⟩
  exact Listed.modify going.listed (fun d => rfl) true false fun e indel => ⟨indel, rfl⟩

@[simp] theorem addPages_max (s : State) (pages : ℕ) (cpu : Fin 8) :
    (s.addPages pages cpu).ani.max = s.ani.max + pages := by
  simp only [State.addPages]
  split_ifs <;> rfl

@[simp] theorem addPages_swapinfo (s : State) (pages : ℕ) (cpu : Fin 8) :
    (s.addPages pages cpu).swapinfo = s.swapinfo := by
  simp only [State.addPages]
  split_ifs <;> rfl

@[simp] theorem addPages_dels (s : State) (pages : ℕ) (cpu : Fin 8) :
    (s.addPages pages cpu).dels = s.dels := by
  simp only [State.addPages]
  split_ifs <;> rfl

theorem Gone.swapadd (gone : x.Gone s) (cpu : Fin 8) :
    x.Restored (swapadd s x.d.vp x.d.soff x.d.eoff cpu).2 ∧
      (swapadd s x.d.vp x.d.soff x.d.eoff cpu).2.dels = [] := by
  have nothing : existing x.d.vp x.d.soff x.d.eoff s.swapinfo = none := by
    refine existing_apart x.nonempty fun e e_mem same_vp => ?_
    have positive := (gone.consistent.good e e_mem).positive
    have range := (gone.consistent.good e e_mem).range
    exact ⟨by omega, gone.apart e e_mem same_vp⟩
  have pages := x.npgs_eq
  have max := gone.max
  rw [Swap.swapadd, if_neg (Nat.not_le_of_lt x.nonempty), nothing]
  refine ⟨⟨⟨newSwapinfo s.fresh x.d.vp x.d.soff x.d.eoff, ?_, rfl, rfl, pages.symm, rfl⟩, ?_⟩, ?_⟩
  · simp only [addPages_swapinfo]
    exact mem_append_right _ (mem_singleton_self _)
  · simp only [addPages_max]
    omega
  · simp only [addPages_dels]
    exact gone.dels

/-! ### The deletion behind `swapadd` -/

/-- `swapdel` is between two pages, and none is left that has its slot on the device. -/
def TooLate (x : Deletion) (s : State) : Prop :=
  ∃ bucket, s.dels = [x.thread (.walking bucket)] ∧ ∀ ap ∈ s.anons, ¬ x.Covers ap

/-- Nothing stops the deletion any more. -/
inductive Lost (x : Deletion) (s : State) : Prop
  | going (bucket : ℕ) (going : x.Going false (.walking bucket) s) (clear : ∀ ap ∈ s.anons,
      ¬ x.Covers ap)
  | gone (gone : x.Gone s)

/-- The deletion is to look at the flag once more, or has done so. -/
inductive Saved (x : Deletion) (s : State) : Prop
  | going (pc : DelPc) (going : x.Going false pc s)
      (left : ∀ bucket, pc = .walking bucket → ∃ ap ∈ s.anons, x.Covers ap)
  | kept (kept : x.Kept s)

theorem Going.inside_of_covers {bucket : ℕ} (going : x.Going flag (.walking bucket) s) {ap : Anon}
    (ap_mem : ap ∈ s.anons) (covered : x.Covers ap) : bucket < 2 ^ s.hashBits := by
  by_contra outside
  have t_mem : x.thread (.walking bucket) ∈ s.dels := by
    rw [going.dels]
    exact mem_singleton_self _
  have before : s.anonHash ap.vp ap.off < bucket :=
    lt_of_lt_of_le (anonHash_lt s ap.vp ap.off) (Nat.le_of_not_lt outside)
  have not_covered := going.consistent.walked _ t_mem ap ap_mem before
  exact false_ne_true (not_covered.symm.trans covered)

theorem Lost.step (lost : x.Lost s) (steps : delStep s 0 result cpu = some s') : x.Lost s' := by
  rcases lost with ⟨bucket, going, clear⟩ | gone
  · cases going.stepped steps with
    | found ap_mem covered => exact (clear _ ap_mem covered).elim
    | passed _ _ anons going => exact .going _ going (by rwa [anons])
    | gone _ gone => exact .gone gone
  · rw [delStep_idle gone.dels steps]
    exact .gone gone

theorem Saved.step (saved : x.Saved s) (steps : delStep s 0 result cpu = some s') : x.Saved s' := by
  rcases saved with ⟨pc, going, left⟩ | kept
  · cases going.stepped steps with
    | found _ _ going => exact .going _ going fun _ impossible => nomatch impossible
    | passed _ _ anons going =>
      obtain ⟨ap, ap_mem, covered⟩ := left _ rfl
      exact .going _ going fun _ _ => ⟨ap, by rwa [anons], covered⟩
    | gone outside gone =>
      obtain ⟨ap, ap_mem, covered⟩ := left _ rfl
      exact (Nat.not_lt_of_le outside (going.inside_of_covers ap_mem covered)).elim
    | freed going => exact .going _ going fun _ impossible => nomatch impossible
    | again flagged => exact (false_ne_true flagged).elim
    | kept kept => exact .kept kept
  · rw [delStep_idle kept.dels steps]
    exact .kept kept

theorem Lost.not_restored (lost : x.Lost s) (finished : s.dels = []) : ¬ x.Restored s := by
  rcases lost with ⟨bucket, going, -⟩ | gone
  · rw [going.dels] at finished
    cases finished
  · exact gone.not_restored

theorem Saved.restored (saved : x.Saved s) (finished : s.dels = []) : x.Restored s := by
  rcases saved with ⟨pc, going, -⟩ | kept
  · rw [going.dels] at finished
    cases finished
  · exact kept.restored

theorem run_idle (del_steps : DelSteps ops) (idle : s.dels = []) (runs : run s ops = some s') :
    s' = s := by
  refine run_of_step (motive := fun s' => s' = s) ?_ del_steps rfl runs
  rintro s₁ s₂ result cpu rfl steps
  exact delStep_idle idle steps

/-- `swapadd` comes when the deletion is at any point. -/
theorem Phase.swapadd (phase : x.Phase true s) (del_steps : DelSteps ops)
    (runs : run (swapadd s x.d.vp x.d.soff x.d.eoff cpu).2 ops = some s')
    (finished : s'.dels = []) :
    ((swapadd s x.d.vp x.d.soff x.d.eoff cpu).1 = none → x.Restored s') ↔ ¬ x.TooLate s := by
  rcases phase with kept | ⟨pc, going⟩ | gone
  · rw [kept.swapadd cpu]
    refine iff_of_true (fun impossible => nomatch impossible) ?_
    rintro ⟨bucket, dels, -⟩
    rw [kept.dels] at dels
    cases dels
  · obtain ⟨success, going', anons⟩ := going.swapadd cpu
    simp only [success, forall_const]
    by_cases late : x.TooLate s
    · obtain ⟨bucket, dels, clear⟩ := id late
      have pc_eq : pc = .walking bucket := by
        have same := going.dels.symm.trans dels
        simpa [thread] using same
      subst pc_eq
      have lost : x.Lost s' := run_of_step (fun lost steps => Lost.step lost steps) del_steps
          (.going bucket going' (by rwa [anons])) runs
      exact iff_of_false (lost.not_restored finished) (not_not_intro late)
    · have saved : x.Saved s' := by
        refine run_of_step (fun saved steps => Saved.step saved steps) del_steps
          (.going pc going' ?_) runs
        rintro bucket rfl
        by_contra clear
        refine late ⟨bucket, going.dels, fun ap ap_mem covered => clear ⟨ap, ?_, covered⟩⟩
        rwa [anons]
      exact iff_of_true (saved.restored finished) late
  · obtain ⟨restored, idle⟩ := gone.swapadd cpu
    rw [run_idle del_steps idle runs]
    refine iff_of_true (fun _ => restored) ?_
    rintro ⟨bucket, dels, -⟩
    rw [gone.dels] at dels
    cases dels

end Deletion

/-- Along every interleaving of a `swapdel` of a device with a `swapadd` of the same area, a
`swapadd` that succeeds leaves the device in use exactly when it does not come while `swapdel` is
between two pages and no page is left on the device. -/
theorem readd_restores (x : Deletion) {before after steps : List Op} {cpu cpu' : Fin 8}
    (del_steps : Deletion.DelSteps steps)
    (interleaved : before ++ after = .swapdel x.d.vp x.d.soff cpu :: steps) {s₁ s₂ : State}
    (runs₁ : run x.start before = some s₁)
    (runs₂ : run (swapadd s₁ x.d.vp x.d.soff x.d.eoff cpu').2 after = some s₂)
    (finished : s₂.dels = []) :
    ((swapadd s₁ x.d.vp x.d.soff x.d.eoff cpu').1 = none → x.Restored s₂) ↔ ¬ x.TooLate s₁ := by
  cases before with
  | nil =>
    cases runs₁
    rw [x.kept_start.swapadd cpu']
    refine iff_of_true (fun impossible => nomatch impossible) ?_
    rintro ⟨bucket, dels, -⟩
    rw [x.idle] at dels
    cases dels
  | cons op before =>
    obtain ⟨rfl, rfl⟩ := cons.inj interleaved
    have phase : x.Phase true s₁ :=
      Deletion.run_of_step (fun phase steps => Deletion.Phase.step phase steps)
        (fun op op_mem => del_steps op (mem_append_left _ op_mem))
          (x.swapdel_start cpu) runs₁
    exact phase.swapadd
      (fun op op_mem => del_steps op (mem_append_right _ op_mem)) runs₂ finished

def oneDevice : State := (swapadd noDevices 1 0 4 0).2

theorem oneDevice_consistent : Consistent oneDevice := noDevices_consistent.swapadd 1 0 4 0

/-- An anonymous page has the first slot of the device. -/
def onePage : State :=
  match swapNewphysname (anonAlloc oneDevice 9 0 0) 9 0 0 1 with
  | none => oneDevice
  | some (_, s) => s

theorem onePage_consistent : Consistent onePage := by
  obtain ⟨kluster, s, names, consistent, -⟩ :=
    @Consistent.swapNewphysname _ (oneDevice_consistent.anonAlloc 9 0 0) 9 0 0 1
  simp only [onePage, names]
  exact consistent

def onePageDeletion : Deletion where
  start := onePage
  d := { fourPages with hint := 1, allocs := 1 }
  consistent := onePage_consistent
  idle := rfl
  listed := by decide
  indel := rfl
  doingdel := rfl

/-- `swapadd` comes while the page is still on the device. -/
theorem readd_restores_one_page :
    ∃ s₁ s₂, run onePageDeletion.start [.swapdel 1 0 0] = some s₁ ∧ (swapadd s₁ 1 0 4 0).1 = none ∧
      run (swapadd s₁ 1 0 4 0).2 (List.replicate 3 (.delStep 0 .success 0)) = some s₂ ∧
        s₂.dels = [] ∧
      onePageDeletion.Restored s₂ := by
  refine ⟨_, _, rfl, rfl, rfl, rfl, ?_⟩
  have in_time := @readd_restores onePageDeletion [.swapdel 1 0 0]
    (List.replicate 3 (.delStep 0 .success 0)) _ 0 0
    (fun op op_mem => ⟨.success, 0, eq_of_mem_replicate op_mem⟩) rfl _ _ rfl rfl rfl
  refine in_time.2 ?_ rfl
  rintro ⟨bucket, -, clear⟩
  exact clear ⟨9, 0, some (1, 0), 1⟩ (by decide) rfl

/-- The deletion of a device without pages. -/
def emptyDeletion : Deletion where
  start := oneDevice
  d := newSwapinfo 0 1 0 4
  consistent := oneDevice_consistent
  idle := rfl
  listed := by decide
  indel := rfl
  doingdel := rfl

/-- `swapadd` succeeds, and the device goes all the same. -/
theorem readd_not_restored :
    ∃ s₁ s₂, run emptyDeletion.start [.swapdel 1 0 0] = some s₁ ∧ (swapadd s₁ 1 0 4 0).1 = none ∧
      run (swapadd s₁ 1 0 4 0).2 (List.replicate 9 (.delStep 0 .success 0)) = some s₂ ∧
        s₂.dels = [] ∧
      s₂.swapinfo = [] ∧ ¬ emptyDeletion.Restored s₂ := by
  refine ⟨_, _, rfl, rfl, rfl, rfl, rfl, ?_⟩
  rintro ⟨-, max⟩
  exact absurd max (by decide)

end Sol25.Swap
