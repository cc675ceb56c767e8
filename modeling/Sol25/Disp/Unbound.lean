import Sol25.Disp.Remove

/-!
# The highest unbound thread

`disp_max_unbound_pri` is only a bound.  Whoever finds no unbound thread there corrects it, and each
round of `disp_cpu_inactive` takes a thread off the queue or lowers the bound.
-/

namespace Sol25.Disp

open List Option Function Nat Int

variable {s s' : State} {L : Lists} {q : QueueId} {t u i pri c fuel choose : ℕ} {l : List ℕ}
  {dq : Dispq}
  {p : Option ℕ} {cfg : Config}

/-- A thread that may run on every processor. -/
def State.unbound (s : State) (t : ℕ) : Bool := decide ((s.thread t).boundCpu = none)

theorem setDisp_self (s : State) (q : QueueId) (dp : DispT) : (s.setDisp q dp).disp q = dp :=
  update_self ..

theorem setDisp_ne {q' : QueueId} (s : State) (dp : DispT) (ne : q' ≠ q) :
    (s.setDisp q dp).disp q' = s.disp q' :=
  update_of_ne ne ..

theorem firstUnbound_eq (links : Links (fun u => (s.thread u).link) p l none)
    (enough : l.length ≤ fuel) :
    firstUnbound s fuel p = some (l.find? s.unbound) := by
  induction l generalizing p fuel with
  | nil =>
    obtain rfl : p = none := links
    cases fuel <;> rfl
  | cons r l ih =>
    obtain ⟨rfl, rest⟩ := links
    obtain ⟨fuel, rfl⟩ := Nat.exists_eq_add_of_lt (Nat.lt_of_lt_of_le (succ_pos _) enough)
    rw [length_cons] at enough
    rw [Nat.zero_add, firstUnbound, find?_cons]
    by_cases free : (s.thread r).boundCpu = none
    · rw [if_pos free, show s.unbound r = true from decide_eq_true free]
    · rw [if_neg free, show s.unbound r = false from decide_eq_false free]
      exact ih rest (by omega)

namespace Good

variable (good : Good s L)
include good

theorem getElem?_lt (lt : i < (s.disp q).npri) : ∃ dq, (s.disp q).q[i]? = some dq := by
  rw [← (good.held q).q_length] at lt
  exact ⟨_, getElem?_eq_getElem lt⟩

theorem unboundAt_eq (lt : i < (s.disp q).npri) :
    unboundAt s (s.disp q) i = some ((L q i).find? s.unbound) := by
  obtain ⟨dq, at_i⟩ := good.getElem?_lt lt
  have level := (good.held q).level i dq at_i
  rw [unboundAt, at_i]
  exact firstUnbound_eq level.links level.sruncnt_eq.ge

theorem lt_npri (some_at : L q i ≠ []) : i < (s.disp q).npri := by
  by_contra beyond
  exact some_at ((good.held q).outside i (not_lt.1 beyond))

theorem lt_npri_of_hint (le : (i : ℤ) ≤ (s.disp q).maxUnboundPri) : i < (s.disp q).npri := by
  have held := good.held q
  have unbound_le := held.unbound_le
  rcases held.maxrunpri with ⟨top, -⟩ | ⟨k, top, some_at, -⟩
  · omega
  · have lt := good.lt_npri some_at
    omega

/-- The loop finds the highest unbound thread below a level. -/
theorem fixLoop_spec (enough : pri < fuel) : ∃ lower, fixLoop s (s.disp q) fuel pri = some lower ∧
    IsHighest (fun i => i < pri ∧ ∃ u ∈ L q i, (s.thread u).boundCpu = none) lower := by
  have active := (good.held q).active
  induction fuel generalizing pri with
  | zero => exact absurd enough (not_lt_zero _)
  | succ fuel ih =>
    rw [fixLoop]
    rcases nextLower_highest (s.disp q).qactmap pri with ⟨eq, none_at⟩ | ⟨k, eq, ⟨lt, set⟩, above⟩
    · have negative : nextLower (s.disp q).qactmap pri < 0 := by omega
      refine ⟨-1, if_pos negative, .inl ⟨rfl, fun i both => ?_⟩⟩
      obtain ⟨i_lt, u, mem, -⟩ := both
      exact none_at i ⟨i_lt, (active i).2 (ne_nil_of_mem mem)⟩
    have skipped : ∀ i, k < i → i < pri → L q i = [] := fun i k_lt i_lt => by
      by_contra some_at
      exact above i k_lt ⟨i_lt, (active i).2 some_at⟩
    have natural : ¬ nextLower (s.disp q).qactmap pri < 0 := by omega
    rw [if_neg natural, eq, toNat_natCast,
      good.unboundAt_eq (good.lt_npri ((active k).1 set)), bind_eq_bind, bind_some]
    cases found : (L q k).find? s.unbound with
    | some u =>
      have mem := mem_of_find?_eq_some found
      have free := find?_some found
      refine ⟨k, rfl, .inr ⟨k, rfl, ⟨lt, u, mem, of_decide_eq_true free⟩, fun i k_lt both => ?_⟩⟩
      obtain ⟨i_lt, v, mem_v, -⟩ := both
      rw [skipped i k_lt i_lt] at mem_v
      exact nomatch mem_v
    | none =>
      obtain ⟨lower, done, highest⟩ := ih (show k < fuel by omega)
      refine ⟨lower, done, highest.congr fun i => and_congr_left fun unbound => ?_⟩
      refine ⟨fun i_lt => ?_, fun i_lt => i_lt.trans lt⟩
      obtain ⟨v, mem_v, free⟩ := unbound
      by_contra not_below
      rcases Nat.lt_or_eq_of_le (not_lt.1 not_below) with k_lt | rfl
      · rw [skipped i k_lt i_lt] at mem_v
        exact nomatch mem_v
      · exact find?_eq_none.1 found v mem_v (decide_eq_true free)

/-- `disp_fix_unbound_pri` lowers the bound of a queue that has no unbound thread there. -/
theorem dispFixUnboundPri_good (hint : (s.disp q).maxUnboundPri = pri)
    (bound : ∀ u ∈ L q pri, (s.thread u).boundCpu ≠ none) :
    ∃ s', dispFixUnboundPri s q pri = some s' ∧ Good s' L ∧ s'.thread = s.thread ∧
      (∀ q', (s'.disp q').npri = (s.disp q').npri) ∧ (s'.disp q).nrunnable = (s.disp q).nrunnable ∧
      (s'.disp q).maxUnboundPri < pri := by
  obtain ⟨lower, done, highest⟩ := good.fixLoop_spec (q := q) (lt_succ_self pri)
  have held := good.held q
  have lower_lt : lower < pri := by
    rcases highest with ⟨rfl, -⟩ | ⟨k, rfl, holds, -⟩
    · omega
    · exact Int.ofNat_lt.2 holds.1
  have unbound_le := held.unbound_le
  rw [dispFixUnboundPri, done]
  refine ⟨_, rfl, ?_, rfl, npri_update rfl rfl, ?_, ?_⟩
  · refine { good with held := fun q' => ?_ }
    by_cases eq : q' = q
    · subst eq
      rw [setDisp_self]
      refine { held with
        unbound := fun i u mem free => ?_
        unbound_le := by dsimp only; omega
        neg_one_le := highest.neg_one_le }
      have le := held.unbound i u mem free
      rcases eq_or_ne i pri with rfl | ne
      · exact absurd free (bound u mem)
      · exact highest.le ⟨by omega, u, mem, free⟩
    · rw [setDisp_ne _ _ eq]
      exact good.held q'
  · rw [setDisp_self]
  · rw [setDisp_self]
    exact lower_lt

/-- The first unbound thread at the level of the bound is taken off, or there is none and the bound
falls. -/
theorem takeUnbound_good (q : QueueId) :
    (∃ s', takeUnbound s q = some (none, s') ∧ Good s' L ∧ s'.thread = s.thread ∧
      (∀ i : ℕ, i = (s.disp q).maxUnboundPri → ∀ u ∈ L q i, (s.thread u).boundCpu ≠ none) ∧
      (∀ q', (s'.disp q').npri = (s.disp q').npri) ∧ (s'.disp q).nrunnable = (s.disp q).nrunnable ∧
      ((s.disp q).maxUnboundPri = -1 ∨ (s'.disp q).maxUnboundPri < (s.disp q).maxUnboundPri)) ∨
    ∃ t s', takeUnbound s q = some (some t, s') ∧ (s.thread t).lockp = .queue q ∧
      (s.thread t).boundCpu = none ∧
      Dequeued s s' L q t := by
  have neg_one_le := (good.held q).neg_one_le
  rw [takeUnbound]
  by_cases empty : (s.disp q).maxUnboundPri = -1
  · rw [if_pos empty]
    exact .inl ⟨s, rfl, good, rfl, fun i eq => by omega, fun _ => rfl, rfl, .inl empty⟩
  obtain ⟨pri, hint⟩ := eq_ofNat_of_zero_le (show 0 ≤ (s.disp q).maxUnboundPri by omega)
  rw [if_neg empty, hint, toNat_natCast]
  dsimp only
  rw [good.unboundAt_eq (good.lt_npri_of_hint hint.ge), bind_eq_bind, bind_some]
  cases found : (L q pri).find? s.unbound with
  | none =>
    have bound : ∀ u ∈ L q pri, (s.thread u).boundCpu ≠ none := fun u mem free =>
      find?_eq_none.1 found u mem (decide_eq_true free)
    obtain ⟨s', done, good', threads, npri_eq, count, lower⟩ :=
      good.dispFixUnboundPri_good hint bound
    refine .inl ⟨s', ?_, good', threads, fun i eq => ?_, npri_eq, count, .inr lower⟩
    · simp only [done, bind_eq_bind, bind_some]
    · obtain rfl : i = pri := by omega
      exact bound
  | some t =>
    have mem := mem_of_find?_eq_some found
    have lock := ((good.mem_iff q pri t).1 mem).1
    have free : s.unbound t = true := find?_some found
    obtain ⟨s', done, dequeued⟩ := dispdeq_good good lock
    refine .inr ⟨t, s', ?_, lock, of_decide_eq_true free, dequeued⟩
    simp only [done, bind_eq_bind, bind_some]

end Good

end Sol25.Disp
