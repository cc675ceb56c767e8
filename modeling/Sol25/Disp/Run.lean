import Sol25.Disp.Unbound

/-!
# Runs of the dispatcher

A sequence of operations from empty queues, with the lists that front and back insertions make.
-/

namespace Sol25.Disp

open List Option

/-- Empty queues, and no thread on one. -/
structure Fresh (s : State) : Prop where
  disp : ∀ q, s.disp q = ⟨(s.disp q).npri, List.replicate (s.disp q).npri ⟨none, none, 0⟩,
    List.replicate ((s.disp q).npri / 32 + 1) 0, -1, -1, 0⟩
  thread : ∀ t, (s.thread t).Off ∧ (s.thread t).Plausible

/-- A thread leaves the list it is on. -/
def Lists.remove (L : Lists) (th : Thread) (t : ℕ) : Lists :=
  L.put th.dispQueue th.pri ((L th.dispQueue th.pri).erase t)

/-- What an operation means for the lists: a loaded thread comes to an end of a list of its
priority, and a thread that is taken off leaves its list. -/
def Lists.after (L : Lists) (s s' : State) : Op → Option ℕ → Lists
  | .setbackdq t _, _ =>
    if (s.thread t).loaded then
      L.put (s'.thread t).dispQueue (s.thread t).pri
        (L (s'.thread t).dispQueue (s.thread t).pri ++ [t])
    else L
  | .setfrontdq t _, _ =>
    if (s.thread t).loaded then
      L.put (s'.thread t).dispQueue (s.thread t).pri
        (t :: L (s'.thread t).dispQueue (s.thread t).pri)
    else L
  | .dispdeq t, _ => if (s.thread t).state = .run ∧
      (s.thread t).loaded then L.remove (s.thread t) t else L
  | .disp _, some t => L.remove (s.thread t) t
  | .dispGetbest _ _, some t => L.remove (s.thread t) t
  | .takeUnbound _, some t => L.remove (s.thread t) t
  | _, _ => L

/-- The states that sequences of operations reach from empty queues, with their lists. -/
inductive Run (cfg : Config) : State → Lists → Prop
  | start {s : State} (fresh : Fresh s) : Run cfg s fun _ _ => []
  | step {s s' : State} {L : Lists} {op : Op} {r : Option ℕ} (run : Run cfg s L)
      (done : exec cfg s op = some (r, s')) : Run cfg s' (L.after s s' op r)

variable {cfg : Config} {s s' : State} {L : Lists} {q : QueueId} {t u i c choose : ℕ} {op : Op}
  {r : Option ℕ}

theorem wordAt_replicate (n j : ℕ) : wordAt (List.replicate n (0 : BitVec 32)) j = 0 := by
  rw [wordAt, getElem?_replicate]
  split_ifs <;> rfl

theorem bitAt_replicate (n i : ℕ) : bitAt (List.replicate n (0 : BitVec 32)) i = false := by
  rw [bitAt, wordAt_replicate]
  exact BitVec.getLsbD_zero

theorem Level.blank {thread : ℕ → Thread} {dq : Dispq} {n : ℕ}
    (at_i : (List.replicate n (⟨none, none, 0⟩ : Dispq))[i]? = some dq) : Level thread dq [] := by
  rw [getElem?_replicate] at at_i
  split_ifs at at_i
  obtain rfl := some.inj at_i
  exact ⟨rfl, rfl, rfl⟩

theorem Fresh.good (fresh : Fresh s) : Good s fun _ _ => [] := by
  refine ⟨fun q => ?_, fun _ _ => nodup_nil, fun q i t => ?_, fun t q lock => ?_,
    fun t _ => (fresh.thread t).1.2,
    fun t run => ?_⟩
  · rw [fresh.disp q]
    refine ⟨length_replicate, length_replicate, fun i dq at_i => .blank at_i,
      fun _ _ => rfl, fun i => ?_, ?_, ?_, ?_,
      ?_, le_rfl⟩
    · rw [bitAt_replicate]
      simp
    · simp
    · exact Or.inl ⟨rfl, fun i => not_not.2 rfl⟩
    · exact fun i u mem => nomatch mem
    · exact le_rfl
  · exact iff_of_false not_mem_nil fun both => (fresh.thread t).1.1 q both.1
  · exact absurd lock ((fresh.thread t).1.1 q)
  · rcases (fresh.thread t).2 run with eq | ⟨eq, unloaded⟩
    · rw [eq]
      exact ⟨nofun, nofun⟩
    · exact ⟨eq ▸ nofun, fun _ => unloaded⟩

/-! ### Larger arrays -/

theorem wordAt_grown (map : List (BitVec 32)) (n j : ℕ) :
    wordAt (map ++ List.replicate n 0) j = wordAt map j := by
  rw [wordAt, wordAt, getElem?_append]
  split_ifs with inside
  · rfl
  · rw [getElem?_replicate, getElem?_eq_none (not_lt.1 inside)]
    split_ifs <;> rfl

theorem dispDqAssign_good {numpris : ℕ} (good : Good s L)
    (done : dispDqAssign s q numpris = some s') :
    Good s' L := by
  rw [dispDqAssign] at done
  split_ifs at done with larger
  obtain rfl := some.inj done
  have held := good.held q
  refine { good with held := fun q' => ?_ }
  by_cases eq : q' = q
  · subst eq
    rw [setDisp_self]
    have q_eq : (s.disp q').q.take (s.disp q').npri = (s.disp q').q :=
      take_of_length_le held.q_length.le
    have map_eq : (s.disp q').qactmap.take ((s.disp q').npri / 32 + 1) = (s.disp q').qactmap :=
      take_of_length_le held.map_length.le
    rw [q_eq, map_eq]
    refine { held with
      q_length := ?_
      map_length := ?_
      level := fun i dq at_i => ?_
      outside := fun i beyond => held.outside i (larger.le.trans beyond)
      active := fun i => ?_
      nrunnable := ?_ }
    · rw [length_append, length_replicate, held.q_length]
      exact Nat.add_sub_cancel' larger.le
    · rw [length_append, length_replicate, held.map_length]
      exact Nat.add_sub_cancel' (Nat.succ_le_succ (Nat.div_le_div_right larger.le))
    · rw [getElem?_append] at at_i
      split_ifs at at_i with inside
      · exact held.level i dq at_i
      · rw [held.outside i (by rw [← held.q_length]; exact not_lt.1 inside)]
        exact .blank at_i
    · rw [bitAt, wordAt_grown, ← bitAt]
      exact held.active i
    · rw [held.nrunnable]
      refine Finset.sum_subset (Finset.range_mono larger.le) fun i _ outside => ?_
      rw [held.outside i (by simpa using outside)]
      rfl
  · rw [setDisp_ne _ _ eq]
    exact good.held q'

/-! ### Steps and runs -/

theorem setbackdq_unloaded (unloaded : (s.thread t).loaded = false) :
    setbackdq cfg s t choose = dispSwappedSetrun s t := by
  rw [setbackdq, unloaded]
  rfl

theorem setfrontdq_unloaded (unloaded : (s.thread t).loaded = false) :
    setfrontdq cfg s t choose = dispSwappedSetrun s t := by
  rw [setfrontdq, unloaded]
  rfl

theorem dispdeq_after (good : Good s L) {found : Bool} (done : dispdeq s t = some (found, s')) :
    Good s' (L.after s s' (.dispdeq t) none) := by
  rw [Lists.after]
  by_cases queued : ∃ q, (s.thread t).lockp = .queue q
  · obtain ⟨q, lock⟩ := queued
    obtain ⟨s'', done', dequeued⟩ := dispdeq_good good lock
    obtain ⟨run, is_loaded, -⟩ := good.home t q lock
    rw [done] at done'
    cases done'
    rw [if_pos ⟨run, is_loaded⟩]
    exact dequeued.taken
  · obtain ⟨rfl, idle⟩ := dispdeq_off good (fun q lock => queued ⟨q, lock⟩) done
    rwa [if_neg idle]

theorem dispGetbest_good (good : Good s L) (q : QueueId) (c : ℕ) :
    (∃ s', dispGetbest s q c = some (none, s') ∧ Good s' L ∧
      ∀ i : ℕ, i = (s.disp q).maxUnboundPri → ∀ u ∈ L q i, (s.thread u).boundCpu ≠ none) ∨
    ∃ t s', dispGetbest s q c = some (some t, s') ∧ (s.thread t).lockp = .queue q ∧
      (s.thread t).boundCpu = none ∧
      Good s' (L.remove (s.thread t) t) := by
  rw [dispGetbest]
  rcases good.takeUnbound_good q with ⟨s', done, good', -, none_at, -⟩ | ⟨t, s', done, lock,
    free, dequeued⟩
  · rw [done]
    exact Or.inl ⟨s', rfl, good', none_at⟩
  · rw [done]
    have off : ∀ q, (s'.thread t).lockp ≠ .queue q := by
      rw [dequeued.thread_t]
      exact fun _ => nofun
    have link : (s'.thread t).link = none := by rw [dequeued.thread_t]
    have placed : ({ s'.thread t with
      state := .onproc, lockp := .other, dispQueue := .cpu c } : Thread).Placed :=
      fun run => nomatch run
    exact Or.inr ⟨t, _, rfl, lock, free,
      Good.change dequeued.taken off ⟨fun _ => nofun, link⟩ placed⟩

theorem exec_good (good : Good s L) (done : exec cfg s op = some (r, s')) :
    Good s' (L.after s s' op r) := by
  cases op with
  | setbackdq t choose =>
    rw [exec] at done
    split_ifs at done with off
    obtain ⟨s'', done, eq⟩ := map_eq_some_iff.1 done
    cases eq
    rw [Lists.after]
    cases is_loaded : (s.thread t).loaded with
    | true => exact (setbackdq_put good off is_loaded done).good
    | false =>
      rw [setbackdq_unloaded is_loaded] at done
      exact dispSwappedSetrun_good good off is_loaded done
  | setfrontdq t choose =>
    rw [exec] at done
    split_ifs at done with off
    obtain ⟨s'', done, eq⟩ := map_eq_some_iff.1 done
    cases eq
    rw [Lists.after]
    cases is_loaded : (s.thread t).loaded with
    | true => exact (setfrontdq_put good off is_loaded done).good
    | false =>
      rw [setfrontdq_unloaded is_loaded] at done
      exact dispSwappedSetrun_good good off is_loaded done
  | dispdeq t =>
    obtain ⟨⟨found, s''⟩, done', eq⟩ := map_eq_some_iff.1 done
    cases eq
    exact dispdeq_after good done'
  | disp c =>
    rw [exec] at done
    rcases disp_good good c with ⟨done', -⟩ | ⟨i, t, s'', done', -, -, taken⟩
    · rw [done] at done'
      cases done'
      exact good
    · rw [done] at done'
      cases done'
      exact taken
  | dispGetbest q c =>
    rw [exec] at done
    rcases dispGetbest_good good q c with ⟨s'', done', good', -⟩ | ⟨t, s'', done', -, -, good'⟩
    · rw [done] at done'
      cases done'
      exact good'
    · rw [done] at done'
      cases done'
      exact good'
  | takeUnbound c =>
    rw [exec] at done
    rcases good.takeUnbound_good (.cpu c) with
      ⟨s'', done', good', -⟩ | ⟨t, s'', done', -, -, dequeued⟩
    · rw [done] at done'
      cases done'
      exact good'
    · rw [done] at done'
      cases done'
      exact dequeued.taken
  | dispDqAssign q numpris =>
    obtain ⟨s'', done, eq⟩ := map_eq_some_iff.1 done
    cases eq
    exact dispDqAssign_good good done
  | change t th =>
    rw [exec] at done
    split_ifs at done with both
    cases done
    refine good.change both.1.1 both.2.1 fun run => ?_
    rcases both.2.2 run with eq | ⟨eq, unloaded⟩
    · rw [eq]
      exact ⟨nofun, nofun⟩
    · exact ⟨eq ▸ nofun, fun _ => unloaded⟩

theorem Run.good (run : Run cfg s L) : Good s L := by
  induction run with
  | start fresh => exact fresh.good
  | step run done ih => exact exec_good ih done

end Sol25.Disp
