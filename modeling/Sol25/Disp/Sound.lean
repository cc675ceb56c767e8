import Sol25.Disp.Run

/-!
# What the dispatch queues promise

In every run the queues hold what was put on them, and what the routines take off is what they
should take. `disp_cpu_inactive` comes to an end when the class finds other processors.
-/

namespace Sol25.Disp

open Option

variable {cfg : Config} {s s' : State} {L : Lists} {q : QueueId} {t u i c n m : ℕ} {choose : ℕ → ℕ}

/-! ### A processor becomes inactive -/

theorem backCpu_elsewhere {tpri choice : ℕ} (other : choice ≠ c)
    (next_other : cfg.nextOnln choice ≠ c) (good : Good s L)
    (levels : ∀ q, tpri < (s.disp q).npri) :
    ∃ c', backCpu cfg s tpri choice = some c' ∧ c' ≠ c := by
  obtain ⟨dq, at_choice⟩ := good.getElem?_lt (levels (.cpu choice))
  obtain ⟨np, at_next⟩ := good.getElem?_lt (levels (.cpu (cfg.nextOnln choice)))
  simp only [backCpu, at_choice, at_next, bind_eq_bind, bind_some]
  generalize (if cfg.qMatchPri ≤ tpri then (dq.sruncnt : ℤ) - 2 else dq.sruncnt) = qlen
  split_ifs
  · exact ⟨_, rfl, next_other⟩
  · exact ⟨_, rfl, other⟩
  · exact ⟨_, rfl, other⟩

/-- An unbound thread does not come back when the choice of its class is another processor. -/
theorem setbackdq_elsewhere {choice : ℕ} (good : Good s L) (off : (s.thread t).Off)
    (is_loaded : (s.thread t).loaded = true) (free : (s.thread t).boundCpu = none)
    (more : cfg.ncpus ≠ 1) (other : choice ≠ c) (next_other : cfg.nextOnln choice ≠ c)
    (levels : ∀ q, (s.thread t).pri < (s.disp q).npri) :
    ∃ s' q, setbackdq cfg s t choice = some s' ∧ q ≠ .cpu c ∧
      PutOn s s' L q t (L q (s.thread t).pri ++ [t]) := by
  rw [setbackdq, is_loaded]
  simp only [Bool.not_true, Bool.false_eq_true, if_false, if_neg more, free]
  by_cases high : cfg.kpreemptpri ≤ (s.thread t).pri
  · obtain ⟨dq, at_pri⟩ := good.getElem?_lt (levels .kp)
    obtain ⟨s', done, put⟩ := setkpdq_good good off is_loaded free at_pri true
    exact ⟨s', .kp, by rw [if_pos high, done], (by rintro ⟨⟩), put⟩
  · obtain ⟨c', chosen, ne⟩ := backCpu_elsewhere other next_other good levels
    obtain ⟨dq, at_pri⟩ := good.getElem?_lt (levels (.cpu c'))
    obtain ⟨s', done, put⟩ :=
      backdq_good good off is_loaded (fun kp : QueueId.cpu c' = .kp => by cases kp) at_pri
    refine ⟨s', .cpu c', ?_, fun eq => ne (QueueId.cpu.inj eq), put⟩
    rw [if_neg high, chosen]
    exact done

theorem dispCpuInactive_ends (more : cfg.ncpus ≠ 1)
    (elsewhere : ∀ t, choose t ≠ c ∧ cfg.nextOnln (choose t) ≠ c) (run : Run cfg s L)
    (levels : ∀ q, (s.disp (.cpu c)).npri ≤ (s.disp q).npri) :
    ∃ fuel s' L', dispCpuInactive cfg choose c fuel s = some s' ∧ Run cfg s' L' ∧
      ∀ i, ∀ u ∈ L' (.cpu c) i, (s'.thread u).boundCpu ≠ none := by
  -- Every round takes a thread off the queue, or lowers the bound and takes none.
  obtain ⟨n, count⟩ : ∃ n, (s.disp (.cpu c)).nrunnable = n := ⟨_, rfl⟩
  induction n using Nat.strong_induction_on generalizing s L with
  | _ n fewer =>
    obtain ⟨m, hint⟩ : ∃ m : ℕ, (s.disp (.cpu c)).maxUnboundPri < m :=
      ⟨((s.disp (.cpu c)).maxUnboundPri + 1).toNat, by omega⟩
    induction m generalizing s L with
    | zero =>
      have neg_one_le := (run.good.held (.cpu c)).neg_one_le
      have empty : (s.disp (.cpu c)).maxUnboundPri = -1 := by omega
      refine ⟨1, s, L, by rw [dispCpuInactive, if_pos empty], run, fun i u mem free => ?_⟩
      have le := (run.good.held (.cpu c)).unbound i u mem free
      omega
    | succ m lower =>
      by_cases empty : (s.disp (.cpu c)).maxUnboundPri = -1
      · refine ⟨1, s, L, by rw [dispCpuInactive, if_pos empty], run, fun i u mem free => ?_⟩
        have le := (run.good.held (.cpu c)).unbound i u mem free
        omega
      rcases run.good.takeUnbound_good (.cpu c) with
        ⟨s₁, taken, -, -, -, npri_eq, same, falls⟩ | ⟨t, s₁, taken, lock, free, dequeued⟩
      · have step₁ : exec cfg s (.takeUnbound c) = some (none, s₁) := taken
        have run₁ : Run cfg s₁ L := run.step step₁
        have falls' := falls.resolve_left empty
        obtain ⟨fuel, s', L', done, rest⟩ :=
          lower run₁ (fun q => by rw [npri_eq, npri_eq]; exact levels q)
          (same.trans count) (by omega)
        refine ⟨fuel + 1, s', L', ?_, rest⟩
        rw [dispCpuInactive, if_neg empty, taken]
        exact done
      · have step₁ : exec cfg s (.takeUnbound c) = some (some t, s₁) := taken
        have run₁ := run.step step₁
        obtain ⟨-, is_loaded, -⟩ := run.good.home t _ lock
        have mem : t ∈ L (.cpu c) (s.thread t).pri := (run.good.mem_iff _ _ t).2 ⟨lock, rfl⟩
        have pri_lt := run.good.lt_npri (List.ne_nil_of_mem mem)
        have off : (s₁.thread t).Off := by
          rw [dequeued.thread_t]
          exact ⟨fun _ => nofun, rfl⟩
        have same_pri : (s₁.thread t).pri = (s.thread t).pri := by rw [dequeued.thread_t]
        have is_loaded₁ : (s₁.thread t).loaded = true := by
          rw [dequeued.thread_t]
          exact is_loaded
        have free₁ : (s₁.thread t).boundCpu = none := by rw [dequeued.thread_t, free]
        have inside : ∀ q, (s₁.thread t).pri < (s₁.disp q).npri := fun q => by
          rw [same_pri, dequeued.npri_eq]
          exact pri_lt.trans_le (levels q)
        obtain ⟨s₂, q, done₂, ne, put⟩ := setbackdq_elsewhere run₁.good off is_loaded₁ free₁ more
          (elsewhere t).1 (elsewhere t).2 inside
        have step₂ : exec cfg s₁ (.setbackdq t (choose t)) = some (none, s₂) := by
          rw [exec, if_pos off, done₂]
          rfl
        have run₂ := run₁.step step₂
        have count₂ := dequeued.fewer
        have same₂ := put.disp_others (.cpu c) ne.symm
        obtain ⟨fuel, s', L', done, rest⟩ :=
          fewer (s₂.disp (.cpu c)).nrunnable (by rw [same₂]; omega) run₂
          (fun q => by
            rw [put.npri_eq, put.npri_eq, dequeued.npri_eq, dequeued.npri_eq]
            exact levels q)
          rfl
        refine ⟨fuel + 1, s', L', ?_, rest⟩
        rw [dispCpuInactive, if_neg empty, taken]
        simp only [bind_eq_bind, bind_some, done₂]
        exact done

/-! ### The queues -/

/-- In every run a loaded runnable thread that is not being moved is on exactly one list, the one of
its priority; the queues hold the lists; `disp` takes the first thread of the highest level;
`disp_getbest` finds nothing only where no unbound thread is at the level of the bound; and
`disp_cpu_inactive` ends with no unbound thread left. -/
theorem dispatch_queues_sound (run : Run cfg s L) :
    (∀ t, (s.thread t).state = .run → (s.thread t).loaded = true →
      (s.thread t).lockp ≠ .transition →
      ∃ q, ∀ q' i, t ∈ L q' i ↔ q' = q ∧ i = (s.thread t).pri) ∧
    (∀ q i, (L q i).Nodup) ∧
    (∀ q, Held s.thread (s.disp q) (L q)) ∧
    (∀ c, (disp s c = some (none, s) ∧ ∀ i, L (.cpu c) i = []) ∨
      ∃ i t s', disp s c = some (some t, s') ∧ (L (.cpu c) i).head? = some t ∧ ∀ j, i < j →
        L (.cpu c) j = []) ∧
    (∀ q c, ∃ r s', dispGetbest s q c = some (r, s') ∧
      (r = none → ∀ i : ℕ, i = (s.disp q).maxUnboundPri →
      ∀ u ∈ L q i, (s.thread u).boundCpu ≠ none)) ∧
    (∀ c choose, cfg.ncpus ≠ 1 → (∀ t, choose t ≠ c ∧ cfg.nextOnln (choose t) ≠ c) →
      (∀ q, (s.disp (.cpu c)).npri ≤ (s.disp q).npri) →
      ∃ fuel s' L', dispCpuInactive cfg choose c fuel s = some s' ∧ Run cfg s' L' ∧
        ∀ i, ∀ u ∈ L' (.cpu c) i, (s'.thread u).boundCpu ≠ none) := by
  have good := run.good
  refine ⟨fun t running is_loaded still => ?_, good.nodup, good.held, fun c => ?_, fun q c => ?_,
    fun c choose more elsewhere levels => dispCpuInactive_ends more elsewhere run levels⟩
  · obtain ⟨not_other, swapped⟩ := good.placed t running
    cases lock : (s.thread t).lockp with
    | queue q =>
      refine ⟨q, fun q' i => ?_⟩
      rw [good.mem_iff, lock, LockRef.queue.injEq]
      exact and_congr eq_comm eq_comm
    | transition => exact absurd lock still
    | swapped => exact absurd (swapped lock) (by simp [is_loaded])
    | other => exact absurd lock not_other
  · rcases disp_good good c with empty | ⟨i, t, s', done, first, above, -⟩
    · exact Or.inl empty
    · exact Or.inr ⟨i, t, s', done, first, above⟩
  · rcases dispGetbest_good good q c with ⟨s', done, -, none_at⟩ | ⟨t, s', done, -⟩
    · exact ⟨none, s', done, fun _ => none_at⟩
    · exact ⟨some t, s', done, nofun⟩

/-- Two processors, three levels, and threads that sleep. -/
def smallConfig : Config := ⟨2, 100, 0, fun c => 1 - c⟩

def smallState : State where
  thread _ := ⟨.sleep, .other, .cpu 0, none, none, 0, 1, true, false⟩
  disp _ := ⟨3, List.replicate 3 ⟨none, none, 0⟩, List.replicate (3 / 32 + 1) 0, -1, -1, 0⟩

theorem smallState_fresh : Fresh smallState :=
  ⟨fun _ => rfl, fun _ => ⟨⟨fun _ => nofun, rfl⟩, fun run => nomatch run⟩⟩

def wokenState : State := ((setbackdq smallConfig smallState 7 1).getD smallState)

def wokenTwo : State := ((setbackdq smallConfig wokenState 9 1).getD wokenState)

/-- Of two threads of one priority the one that was woken first is taken. -/
theorem dispatch_queues_sound_woken : ∃ L s', Run smallConfig wokenTwo L ∧
    disp wokenTwo 1 = some (some 7, s') ∧
    ∃ i, (L (.cpu 1) i).head? = some 7 ∧ ∀ j, i < j → L (.cpu 1) j = [] := by
  have first : exec smallConfig smallState (.setbackdq 7 1) = some (none, wokenState) := rfl
  have second : exec smallConfig wokenState (.setbackdq 9 1) = some (none, wokenTwo) := rfl
  have run := Run.step (.step (.start smallState_fresh) first) second
  have found : (disp wokenTwo 1).map Prod.fst = some (some 7) := rfl
  rcases (dispatch_queues_sound run).2.2.2.1 1 with ⟨nothing, -⟩ | ⟨i, t, s', done, head, above⟩
  · rw [nothing] at found
    cases found
  · rw [done] at found
    cases found
    exact ⟨_, s', run, done, i, head, above⟩

end Sol25.Disp
