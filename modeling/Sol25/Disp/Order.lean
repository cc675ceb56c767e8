import Sol25.Disp.Queue

/-!
# Threads on queues

Which thread is on which list, and how the lists change when a thread is put at an end of one or
taken out.
-/

namespace Sol25.Disp

open Function

/-- The threads of each queue at each level, in order. -/
abbrev Lists := QueueId → ℕ → List ℕ

/-- One list is replaced. -/
def Lists.put (L : Lists) (q : QueueId) (i : ℕ) (l : List ℕ) : Lists :=
  update L q (update (L q) i l)

variable {s s' : State} {L : Lists} {q : QueueId} {t u i tpri : ℕ} {l' : List ℕ} {dp' : DispT}
  {dq dq' : Dispq}
  {link : Option ℕ} {th : Thread}

theorem Lists.put_self : L.put q i l' q = update (L q) i l' := update_self ..

variable {q' : QueueId} {th th' : Thread}

theorem Lists.put_ne (ne : q' ≠ q) : L.put q i l' q' = L q' := update_of_ne ne ..

theorem Lists.mem_put {j : ℕ} : u ∈ L.put q i l' q' j ↔
    if q' = q ∧ j = i then u ∈ l' else u ∈ L q' j := by
  by_cases eq : q' = q
  · subst eq
    rw [put_self]
    by_cases eq_i : j = i
    · subst eq_i
      rw [update_self, if_pos ⟨rfl, rfl⟩]
    · rw [update_of_ne eq_i, if_neg fun both => eq_i both.2]
  · rw [put_ne eq, if_neg fun both => eq both.1]

/-- A runnable thread is on a queue, in transition or swapped. -/
def Thread.Placed (th : Thread) : Prop :=
  th.state = .run → th.lockp ≠ .other ∧ (th.lockp = .swapped → th.loaded = false)

/-- The queues hold the lists, and a thread is on the one list that its lock and its priority
say. -/
structure Good (s : State) (L : Lists) : Prop where
  held : ∀ q, Held s.thread (s.disp q) (L q)
  nodup : ∀ q i, (L q i).Nodup
  mem_iff : ∀ q i t, t ∈ L q i ↔ (s.thread t).lockp = .queue q ∧ (s.thread t).pri = i
  home : ∀ t q, (s.thread t).lockp = .queue q → (s.thread t).state = .run ∧
    (s.thread t).loaded = true ∧
    (s.thread t).dispQueue = q ∧ (q = .kp → (s.thread t).boundCpu = none)
  off : ∀ t, (∀ q, (s.thread t).lockp ≠ .queue q) → (s.thread t).link = none
  placed : ∀ t, (s.thread t).Placed

/-- Only links differ. -/
def SameButLink (th th' : Thread) : Prop := ∃ link, th' = { th with link := link }

theorem SameButLink.refl (th : Thread) : SameButLink th th := ⟨th.link, rfl⟩

theorem SameButLink.lockp (same : SameButLink th th') : th'.lockp = th.lockp := by
  obtain ⟨link, rfl⟩ := same
  rfl

theorem SameButLink.pri (same : SameButLink th th') : th'.pri = th.pri := by
  obtain ⟨link, rfl⟩ := same
  rfl

theorem SameButLink.boundCpu (same : SameButLink th th') : th'.boundCpu = th.boundCpu := by
  obtain ⟨link, rfl⟩ := same
  rfl

namespace Good

variable (good : Good s L)
include good

theorem notMem_of_off (off : ∀ q, (s.thread t).lockp ≠ .queue q) (q : QueueId) (i : ℕ) :
    t ∉ L q i :=
  fun mem => off q ((good.mem_iff q i t).1 mem).1

theorem list_unique {j : ℕ} (mem : u ∈ L q i) (mem' : u ∈ L q' j) : q' = q ∧ j = i := by
  obtain ⟨lock, pri⟩ := (good.mem_iff q i u).1 mem
  obtain ⟨lock', pri'⟩ := (good.mem_iff q' j u).1 mem'
  exact ⟨LockRef.queue.inj (lock'.symm.trans lock), pri'.symm.trans pri⟩

theorem held_other (ne : q' ≠ q) (disp_eq : s'.disp q' = s.disp q')
    (same : ∀ u, u ≠ t → SameButLink (s.thread u) (s'.thread u))
    (links : ∀ u, u ≠ t → u ∉ L q tpri → (s'.thread u).link = (s.thread u).link)
    (t_notMem : ∀ i, t ∉ L q' i) :
    Held s'.thread (s'.disp q') (L q') := by
  rw [disp_eq]
  refine (good.held q').congr fun i u mem => ?_
  have u_ne : u ≠ t := fun eq => t_notMem i (eq ▸ mem)
  exact ⟨links u u_ne fun mem' => ne (good.list_unique mem' mem).1, (same u u_ne).boundCpu⟩

/-- A thread comes onto a list. -/
theorem put_on (off : (s.thread t).Off) (is_loaded : (s.thread t).loaded = true)
    (unbound : q = .kp → (s.thread t).boundCpu = none)
    (at_tpri : (s.disp q).q[(s.thread t).pri]? = some dq)
    (disp_eq : s'.disp = update s.disp q dp')
    (put : Put (s.disp q) dp' (s.thread t).pri (s.thread t).boundCpu dq')
    (level : Level s'.thread dq' l') (members : ∀ u, u ∈ l' ↔ u = t ∨ u ∈ L q (s.thread t).pri)
    (longer : l'.length = (L q (s.thread t).pri).length + 1) (distinct : l'.Nodup)
    (thread_t : s'.thread t = (s.thread t).running q link)
    (same : ∀ u, u ≠ t → SameButLink (s.thread u) (s'.thread u))
    (links : ∀ u, u ≠ t → u ∉ L q (s.thread t).pri → (s'.thread u).link = (s.thread u).link) :
    Good s' (L.put q (s.thread t).pri l') := by
  have lt := (good.held q).getElem? at_tpri
  have t_notMem := good.notMem_of_off off.1
  have disp_q : s'.disp q = dp' := by rw [disp_eq, update_self]
  refine ⟨fun q' => ?_, fun q' i => ?_, fun q' i u => ?_, fun u q' lock => ?_, fun u u_off => ?_,
    fun u => ?_⟩
  · by_cases eq : q' = q
    · subst eq
      rw [Lists.put_self, disp_q]
      refine (good.held q').put put lt level members longer (fun i ne u mem => ?_)
        (fun i u mem => ?_) ?_
      · exact links u (fun eq => t_notMem q' i (eq ▸ mem)) fun mem' =>
          ne (good.list_unique mem' mem).2
      · exact (same u fun eq => t_notMem q' i (eq ▸ mem)).boundCpu
      · rw [thread_t]
        rfl
    · rw [Lists.put_ne eq]
      exact good.held_other eq (by rw [disp_eq, update_of_ne eq]) same links (t_notMem q')
  · by_cases eq : q' = q
    · subst eq
      rw [Lists.put_self]
      by_cases eq_i : i = (s.thread t).pri
      · subst eq_i
        rwa [update_self]
      · rw [update_of_ne eq_i]
        exact good.nodup q' i
    · rw [Lists.put_ne eq]
      exact good.nodup q' i
  · rw [Lists.mem_put]
    by_cases eq : u = t
    · subst eq
      rw [thread_t]
      change _ ↔ LockRef.queue q = LockRef.queue q' ∧ (s.thread u).pri = i
      rw [LockRef.queue.injEq]
      split_ifs with here
      · exact iff_of_true ((members u).2 (Or.inl rfl)) ⟨here.1.symm, here.2.symm⟩
      · exact iff_of_false (t_notMem q' i) fun both => here ⟨both.1.symm, both.2.symm⟩
    · rw [(same u eq).lockp, (same u eq).pri, ← good.mem_iff]
      split_ifs with here
      · rw [members, here.1, here.2]
        simp [eq]
      · rfl
  · by_cases eq : u = t
    · subst eq
      rw [thread_t] at lock ⊢
      obtain rfl : q = q' := LockRef.queue.inj lock
      exact ⟨rfl, is_loaded, rfl, unbound⟩
    · have lock' := (same u eq).lockp.symm.trans lock
      obtain ⟨link', eq'⟩ := same u eq
      rw [eq']
      exact good.home u q' lock'
  · by_cases eq : u = t
    · subst eq
      rw [thread_t] at u_off
      exact absurd rfl (u_off q)
    · have u_off' : ∀ q, (s.thread u).lockp ≠ .queue q := fun q => (same u eq).lockp ▸ u_off q
      rw [links u eq (good.notMem_of_off u_off' q _)]
      exact good.off u u_off'
  · by_cases eq : u = t
    · subst eq
      rw [thread_t]
      exact fun _ => ⟨nofun, nofun⟩
    · obtain ⟨link', eq'⟩ := same u eq
      rw [eq']
      exact good.placed u

/-- A thread comes off its list. -/
theorem taken_off (mem : t ∈ L q tpri) (at_tpri : (s.disp q).q[tpri]? = some dq)
    (disp_eq : s'.disp = update s.disp q dp') (taken : Taken (s.disp q) dp' tpri dq')
    (level : Level s'.thread dq' l') (members : ∀ u, u ∈ l' ↔ u ≠ t ∧ u ∈ L q tpri)
    (shorter : (L q tpri).length = l'.length + 1) (distinct : l'.Nodup)
    (thread_t : s'.thread t = th) (th_off : th.Off) (th_placed : th.Placed)
    (same : ∀ u, u ≠ t → SameButLink (s.thread u) (s'.thread u))
    (links : ∀ u, u ≠ t → u ∉ L q tpri → (s'.thread u).link = (s.thread u).link) :
    Good s' (L.put q tpri l') := by
  have lt := (good.held q).getElem? at_tpri
  have disp_q : s'.disp q = dp' := by rw [disp_eq, update_self]
  have elsewhere : ∀ q' i, ¬ (q' = q ∧ i = tpri) → t ∉ L q' i :=
    fun q' i ne mem' => ne (good.list_unique mem mem')
  refine ⟨fun q' => ?_, fun q' i => ?_, fun q' i u => ?_, fun u q' lock => ?_, fun u u_off => ?_,
    fun u => ?_⟩
  · by_cases eq : q' = q
    · subst eq
      rw [Lists.put_self, disp_q]
      refine (good.held q').taken taken lt level (fun u mem_u => ((members u).1 mem_u).2) shorter
        (fun i ne u mem_u => ?_) fun i u mem_u => ?_
      · exact links u (fun eq => elsewhere q' i (fun both => ne both.2) (eq ▸ mem_u)) fun mem' =>
          ne (good.list_unique mem' mem_u).2
      · refine (same u ?_).boundCpu
        rintro rfl
        by_cases eq_i : i = tpri
        · subst eq_i
          rw [update_self] at mem_u
          exact ((members u).1 mem_u).1 rfl
        · rw [update_of_ne eq_i] at mem_u
          exact elsewhere q' i (fun both => eq_i both.2) mem_u
    · rw [Lists.put_ne eq]
      exact good.held_other eq (by rw [disp_eq, update_of_ne eq]) same links fun i =>
        elsewhere q' i fun both => eq both.1
  · by_cases eq : q' = q
    · subst eq
      rw [Lists.put_self]
      by_cases eq_i : i = tpri
      · subst eq_i
        rwa [update_self]
      · rw [update_of_ne eq_i]
        exact good.nodup q' i
    · rw [Lists.put_ne eq]
      exact good.nodup q' i
  · rw [Lists.mem_put]
    by_cases eq : u = t
    · subst eq
      have not_queue : ¬ ((s'.thread u).lockp = .queue q' ∧ (s'.thread u).pri = i) := by
        rw [thread_t]
        exact fun both => th_off.1 q' both.1
      split_ifs with here
      · exact iff_of_false (fun mem_u => ((members u).1 mem_u).1 rfl) not_queue
      · exact iff_of_false (elsewhere q' i here) not_queue
    · rw [(same u eq).lockp, (same u eq).pri, ← good.mem_iff]
      split_ifs with here
      · rw [members, here.1, here.2]
        simp [eq]
      · rfl
  · by_cases eq : u = t
    · subst eq
      rw [thread_t] at lock
      exact absurd lock (th_off.1 q')
    · have lock' := (same u eq).lockp.symm.trans lock
      obtain ⟨link', eq'⟩ := same u eq
      rw [eq']
      exact good.home u q' lock'
  · by_cases eq : u = t
    · subst eq
      rw [thread_t]
      exact th_off.2
    · have u_off' : ∀ q, (s.thread u).lockp ≠ .queue q := fun q => (same u eq).lockp ▸ u_off q
      rw [links u eq (good.notMem_of_off u_off' q _)]
      exact good.off u u_off'
  · by_cases eq : u = t
    · subst eq
      rwa [thread_t]
    · obtain ⟨link', eq'⟩ := same u eq
      rw [eq']
      exact good.placed u

end Good

end Sol25.Disp
