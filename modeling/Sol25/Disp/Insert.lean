import Sol25.Disp.Order

/-!
# Threads put on queues

`setbackdq`, `setfrontdq` and `setkpdq` make a list longer at one end.
-/

namespace Sol25.Disp

open Function List Option

variable {s s' : State} {L : Lists} {q : QueueId} {t u i choose c : ℕ} {l a b : List ℕ}
  {l' : ℕ → List ℕ} {dp : DispT} {dq : Dispq}
  {thread thread' : ℕ → Thread} {cfg : Config}

/-! ### Lists and links -/

theorem Level.first_eq (level : Level thread dq l) : dq.first = l.head? := level.links.start_eq

theorem Level.eq_nil (level : Level thread dq l) (empty : dq.sruncnt = 0) : l = [] :=
  eq_nil_of_length_eq_zero (level.sruncnt_eq ▸ empty)

theorem Level.single (link : (thread' t).link = none) : Level thread' ⟨some t, some t, 0 + 1⟩ [t] :=
  ⟨⟨rfl, link⟩, rfl, rfl⟩

theorem Level.back (level : Level thread dq l) (outside : t ∉ l) (distinct : l.Nodup)
    (last : dq.last = some u) (link_t : (thread' t).link = none)
    (link_u : (thread' u).link = some t)
    (others : ∀ v ∈ l, v ≠ u → (thread' v).link = (thread v).link) :
    Level thread' ⟨dq.first, some t, dq.sruncnt + 1⟩ (l ++ [t]) := by
  have last_eq := level.last_eq.symm.trans last
  obtain ⟨front, rfl⟩ : ∃ front, l = front ++ [u] := by
    rw [getLast?_eq_some_iff] at last_eq
    exact last_eq
  have u_notMem : u ∉ front := by
    rw [nodup_append] at distinct
    exact fun mem => distinct.2.2 u mem u mem_cons_self rfl
  refine ⟨?_, getLast?_concat.symm, ?_⟩
  · have redirected := level.links.redirect u_notMem (r := some t)
    have here : Links (fun v => (thread' v).link) dq.first (front ++ [u]) (some t) := by
      refine redirected.congr fun v mem => ?_
      by_cases eq : v = u
      · subst eq
        rw [link_u, update_self]
      · rw [others v mem eq, update_of_ne eq]
    exact here.append ⟨rfl, link_t⟩
  · rw [length_append, ← level.sruncnt_eq]
    rfl

theorem Level.front (level : Level thread dq l) (some_at : l ≠ [])
    (link_t : (thread' t).link = dq.first) (others : ∀ v ∈ l, (thread' v).link = (thread v).link) :
    Level thread' ⟨some t, dq.last, dq.sruncnt + 1⟩ (t :: l) := by
  refine ⟨⟨rfl, ?_⟩, ?_, ?_⟩
  · change Links _ (thread' t).link l none
    rw [link_t]
    exact level.links.congr others
  · change dq.last = _
    rw [level.last_eq, getLast?_cons_of_ne_nil some_at]
  · rw [length_cons, ← level.sruncnt_eq]

/-! ### The summary of a queue -/

theorem max_eq_ite {a : ℤ} {n : ℕ} : (if a < n then (n : ℤ) else a) = max a n := by
  split_ifs <;> omega

theorem Held.put_more (held : Held thread dp l') (some_at : l' i ≠ []) (dq' : Dispq) (unbound : ℤ)
    (bound : Option ℕ) (enough : bound = none → (i : ℤ) ≤ unbound)
    (mono : dp.maxUnboundPri ≤ unbound) (unbound_le : unbound ≤ max dp.maxUnboundPri i) :
    Put dp { dp with
        nrunnable := dp.nrunnable + 1, q := dp.q.set i dq',
        maxUnboundPri := unbound } i bound dq' := by
  refine ⟨rfl, rfl, rfl, fun j => ?_, rfl, ?_, enough, mono, unbound_le⟩
  · by_cases eq : j = i
    · subst eq
      rw [decide_eq_true rfl, Bool.true_or, (held.active j).2 some_at]
    · rw [decide_eq_false eq, Bool.false_or]
  · have le := held.maxrunpri.le some_at
    exact (max_eq_left le).symm

theorem Held.put_first (held : Held thread dp l') (lt : i < dp.npri) (dq' : Dispq) (unbound : ℤ)
    (bound : Option ℕ) (enough : bound = none → (i : ℤ) ≤ unbound)
    (mono : dp.maxUnboundPri ≤ unbound) (unbound_le : unbound ≤ max dp.maxUnboundPri i) :
    Put dp { dp with
      nrunnable := dp.nrunnable + 1
      q := dp.q.set i dq'
      qactmap := btSet dp.qactmap i
      maxrunpri := if dp.maxrunpri < i then i else dp.maxrunpri
      maxUnboundPri := unbound } i bound dq' :=
  ⟨rfl, rfl, length_btSet _ _, held.bitAt_btSet lt, rfl, max_eq_ite, enough, mono, unbound_le⟩

/-! ### The three routines -/

/-- What comes of putting a thread on a queue: its list gets one longer, at an end. -/
structure PutOn (s s' : State) (L : Lists) (q : QueueId) (t : ℕ) (l : List ℕ) : Prop where
  good : Good s' (L.put q (s.thread t).pri l)
  home : (s'.thread t).dispQueue = q
  npri_eq : ∀ q', (s'.disp q').npri = (s.disp q').npri
  disp_others : ∀ q', q' ≠ q → s'.disp q' = s.disp q'

theorem PutOn.named {l : QueueId → List ℕ} (put : PutOn s s' L q t (l q)) :
    PutOn s s' L (s'.thread t).dispQueue t (l (s'.thread t).dispQueue) := by
  rw [put.home]
  exact put

theorem npri_update (disp_eq : s'.disp = update s.disp q dp)
    (npri_eq : dp.npri = (s.disp q).npri) (q' : QueueId) :
    (s'.disp q').npri = (s.disp q').npri := by
  rw [disp_eq]
  by_cases eq : q' = q
  · subst eq
    rw [update_self, npri_eq]
  · rw [update_of_ne eq]

theorem setThread_thread (s : State) (t : ℕ) (th : Thread) (u : ℕ) :
    (s.setThread t th).thread u = if u = t then th else s.thread u := by
  rw [State.setThread]
  exact update_apply ..

theorem State.setDisp_thread (s : State) (q : QueueId) (dp : DispT) :
    (s.setDisp q dp).thread = s.thread :=
  rfl

section

variable (good : Good s L) (off : (s.thread t).Off) (is_loaded : (s.thread t).loaded = true)
  (unbound : q = .kp → (s.thread t).boundCpu = none)
  (at_pri : (s.disp q).q[(s.thread t).pri]? = some dq)

include good off is_loaded unbound at_pri

/-- The state after a thread has been linked behind the last one. -/
theorem Good.put_last (last : dq.last = some u)
    (put : Put (s.disp q) dp (s.thread t).pri (s.thread t).boundCpu
      ⟨dq.first, some t, dq.sruncnt + 1⟩) :
    PutOn s (((s.setThread t ((s.thread t).running q none)).setThread u
      { (s.setThread t ((s.thread t).running q none)).thread u with link := some t }).setDisp q dp)
        L q t
      (L q (s.thread t).pri ++ [t]) := by
  have outside := good.notMem_of_off off.1 q (s.thread t).pri
  have level := (good.held q).level _ dq at_pri
  have u_mem : u ∈ L q (s.thread t).pri := mem_of_getLast? (level.last_eq.symm.trans last)
  have u_ne : u ≠ t := fun eq => outside (eq ▸ u_mem)
  have distinct := good.nodup q (s.thread t).pri
  have at_u : (s.setThread t ((s.thread t).running q none)).thread u = s.thread u := by
    rw [setThread_thread, if_neg u_ne]
  have threads : ∀ v, (((s.setThread t ((s.thread t).running q none)).setThread u
      { (s.setThread t ((s.thread t).running q none)).thread u with link := some t }).setDisp q
        dp).thread v =
      if v = u then { s.thread u with link := some t }
      else if v = t then (s.thread t).running q none else s.thread v := fun v => by
    rw [State.setDisp_thread, setThread_thread, at_u, setThread_thread]
  have thread_t := threads t
  rw [if_neg u_ne.symm, if_pos rfl] at thread_t
  refine ⟨good.put_on off is_loaded unbound at_pri rfl put ?_ (fun v => ?_) ?_ ?_ thread_t
    (fun v ne => ?_)
    fun v ne notMem => ?_, ?_, npri_update rfl put.npri_eq, fun q' ne => update_of_ne ne ..⟩
  · refine level.back outside distinct last ?_ ?_ fun v mem ne => ?_
    · rw [thread_t]
      rfl
    · rw [threads, if_pos rfl]
    · rw [threads, if_neg ne, if_neg fun eq : v = t => outside (eq ▸ mem)]
  · rw [mem_append, mem_singleton, or_comm]
  · rw [length_append]
    rfl
  · exact distinct.append (nodup_singleton t) (disjoint_singleton.2 outside)
  · rw [threads, if_neg ne]
    split_ifs with eq
    · subst eq
      exact ⟨_, rfl⟩
    · exact .refl _
  · rw [threads, if_neg ne, if_neg]
    exact fun eq => notMem (eq ▸ u_mem)
  · rw [thread_t]
    rfl

/-- The state after a thread has been linked in front of the others. -/
theorem Good.put_head (some_at : L q (s.thread t).pri ≠ [])
    (put : Put (s.disp q) dp (s.thread t).pri (s.thread t).boundCpu
      ⟨some t, dq.last, dq.sruncnt + 1⟩) :
    PutOn s ((s.setThread t ((s.thread t).running q dq.first)).setDisp q dp) L q t
      (t :: L q (s.thread t).pri) := by
  have outside := good.notMem_of_off off.1 q (s.thread t).pri
  have level := (good.held q).level _ dq at_pri
  have threads : ∀ v, ((s.setThread t ((s.thread t).running q dq.first)).setDisp q dp).thread v =
      if v = t then (s.thread t).running q dq.first else s.thread v := fun v => by
    rw [State.setDisp_thread, setThread_thread]
  have thread_t := threads t
  rw [if_pos rfl] at thread_t
  refine ⟨good.put_on off is_loaded unbound at_pri rfl put ?_ (fun v => mem_cons) rfl
    (nodup_cons.2 ⟨outside, good.nodup q _⟩) thread_t
      (fun v ne => ?_) fun v ne notMem => ?_, ?_,
    npri_update rfl put.npri_eq, fun q' ne => update_of_ne ne ..⟩
  · refine level.front some_at ?_ fun v mem => ?_
    · rw [thread_t]
      rfl
    · rw [threads, if_neg fun eq : v = t => outside (eq ▸ mem)]
  · rw [threads, if_neg ne]
    exact .refl _
  · rw [threads, if_neg ne]
  · rw [thread_t]
    rfl

/-- The state after a thread has been put on an empty level. -/
theorem Good.put_only (empty : L q (s.thread t).pri = [])
    (put : Put (s.disp q) dp (s.thread t).pri (s.thread t).boundCpu ⟨some t, some t, 0 + 1⟩) :
    PutOn s ((s.setThread t ((s.thread t).running q none)).setDisp q dp) L q t [t] := by
  have threads : ∀ v, ((s.setThread t ((s.thread t).running q none)).setDisp q dp).thread v =
      if v = t then (s.thread t).running q none else s.thread v := fun v => by
    rw [State.setDisp_thread, setThread_thread]
  have thread_t := threads t
  rw [if_pos rfl] at thread_t
  refine ⟨good.put_on off is_loaded unbound at_pri rfl put (.single ?_) (fun v => ?_) ?_
    (nodup_singleton t) thread_t (fun v ne => ?_) fun v ne notMem => ?_, ?_,
    npri_update rfl put.npri_eq, fun q' ne => update_of_ne ne ..⟩
  · rw [thread_t]
    rfl
  · rw [empty, mem_singleton]
    simp
  · rw [empty]
    rfl
  · rw [threads, if_neg ne]
    exact .refl _
  · rw [threads, if_neg ne]
  · rw [thread_t]
    rfl

theorem backdq_good :
    ∃ s', backdq s t q = some s' ∧ PutOn s s' L q t (L q (s.thread t).pri ++ [t]) := by
  have held := good.held q
  have level := held.level _ dq at_pri
  have lt := held.getElem? at_pri
  rw [backdq, at_pri]
  simp only [bind_eq_bind, bind_some]
  have raised : ∀ b : Option ℕ, (b = none → ((s.thread t).pri : ℤ) ≤
      if (s.disp q).maxUnboundPri < (s.thread t).pri then ((s.thread t).pri : ℤ) else
        (s.disp q).maxUnboundPri) ∧
      (s.disp q).maxUnboundPri ≤
        (if (s.disp q).maxUnboundPri < (s.thread t).pri then ((s.thread t).pri : ℤ) else
          (s.disp q).maxUnboundPri) ∧
      (if (s.disp q).maxUnboundPri < (s.thread t).pri then ((s.thread t).pri : ℤ) else
        (s.disp q).maxUnboundPri) ≤
        max (s.disp q).maxUnboundPri (s.thread t).pri := fun b => by
    rw [max_eq_ite]
    exact ⟨fun _ => le_max_right _ _, le_max_left _ _, le_rfl⟩
  by_cases more : dq.sruncnt ≠ 0
  · rw [if_pos more]
    have some_at : L q (s.thread t).pri ≠ [] :=
      fun empty => more (by rw [level.sruncnt_eq, empty]; rfl)
    obtain ⟨u, last⟩ : ∃ u, dq.last = some u := by
      rw [level.last_eq]
      exact ⟨_, getLast?_eq_some_getLast some_at⟩
    rw [last]
    obtain ⟨enough, mono, le⟩ := raised (s.thread t).boundCpu
    exact ⟨_, rfl, good.put_last off is_loaded unbound at_pri last
      (held.put_more some_at _ _ _ enough mono le)⟩
  · rw [if_neg more]
    have none_left := not_not.1 more
    have empty := level.eq_nil none_left
    obtain ⟨enough, mono, le⟩ := raised (s.thread t).boundCpu
    rw [none_left, empty]
    exact ⟨_, rfl, good.put_only off is_loaded unbound at_pri empty
      (held.put_first lt _ _ _ enough mono le)⟩

theorem frontdq_good :
    ∃ s', frontdq s t q = some s' ∧ PutOn s s' L q t (t :: L q (s.thread t).pri) := by
  have held := good.held q
  have level := held.level _ dq at_pri
  have lt := held.getElem? at_pri
  rw [frontdq, at_pri]
  simp only [bind_eq_bind, bind_some]
  have raised : ∀ m : ℤ,
    (m = if (s.thread t).boundCpu = none ∧ (s.disp q).maxUnboundPri < (s.thread t).pri then
      ((s.thread t).pri : ℤ) else (s.disp q).maxUnboundPri) → ((s.thread t).boundCpu = none →
        ((s.thread t).pri : ℤ) ≤ m) ∧ (s.disp q).maxUnboundPri ≤ m ∧
      m ≤ max (s.disp q).maxUnboundPri (s.thread t).pri := by
    rintro m rfl
    split_ifs with higher
    · exact ⟨fun _ => le_rfl, higher.2.le, le_max_right _ _⟩
    · exact ⟨fun free => not_lt.1 fun lower => higher ⟨free, lower⟩, le_rfl, le_max_left _ _⟩
  obtain ⟨enough, mono, le⟩ := raised _ rfl
  by_cases more : dq.sruncnt ≠ 0
  · rw [if_pos more]
    have some_at : L q (s.thread t).pri ≠ [] :=
      fun empty => more (by rw [level.sruncnt_eq, empty]; rfl)
    exact ⟨_, rfl, good.put_head off is_loaded unbound at_pri some_at
      (held.put_more some_at _ _ _ enough mono le)⟩
  · rw [if_neg more]
    have none_left := not_not.1 more
    have empty := level.eq_nil none_left
    rw [none_left, empty]
    exact ⟨_, rfl, good.put_only off is_loaded unbound at_pri empty
      (held.put_first lt _ _ _ enough mono le)⟩

end

/-- Every thread on `disp_kp_queue` is unbound, so that a level with threads is not above the
highest unbound one. -/
theorem Good.kp_unbound (good : Good s L) (some_at : L .kp i ≠ []) :
    (i : ℤ) ≤ (s.disp .kp).maxUnboundPri := by
  obtain ⟨u, mem⟩ := exists_mem_of_ne_nil _ some_at
  exact (good.held .kp).unbound i u mem
    ((good.home u .kp ((good.mem_iff .kp i u).1 mem).1).2.2.2 rfl)

theorem setkpdq_good (good : Good s L) (off : (s.thread t).Off)
    (is_loaded : (s.thread t).loaded = true) (unbound : (s.thread t).boundCpu = none)
    (at_pri : (s.disp .kp).q[(s.thread t).pri]? = some dq) (back : Bool) :
    ∃ s', setkpdq s t back = some s' ∧ PutOn s s' L .kp t
      (if back then L .kp (s.thread t).pri ++ [t] else t :: L .kp (s.thread t).pri) := by
  have held := good.held .kp
  have level := held.level _ dq at_pri
  have lt := held.getElem? at_pri
  rw [setkpdq, at_pri]
  simp only [bind_eq_bind, bind_some]
  by_cases more : dq.sruncnt ≠ 0
  · rw [if_pos more]
    have some_at : L .kp (s.thread t).pri ≠ [] :=
      fun empty => more (by rw [level.sruncnt_eq, empty]; rfl)
    have put := fun dq' =>
      held.put_more some_at dq' (s.disp .kp).maxUnboundPri (s.thread t).boundCpu
      (fun _ => good.kp_unbound some_at) le_rfl (le_max_left _ _)
    cases back with
    | true =>
      obtain ⟨u, last⟩ : ∃ u, dq.last = some u := by
        rw [level.last_eq]
        exact ⟨_, getLast?_eq_some_getLast some_at⟩
      rw [if_pos rfl, if_pos rfl, last]
      exact ⟨_, rfl, good.put_last off is_loaded (fun _ => unbound) at_pri last (put _)⟩
    | false =>
      rw [if_neg Bool.false_ne_true, if_neg Bool.false_ne_true]
      exact ⟨_, rfl, good.put_head off is_loaded (fun _ => unbound) at_pri some_at (put _)⟩
  · rw [if_neg more]
    have none_left := not_not.1 more
    have empty := level.eq_nil none_left
    have put := held.put_first lt ⟨some t, some t, 0 + 1⟩
      (if (s.disp .kp).maxUnboundPri < (s.thread t).pri then ((s.thread t).pri : ℤ) else
        (s.disp .kp).maxUnboundPri)
      (s.thread t).boundCpu (fun _ => by rw [max_eq_ite]; exact le_max_right _ _)
      (by rw [max_eq_ite]; exact le_max_left _ _) max_eq_ite.le
    have clear : (if back then (s.thread t).link else none) = none := by
      rw [off.2]
      exact ite_self _
    have list_eq : (if back then L .kp (s.thread t).pri ++ [t] else t :: L .kp (s.thread t).pri) =
        [t] := by
      rw [empty]
      exact ite_self _
    rw [none_left, clear, list_eq]
    exact ⟨_, rfl, good.put_only off is_loaded (fun _ => unbound) at_pri empty put⟩

/-- A thread that changes off the queues. -/
theorem Good.change {th : Thread} (good : Good s L) (off : ∀ q, (s.thread t).lockp ≠ .queue q)
    (th_off : th.Off) (th_placed : th.Placed) : Good (s.setThread t th) L := by
  have outside := good.notMem_of_off off
  have at_u : ∀ u, u ≠ t → (s.setThread t th).thread u = s.thread u := fun u ne => by
    rw [setThread_thread, if_neg ne]
  have at_t : (s.setThread t th).thread t = th := by rw [setThread_thread, if_pos rfl]
  refine ⟨fun q => ?_, good.nodup, fun q i u => ?_, fun u q lock => ?_, fun u u_off => ?_,
    fun u => ?_⟩
  · refine (good.held q).congr fun i u mem => ?_
    rw [at_u u fun eq => outside q i (eq ▸ mem)]
    exact ⟨rfl, rfl⟩
  · by_cases eq : u = t
    · subst eq
      rw [at_t]
      exact iff_of_false (outside q i) fun both => th_off.1 q both.1
    · rw [at_u u eq]
      exact good.mem_iff q i u
  · by_cases eq : u = t
    · subst eq
      rw [at_t] at lock
      exact absurd lock (th_off.1 q)
    · rw [at_u u eq] at lock ⊢
      exact good.home u q lock
  · by_cases eq : u = t
    · subst eq
      rw [at_t]
      exact th_off.2
    · rw [at_u u eq] at u_off ⊢
      exact good.off u u_off
  · by_cases eq : u = t
    · subst eq
      rwa [at_t]
    · rw [at_u u eq]
      exact good.placed u

section

variable (good : Good s L) (off : (s.thread t).Off)

include good off

theorem dispSwappedSetrun_good (unloaded : (s.thread t).loaded = false)
    (done : dispSwappedSetrun s t = some s') :
    Good s' L := by
  rw [dispSwappedSetrun] at done
  split at done
  · obtain rfl := some.inj done
    exact good.change off.1 ⟨fun _ => nofun, off.2⟩ fun _ => ⟨nofun, fun _ => unloaded⟩
  · obtain rfl := some.inj done
    exact good
  · exact nomatch done

/-! ### The lists afterwards -/

section

variable (is_loaded : (s.thread t).loaded = true)

include is_loaded

theorem backdq_put (done : backdq s t (.cpu c) = some s') :
    PutOn s s' L (.cpu c) t (L (.cpu c) (s.thread t).pri ++ [t]) := by
  cases at_pri : (s.disp (.cpu c)).q[(s.thread t).pri]? with
  | none =>
    rw [backdq, at_pri] at done
    exact nomatch done
  | some dq =>
    obtain ⟨s'', done', put⟩ :=
      backdq_good good off is_loaded (fun kp : QueueId.cpu c = .kp => nomatch kp) at_pri
    obtain rfl := some.inj (done.symm.trans done')
    exact put

theorem frontdq_put (done : frontdq s t (.cpu c) = some s') :
    PutOn s s' L (.cpu c) t (t :: L (.cpu c) (s.thread t).pri) := by
  cases at_pri : (s.disp (.cpu c)).q[(s.thread t).pri]? with
  | none =>
    rw [frontdq, at_pri] at done
    exact nomatch done
  | some dq =>
    obtain ⟨s'', done', put⟩ :=
      frontdq_good good off is_loaded (fun kp : QueueId.cpu c = .kp => nomatch kp) at_pri
    obtain rfl := some.inj (done.symm.trans done')
    exact put

theorem setkpdq_put (unbound : (s.thread t).boundCpu = none) {back : Bool}
    (done : setkpdq s t back = some s') :
    PutOn s s' L .kp t (if back then L .kp (s.thread t).pri ++ [t] else
      t :: L .kp (s.thread t).pri) := by
  cases at_pri : (s.disp .kp).q[(s.thread t).pri]? with
  | none =>
    rw [setkpdq, at_pri] at done
    exact nomatch done
  | some dq =>
    obtain ⟨s'', done', put⟩ := setkpdq_good good off is_loaded unbound at_pri back
    obtain rfl := some.inj (done.symm.trans done')
    exact put

/-- `setbackdq` puts a loaded thread at the back of a list of its priority. -/
theorem setbackdq_put (done : setbackdq cfg s t choose = some s') :
    PutOn s s' L (s'.thread t).dispQueue t (L (s'.thread t).dispQueue (s.thread t).pri ++ [t]) := by
  have named := fun q => @PutOn.named s s' L q t fun q => L q (s.thread t).pri ++ [t]
  rw [setbackdq, is_loaded] at done
  simp only [Bool.not_true, Bool.false_eq_true, if_false] at done
  by_cases one : cfg.ncpus = 1
  · rw [if_pos one] at done
    exact named _ (backdq_put good off is_loaded done)
  rw [if_neg one] at done
  cases bound : (s.thread t).boundCpu with
  | some c =>
    rw [bound] at done
    exact named _ (backdq_put good off is_loaded done)
  | none =>
    rw [bound] at done
    dsimp only at done
    by_cases high : cfg.kpreemptpri ≤ (s.thread t).pri
    · rw [if_pos high] at done
      exact named _ (setkpdq_put good off is_loaded bound done)
    · rw [if_neg high] at done
      obtain ⟨c, -, done⟩ := bind_eq_some_iff.1 done
      exact named _ (backdq_put good off is_loaded done)

/-- `setfrontdq` puts it at the front. -/
theorem setfrontdq_put (done : setfrontdq cfg s t choose = some s') :
    PutOn s s' L (s'.thread t).dispQueue t (t :: L (s'.thread t).dispQueue (s.thread t).pri) := by
  have named := fun q => @PutOn.named s s' L q t fun q => t :: L q (s.thread t).pri
  rw [setfrontdq, is_loaded] at done
  simp only [Bool.not_true, Bool.false_eq_true, if_false] at done
  by_cases one : cfg.ncpus = 1
  · rw [if_pos one] at done
    exact named _ (frontdq_put good off is_loaded done)
  rw [if_neg one] at done
  cases bound : (s.thread t).boundCpu with
  | some c =>
    rw [bound] at done
    exact named _ (frontdq_put good off is_loaded done)
  | none =>
    rw [bound] at done
    dsimp only at done
    by_cases high : cfg.kpreemptpri ≤ (s.thread t).pri
    · rw [if_pos high] at done
      exact named _ (setkpdq_put good off is_loaded bound done)
    · rw [if_neg high] at done
      split_ifs at done
      · exact named _ (frontdq_put good off is_loaded done)
      · exact named _ (frontdq_put good off is_loaded done)

end

end

end Sol25.Disp
