import Sol25.Disp.Insert

/-!
# Threads taken off queues

`dispdeq` takes out a given thread, `disp` the first one of the highest level.
-/

namespace Sol25.Disp

open Function List Option

variable {s s' : State} {L : Lists} {q : QueueId} {t u i pri c fuel : ℕ} {l a b : List ℕ}
  {dp : DispT} {dq : Dispq}
  {thread thread' : ℕ → Thread} {p trp : Option ℕ}

/-- The search ends at the thread, with the one in front of it. -/
theorem search_eq (links : Links (fun u => (s.thread u).link) p (a ++ t :: b) none)
    (outside : t ∉ a) (enough : a.length < fuel) :
    search s t fuel trp p = some (a.getLast?.or trp) := by
  induction a generalizing p trp fuel with
  | nil =>
    obtain ⟨fuel, rfl⟩ := Nat.exists_eq_add_of_lt enough
    rw [links.1, search, if_pos rfl]
    rfl
  | cons r a ih =>
    obtain ⟨fuel, rfl⟩ := Nat.exists_eq_add_of_lt enough
    obtain ⟨rfl, rest⟩ := links
    rw [mem_cons, not_or] at outside
    rw [length_cons] at enough ⊢
    rw [search, if_neg (Ne.symm outside.1), ih rest outside.2 (by omega)]
    cases a with
    | nil => rfl
    | cons r' a => rw [getLast?_cons_cons, getLast?_cons, some_or, some_or]

/-- A list without one of its threads. -/
theorem Level.remove (level : Level thread dq (a ++ t :: b)) (distinct : (a ++ t :: b).Nodup)
    (links : ∀ v ∈ a ++ b, (thread' v).link = if a.getLast? = some v then (thread t).link else
      (thread v).link) :
    Level thread' ⟨if a = [] then (thread t).link else dq.first,
      if (thread t).link = none then a.getLast? else dq.last, dq.sruncnt - 1⟩ (a ++ b) := by
  have next_t : (thread t).link = b.head? := level.links.next_eq
  refine ⟨?_, ?_, ?_⟩
  · rcases eq_nil_or_concat a with rfl | ⟨front, r, rfl⟩
    · rw [if_pos rfl]
      refine level.links.2.congr fun v mem => ?_
      have := links v mem
      rw [if_neg nofun] at this
      exact this
    · rw [if_neg (by simp)]
      rw [concat_eq_append] at level distinct links ⊢
      have split : front ++ [r] ++ t :: b = front ++ r :: t :: b := by simp
      rw [split] at distinct
      have linked := level.links
      rw [split] at linked
      have unlinked := linked.unlink distinct
      rw [show front ++ [r] ++ b = front ++ r :: b by simp] at links ⊢
      refine unlinked.congr fun v mem => ?_
      have at_v := links v mem
      rw [getLast?_concat] at at_v
      by_cases eq : v = r
      · subst eq
        rw [if_pos rfl] at at_v
        rw [at_v, update_self]
      · rw [if_neg fun same => eq (some.inj same).symm] at at_v
        rw [at_v, update_of_ne eq]
  · cases b with
    | nil =>
      rw [next_t, append_nil]
      rfl
    | cons v b =>
      rw [next_t]
      change (if (some v : Option ℕ) = none then a.getLast? else dq.last) = _
      rw [if_neg nofun, level.last_eq, getLast?_append, getLast?_append, getLast?_cons_cons]
  · have count := level.sruncnt_eq
    change dq.sruncnt - 1 = _
    rw [count, length_append, length_append, length_cons]
    omega

theorem eq_append_of_mem (mem : t ∈ l) (distinct : l.Nodup) :
    ∃ a b, l = a ++ t :: b ∧ t ∉ a ∧ l.erase t = a ++ b := by
  obtain ⟨a, b, rfl⟩ := append_of_mem mem
  have outside : t ∉ a := by
    rw [nodup_append] at distinct
    exact fun mem => distinct.2.2 t mem t mem_cons_self rfl
  refine ⟨a, b, rfl, outside, ?_⟩
  rw [erase_append_right _ outside, erase_cons_head]

theorem relink_thread (s : State) (trp link : Option ℕ) (v : ℕ) : (relink s trp link).thread v =
    if trp = some v then { s.thread v with link := link } else s.thread v := by
  cases trp with
  | none => rfl
  | some r =>
    rw [relink, setThread_thread]
    by_cases eq : v = r
    · rw [if_pos eq, if_pos (by rw [eq]), eq]
    · rw [if_neg eq, if_neg fun same => eq (some.inj same).symm]

theorem relink_disp (s : State) (trp link : Option ℕ) : (relink s trp link).disp = s.disp := by
  cases trp <;> rfl

/-- What comes of taking a thread off: it leaves its list. -/
def TakenOff (s s' : State) (L : Lists) (t : ℕ) : Prop :=
  Good s' (L.put (s.thread t).dispQueue (s.thread t).pri
    ((L (s.thread t).dispQueue (s.thread t).pri).erase t))

theorem Good.getElem?_level (good : Good s L) (mem : t ∈ L q i) :
    ∃ dq, (s.disp q).q[i]? = some dq := by
  have lt : i < (s.disp q).npri := by
    by_contra beyond
    rw [(good.held q).outside i (not_lt.1 beyond)] at mem
    exact nomatch mem
  rw [← (good.held q).q_length] at lt
  exact ⟨_, getElem?_eq_getElem lt⟩

/-- What `dispdeq` does to a thread that is on a queue. -/
structure Dequeued (s s' : State) (L : Lists) (q : QueueId) (t : ℕ) : Prop where
  taken : TakenOff s s' L t
  thread_t : s'.thread t = { s.thread t with link := none, lockp := .transition }
  others : ∀ u, u ≠ t → SameButLink (s.thread u) (s'.thread u)
  npri_eq : ∀ q', (s'.disp q').npri = (s.disp q').npri
  fewer : (s.disp q).nrunnable = (s'.disp q).nrunnable + 1

theorem dispdeq_good (good : Good s L) (lock : (s.thread t).lockp = .queue q) :
    ∃ s', dispdeq s t = some (true, s') ∧ Dequeued s s' L q t := by
  obtain ⟨run, is_loaded, rfl, -⟩ := good.home t q lock
  have mem : t ∈ L (s.thread t).dispQueue (s.thread t).pri := (good.mem_iff _ _ t).2 ⟨lock, rfl⟩
  obtain ⟨dq, at_pri⟩ := good.getElem?_level mem
  have held := good.held (s.thread t).dispQueue
  have level := held.level _ dq at_pri
  have distinct := good.nodup (s.thread t).dispQueue (s.thread t).pri
  obtain ⟨a, b, split, outside, erased⟩ := eq_append_of_mem mem distinct
  have some_at : L (s.thread t).dispQueue (s.thread t).pri ≠ [] := ne_nil_of_mem mem
  have enough : a.length < dq.sruncnt + 1 := by
    rw [level.sruncnt_eq, split, length_append, length_cons]
    omega
  rw [split] at level distinct
  have found : search s t (dq.sruncnt + 1) none dq.first = some a.getLast? := by
    rw [search_eq level.links outside enough, or_none]
  rw [dispdeq, if_neg (not_not.2 run), is_loaded]
  simp only [Bool.not_true, Bool.false_eq_true, if_false, at_pri, bind_eq_bind, bind_some, found]
  have first_eq : (if a.getLast? = none then (s.thread t).link else dq.first) =
      if a = [] then (s.thread t).link else dq.first := by
    simp only [getLast?_eq_none_iff]
  rw [first_eq]
  set dq' : Dispq := ⟨if a = [] then (s.thread t).link else dq.first,
    if (s.thread t).link = none then a.getLast? else dq.last, dq.sruncnt - 1⟩ with dq'_eq
  set dp' : DispT := { s.disp (s.thread t).dispQueue with
    nrunnable := (s.disp (s.thread t).dispQueue).nrunnable - 1
    q := (s.disp (s.thread t).dispQueue).q.set (s.thread t).pri dq' } with dp'_eq
  have taken : Taken (s.disp (s.thread t).dispQueue)
    (if dq.sruncnt - 1 = 0 then emptied dp' (s.thread t).pri else dp')
      (s.thread t).pri dq' := held.dispdeq_taken at_pri some_at dp' dp'_eq rfl
  have a_mem : ∀ v, a.getLast? = some v → v ∈ L (s.thread t).dispQueue (s.thread t).pri :=
      fun v last => by
    rw [split]
    exact mem_append_left _ (mem_of_getLast? last)
  have off : ({ s.thread t with link := none, lockp := .transition } : Thread).Off :=
    ⟨fun _ => nofun, rfl⟩
  have placed : ({ s.thread t with link := none, lockp := .transition } : Thread).Placed :=
    fun _ => ⟨nofun, nofun⟩
  refine ⟨_, rfl, ?_, ?_, fun v ne => ?_,
    npri_update (by rw [← relink_disp s a.getLast? (s.thread t).link]; rfl)
    taken.npri_eq, ?_⟩
  · rw [TakenOff, erased]
    refine good.taken_off mem at_pri
      (by rw [← relink_disp s a.getLast? (s.thread t).link]; rfl) taken
      (level.remove distinct fun v mem_v => ?_) (fun v => ?_) ?_ ?_
        (by rw [setThread_thread, if_pos rfl]) off
      placed (fun v ne => ?_) fun v ne notMem => ?_
    · have v_ne : v ≠ t := by
        rintro rfl
        rw [nodup_middle, nodup_cons] at distinct
        exact distinct.1 mem_v
      rw [setThread_thread, if_neg v_ne, State.setDisp_thread, relink_thread]
      split_ifs <;> rfl
    · rw [← erased, Nodup.mem_erase_iff (good.nodup (s.thread t).dispQueue _)]
    · rw [split, length_append, length_append, length_cons]
      omega
    · rw [← erased]
      exact (good.nodup (s.thread t).dispQueue _).erase t
    · rw [setThread_thread, if_neg ne, State.setDisp_thread, relink_thread]
      split_ifs
      · exact ⟨_, rfl⟩
      · exact .refl _
    · rw [setThread_thread, if_neg ne, State.setDisp_thread, relink_thread,
        if_neg fun last => notMem (a_mem v last)]
  · rw [setThread_thread, if_pos rfl]
  · rw [setThread_thread, if_neg ne, State.setDisp_thread, relink_thread]
    split_ifs
    · exact ⟨_, rfl⟩
    · exact .refl _
  · change _ = (update (relink s a.getLast? (s.thread t).link).disp (s.thread t).dispQueue _
      (s.thread t).dispQueue).nrunnable + 1
    rw [update_self]
    exact taken.nrunnable_eq

theorem search_none (links : Links (fun u => (s.thread u).link) p l none) (outside : t ∉ l) :
    search s t fuel trp p = none := by
  induction l generalizing p trp fuel with
  | nil =>
    obtain rfl : p = none := links
    cases fuel <;> rfl
  | cons r l ih =>
    obtain ⟨rfl, rest⟩ := links
    rw [mem_cons, not_or] at outside
    cases fuel with
    | zero => rfl
    | succ fuel => rw [search, if_neg (Ne.symm outside.1), ih rest outside.2]

/-- `dispdeq` of a thread that is on no queue leaves everything as it is, or does not find the
thread. -/
theorem dispdeq_off (good : Good s L) (off : ∀ q, (s.thread t).lockp ≠ .queue q) {found : Bool}
    (done : dispdeq s t = some (found, s')) :
    s' = s ∧ ¬ ((s.thread t).state = .run ∧ (s.thread t).loaded = true) := by
  rw [dispdeq] at done
  by_cases idle : (s.thread t).state ≠ .run
  · rw [if_pos idle] at done
    cases done
    exact ⟨rfl, fun both => idle both.1⟩
  rw [if_neg idle] at done
  cases is_loaded : (s.thread t).loaded with
  | false =>
    rw [is_loaded] at done
    cases done
    exact ⟨rfl, fun both => nomatch both.2⟩
  | true =>
    rw [is_loaded] at done
    simp only [Bool.not_true, Bool.false_eq_true, if_false, bind_eq_bind] at done
    obtain ⟨dq, at_pri, done⟩ := bind_eq_some_iff.1 done
    have level := (good.held (s.thread t).dispQueue).level _ dq at_pri
    rw [search_none level.links (good.notMem_of_off off _ _)] at done
    exact nomatch done

/-! ### The highest level -/

/-- `disp` takes the first thread of the highest level that has one. -/
theorem disp_good (good : Good s L) (c : ℕ) :
    (disp s c = some (none, s) ∧ ∀ i, L (.cpu c) i = []) ∨
    ∃ i t s', disp s c = some (some t, s') ∧ (L (.cpu c) i).head? = some t ∧
      (∀ j, i < j → L (.cpu c) j = []) ∧
      TakenOff s s' L t := by
  have held := good.held (.cpu c)
  rcases held.maxrunpri with ⟨top, none_at⟩ | ⟨i, top, some_at, above⟩
  · refine .inl ⟨?_, fun i => not_not.1 (none_at i)⟩
    rw [disp, if_pos top]
  obtain ⟨t, rest, list_eq⟩ := exists_cons_of_ne_nil some_at
  have mem : t ∈ L (.cpu c) i := list_eq ▸ mem_cons_self
  obtain ⟨lock, pri_eq⟩ := (good.mem_iff _ i t).1 mem
  obtain ⟨dq, at_i⟩ := good.getElem?_level mem
  have level := held.level i dq at_i
  have distinct := good.nodup (.cpu c) i
  have first := level.first_eq
  rw [list_eq] at level distinct first
  have next : (s.thread t).link = rest.head? := level.links.2.start_eq
  have list_t : L (s.thread t).dispQueue (s.thread t).pri = t :: rest := by
    rw [(good.home t _ lock).2.2.1, pri_eq, list_eq]
  set th : Thread := { s.thread t with link := none, state := .onproc, lockp := .other } with th_eq
  have th_off : th.Off := ⟨fun _ => nofun, rfl⟩
  have th_placed : th.Placed := fun run => nomatch run
  have removed : ∀ dp dq', dq' = (⟨if ([] : List ℕ) = [] then (s.thread t).link else dq.first,
        if (s.thread t).link = none then ([] : List ℕ).getLast? else dq.last, dq.sruncnt - 1⟩ :
          Dispq) →
      Taken (s.disp (.cpu c)) dp i dq' →
          TakenOff s ((s.setDisp (.cpu c) dp).setThread t th) L t := by
    rintro dp dq' rfl taken
    have at_v : ∀ v, v ≠ t → ((s.setDisp (.cpu c) dp).setThread t th).thread v = s.thread v :=
        fun v ne => by
      rw [setThread_thread, if_neg ne, State.setDisp_thread]
    have remains : Level ((s.setDisp (.cpu c) dp).setThread t th).thread _ rest :=
      Level.remove (a := []) level distinct fun v mem_v => by
        rw [if_neg nofun, at_v v]
        rintro rfl
        exact (nodup_cons.1 distinct).1 mem_v
    have erased : (t :: rest).erase t = rest := erase_cons_head ..
    rw [TakenOff, list_t, erased, (good.home t _ lock).2.2.1, pri_eq]
    refine good.taken_off mem at_i rfl taken remains (fun v => ?_) ?_ (nodup_cons.1 distinct).2
      (by rw [setThread_thread, if_pos rfl]) th_off th_placed (fun v ne => ?_) fun v ne _ => ?_
    · rw [list_eq, ← Nodup.mem_erase_iff distinct, erased]
    · rw [list_eq, length_cons]
    · rw [at_v v ne]
      exact .refl _
    · rw [at_v v ne]
  refine .inr ⟨i, t, ?_⟩
  rw [list_eq]
  have top_ne : (s.disp (.cpu c)).maxrunpri ≠ -1 := by omega
  rw [disp, if_neg top_ne]
  simp only [top, Int.toNat_natCast, at_i, first, head?_cons, bind_eq_bind, bind_some]
  by_cases last : (s.thread t).link = none
  · rw [if_pos last]
    refine ⟨_, rfl, trivial, fun j lt => not_not.1 (above j (by omega)), ?_⟩
    refine removed _ ⟨none, none, dq.sruncnt - 1⟩ (by rw [if_pos rfl, if_pos last, last]; rfl) ?_
    refine held.disp_taken at_i top ?_ _ rfl
    rw [last] at next
    have empty : rest = [] := head?_eq_none_iff.1 next.symm
    dsimp only
    rw [level.sruncnt_eq, empty]
    rfl
  · rw [if_neg last]
    refine ⟨_, rfl, trivial, fun j lt => not_not.1 (above j (by omega)), ?_⟩
    refine removed _ ⟨(s.thread t).link, dq.last, dq.sruncnt - 1⟩
      (by rw [if_pos rfl, if_neg last]) ?_
    have some_left : rest ≠ [] := fun empty => last (by rw [next, empty]; rfl)
    have count := level.sruncnt_eq
    rw [length_cons] at count
    have pos := length_pos_iff.2 some_left
    have highest := held.maxrunpri.congr held.active
    have unbound_le := held.unbound_le
    rw [top] at highest unbound_le
    refine ⟨rfl, rfl, rfl, fun j => ?_, ?_, highest, (min_eq_left unbound_le).symm⟩
    · have more : dq.sruncnt - 1 ≠ 0 := by omega
      rw [decide_eq_false more, Bool.and_false, Bool.not_false, Bool.and_true]
    · have pos := held.sum_pos some_at
      dsimp only
      omega

end Sol25.Disp
