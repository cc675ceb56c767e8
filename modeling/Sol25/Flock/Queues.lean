import Sol25.Flock.Kernel
import Sol25.Flock.Ranges

/-!
# The active lists

Each graph keeps the active locks of a vnode together, `v_filocks` points at the first of them, and
the locks of one owner on it are the ones that `Sol25.Flock.Ranges` speaks about. What the functions
on edges, barriers and the process graph do does not concern these lists.
-/

namespace Sol25

open List Function

namespace Flock

namespace State

/-! ### What leaves the active lists alone -/

/-- The descriptors and the active lists are the same. -/
structure SameActive (s s' : State) : Prop where
  /-- descriptors -/
  lock : s'.lock = s.lock
  next : s'.next = s.next
  /-- `active_locks` -/
  active : s'.active = s.active
  /-- `v_filocks` -/
  filocks : s'.filocks = s.filocks

variable {s s' s'' : State} {x y request : LockId} {topology : List LockId} {updateGraph : Bool}

theorem SameActive.refl (s : State) : SameActive s s := ⟨rfl, rfl, rfl, rfl⟩

theorem SameActive.trans (first : SameActive s s') (second : SameActive s' s'') :
    SameActive s s'' where
  lock := second.lock.trans first.lock
  next := second.next.trans first.next
  active := second.active.trans first.active
  filocks := second.filocks.trans first.filocks

theorem SameActive.after (later : SameActive s' s'') (lock : s'.lock = s.lock)
    (next : s'.next = s.next) (active : s'.active = s.active) (filocks : s'.filocks = s.filocks) :
    SameActive s s'' :=
  SameActive.trans ⟨lock, next, active, filocks⟩ later

theorem SameActive.foldl {α : Type*} {f : State → α → State} (step : ∀ s a, SameActive s (f s a))
    (s : State) (l : List α) : SameActive s (l.foldl f s) := by
  induction l generalizing s with
  | nil => exact .refl s
  | cons a l ih => exact (step s a).trans (ih (f s a))

theorem detach_active (sources : List LockId) : SameActive s (s.detach x sources) := by
  induction sources generalizing s with
  | nil => exact .refl s
  | cons source rest ih =>
    rw [detach]
    exact ih.after rfl rfl rfl rfl

theorem unlinkAll_active (targets : List LockId) : SameActive s (s.unlinkAll x targets) := by
  induction targets generalizing s with
  | nil => exact .refl s
  | cons target rest ih =>
    rw [unlinkAll]
    exact ih.after rfl rfl rfl rfl

theorem wakeupOne_active (adjRemove : Bool) : SameActive s (s.wakeupOne x adjRemove y) := by
  have first : SameActive s (if adjRemove then s.adjListRemove y x else s) := by
    split_ifs
    · exact ⟨rfl, rfl, rfl, rfl⟩
    · exact .refl s
  rw [wakeupOne]
  generalize (if adjRemove then s.adjListRemove y x else s) = s1 at first
  have second : SameActive s (s1.dropProcEdge y x) := first.trans ⟨rfl, rfl, rfl, rfl⟩
  generalize s1.dropProcEdge y x = s2 at second
  split_ifs <;> exact second.trans ⟨rfl, rfl, rfl, rfl⟩

theorem wakeup_active (adjRemove : Bool) : SameActive s (s.wakeup x adjRemove) :=
  SameActive.foldl (fun _ _ => wakeupOne_active adjRemove) s _

theorem markBarriers_active (sources colored : List LockId) (found : Bool) :
    SameActive s (markBarriers sources colored found s).2 := by
  induction sources generalizing s colored found with
  | nil => exact .refl s
  | cons lck rest ih =>
    rw [markBarriers]
    split_ifs
    · exact SameActive.after (ih colored true) rfl rfl rfl rfl
    · exact SameActive.after (ih (lck :: colored) found) rfl rfl rfl rfl

theorem updateBarriers_active : SameActive s (s.updateBarriers x) := by
  refine SameActive.foldl (fun s lck => ?_) s _
  split_ifs
  · exact ⟨rfl, rfl, rfl, rfl⟩
  · exact .refl s

theorem addRecomputed_active : SameActive s (s.addRecomputed x y updateGraph) := by
  cases updateGraph <;> exact ⟨rfl, rfl, rfl, rfl⟩

theorem dependOn_active (locks : List LockId) (count : ℕ) (colored : List LockId) :
    SameActive s (dependOn x updateGraph locks count colored s).2 := by
  induction locks generalizing s count colored with
  | nil => exact .refl s
  | cons lock rest ih =>
    rw [dependOn]
    split_ifs
    · exact ih _ _
    · exact addRecomputed_active.trans (ih _ _)
    · exact ih _ _

theorem recomputeLoop_active {barrierFound : Bool} (fuel : ℕ)
    (stack : List (LockId × List LockId)) :
    SameActive s (recomputeLoop topology updateGraph barrierFound fuel stack s) := by
  induction fuel generalizing s stack with
  | zero => exact .refl s
  | succ fuel ih =>
    cases stack with
    | nil => exact .refl s
    | cons top stack =>
      obtain ⟨vertex, sedge⟩ := top
      rw [recomputeLoop]
      by_cases barrier : s.recomputeDone vertex = false ∧ s.barrier vertex = true ∧
        s.index vertex ≠ 0
      · rw [if_pos barrier]
        exact (ih stack).after rfl rfl rfl rfl
      rw [if_neg barrier]
      dsimp only
      generalize eq : (if s.recomputeDone vertex = true then (0, s) else _) = processed
      have same : SameActive s processed.2 := by
        rw [← eq]
        split_ifs
        · exact .refl s
        · exact SameActive.after (dependOn_active _ _ _) rfl rfl rfl rfl
      cases sedge with
      | nil => exact same.trans ((ih stack).after rfl rfl rfl rfl)
      | cons source later =>
        dsimp only
        split_ifs
        · exact same.trans
            (SameActive.after (updateBarriers_active.trans (ih stack)) rfl rfl rfl rfl)
        · exact same.trans ((ih stack).after rfl rfl rfl rfl)
        · exact same.trans (ih _)

theorem recomputeDependencies_active :
    SameActive s (s.recomputeDependencies x topology updateGraph) := by
  rw [recomputeDependencies]
  split_ifs
  · exact .refl s
  · exact (markBarriers_active _ _ _).trans ((recomputeLoop_active _ _).after rfl rfl rfl rfl)

theorem setRecompute_active (value : Bool) (locks : List LockId) :
    SameActive s (setRecompute value locks s) := by
  induction locks generalizing s with
  | nil => exact .refl s
  | cons lock rest ih =>
    rw [setRecompute]
    exact ih.after rfl rfl rfl rfl

theorem freeInEdges_active (sources : List LockId) : SameActive s (s.freeInEdges x sources) := by
  induction sources generalizing s with
  | nil => exact .refl s
  | cons source rest ih =>
    rw [freeInEdges]
    exact ih.after rfl rfl rfl rfl

theorem numberTopology_active (locks : List LockId) (n : ℕ) :
    SameActive s (s.numberTopology locks n) := by
  induction locks generalizing s n with
  | nil => exact .refl s
  | cons lock rest ih =>
    rw [numberTopology]
    exact (ih (n + 1)).after rfl rfl rfl rfl

theorem freeAdjEdges_active (targets : List LockId) : SameActive s (s.freeAdjEdges x targets) := by
  induction targets generalizing s with
  | nil => exact .refl s
  | cons target rest ih =>
    rw [freeAdjEdges]
    exact ih.after rfl rfl rfl rfl

theorem removeSleepQueue_active : SameActive s (s.removeSleepQueue x) := ⟨rfl, rfl, rfl, rfl⟩

theorem cancelSleepingLock_active : SameActive s (s.cancelSleepingLock x) := by
  rw [cancelSleepingLock]
  refine SameActive.trans ?_ (wakeup_active false)
  refine SameActive.trans ?_ (setRecompute_active false _)
  refine SameActive.trans ?_ (freeAdjEdges_active _)
  refine SameActive.trans ?_ recomputeDependencies_active
  refine SameActive.trans ?_ removeSleepQueue_active
  refine SameActive.trans ?_ (detach_active _)
  exact SameActive.trans (setRecompute_active true _) (numberTopology_active _ 0)

variable {locks : List LockId} {vertex : ℕ}

theorem recordOut_active (targets : List LockId) : SameActive s (recordOut x vertex targets s) := by
  induction targets generalizing s with
  | nil => exact .refl s
  | cons target rest ih =>
    rw [recordOut]
    exact ih.after rfl rfl rfl rfl

theorem recordIn_active (sources : List LockId) : SameActive s (recordIn x vertex sources s) := by
  induction sources generalizing s with
  | nil => exact .refl s
  | cons source rest ih =>
    rw [recordIn]
    exact ih.after rfl rfl rfl rfl

theorem retractOut_active (targets : List LockId) :
    SameActive s (retractOut x vertex targets s) := by
  induction targets generalizing s with
  | nil => exact .refl s
  | cons target rest ih =>
    rw [retractOut]
    exact ih.after rfl rfl rfl rfl

theorem retractIn_active (sources : List LockId) : SameActive s (retractIn x vertex sources s) := by
  induction sources generalizing s with
  | nil => exact .refl s
  | cons source rest ih =>
    rw [retractIn]
    exact ih.after rfl rfl rfl rfl

theorem checkDeadlock_active : SameActive s (s.checkDeadlock x).2 := by
  have recorded : SameActive s (recordIn x (s.getProcVertex x).1 ((s.getProcVertex x).2.inn x)
      (recordOut x (s.getProcVertex x).1 ((s.getProcVertex x).2.adj x) (s.getProcVertex x).2)) :=
    SameActive.after ((recordOut_active _).trans (recordIn_active _)) rfl rfl rfl rfl
  rw [checkDeadlock]
  split_ifs
  · exact recorded
  · exact recorded.trans
      ((retractOut_active _).trans ((retractIn_active _).trans ⟨rfl, rfl, rfl, rfl⟩))
  · exact recorded

theorem addEdge_active (checkCycle : Bool) (colored : List LockId) :
    SameActive s (s.addEdge x y checkCycle colored).2.2 := by
  rw [addEdge]
  dsimp only
  split_ifs
  · exact .refl s
  · exact (unlinkAll_active _).after rfl rfl rfl rfl
  · exact ⟨rfl, rfl, rfl, rfl⟩
  · exact ⟨rfl, rfl, rfl, rfl⟩

def stateOf : Except State Edges → State
  | .error s => s
  | .ok e => e.state

theorem add_active {e : Edges} (checkCycle : Bool) :
    SameActive e.state (stateOf (e.add x y checkCycle)) := by
  rw [Edges.add]
  split_ifs <;> exact addEdge_active _ _

theorem bind_active {e : Edges} {added : Except State Edges} {later : Edges → Except State Edges}
    (first : SameActive e.state (stateOf added))
    (second : ∀ e, SameActive e.state (stateOf (later e))) :
    SameActive e.state (stateOf (added.bind later)) := by
  cases added with
  | error s => exact first
  | ok e' => exact first.trans (second e')

theorem sleepingEdges_active (locks : List LockId) (e : Edges) :
    SameActive e.state (stateOf (sleepingEdges request locks e)) := by
  induction locks generalizing e with
  | nil => exact .refl _
  | cons lock rest ih =>
    rw [sleepingEdges]
    split_ifs
    · exact .refl _
    · exact @bind_active { e with coveredBy := some lock } _ _ (add_active false) ih
    · exact ih e
    · exact bind_active (add_active _) ih
    · exact ih e

theorem activeEdges_active (locks : List LockId) (e : Edges) :
    SameActive e.state (stateOf (activeEdges request locks e)) := by
  induction locks generalizing e with
  | nil => exact .refl _
  | cons lock rest ih =>
    rw [activeEdges]
    split_ifs
    · exact bind_active (add_active true) ih
    · exact ih e

theorem waitRequest_active : SameActive s (s.waitRequest request).2 := by
  rw [waitRequest]
  split_ifs
  · exact cancelSleepingLock_active.after rfl rfl rfl rfl
  · exact ⟨rfl, rfl, rfl, rfl⟩

theorem recomputeAgainst_active (locks : List LockId) :
    SameActive s (recomputeAgainst request locks s) := by
  induction locks generalizing s with
  | nil => exact .refl s
  | cons lock rest ih =>
    rw [recomputeAgainst]
    exact recomputeDependencies_active.trans ih

/-! ### The locks of a vnode -/

/-- The active list of a graph consists of the groups of its vnodes. -/
structure Queued (s : State) (group : ℕ → List LockId) : Prop where
  /-- the vnodes of a graph, in the order of their groups -/
  order : ∀ i, ∃ order : List ℕ, order.Nodup ∧ (∀ vp ∈ order, hashIndex vp = i) ∧
    (∀ vp, hashIndex vp = i → vp ∉ order → group vp = []) ∧ s.active i = order.flatMap group
  /-- the locks of a vnode -/
  vnode : ∀ vp, ∀ x ∈ group vp, (s.lock x).vnode = vp
  /-- they have been handed out -/
  lt : ∀ vp, ∀ x ∈ group vp, x < s.next
  /-- no lock is on a list twice -/
  nodup : ∀ vp, (group vp).Nodup
  /-- `v_filocks` -/
  first : ∀ vp, s.filocks vp = (group vp).head?

variable {group : ℕ → List LockId} {vp : ℕ} {new lock : LockId} {front rest : List LockId}

section

variable (queued : Queued s group)

include queued

/-- The locks in front of the group of a vnode and behind it are of other vnodes. -/
theorem Queued.split (vp : ℕ) :
    ∃ pre post, s.active (hashIndex vp) = pre ++ (group vp ++ post) ∧
      (∀ x ∈ pre, (s.lock x).vnode ≠ vp) ∧
      ∀ x ∈ post, (s.lock x).vnode ≠ vp := by
  obtain ⟨order, nodup, -, empty, active_eq⟩ := queued.order (hashIndex vp)
  by_cases mem : vp ∈ order
  · obtain ⟨before, after, rfl⟩ := append_of_mem mem
    rw [nodup_append, nodup_cons] at nodup
    have other : ∀ vps : List ℕ, vp ∉ vps → ∀ x ∈ vps.flatMap group, (s.lock x).vnode ≠ vp := by
      intro vps absent x x_mem eq
      obtain ⟨vp', vp_mem, x_mem⟩ := mem_flatMap.1 x_mem
      rw [queued.vnode vp' x x_mem] at eq
      exact absent (eq ▸ vp_mem)
    refine ⟨before.flatMap group, after.flatMap group, ?_, other before fun mem => ?_,
      other after nodup.2.1.1⟩
    · rw [active_eq, flatMap_append, flatMap_cons]
    · exact nodup.2.2 vp mem vp mem_cons_self rfl
  · refine ⟨s.active (hashIndex vp),
      [], by rw [empty vp rfl mem, append_nil, append_nil], fun x x_mem eq => ?_, fun _ => nofun⟩
    rw [active_eq] at x_mem
    obtain ⟨vp', vp_mem, x_mem⟩ := mem_flatMap.1 x_mem
    rw [queued.vnode vp' x x_mem] at eq
    exact mem (eq ▸ vp_mem)

theorem Queued.activeOf_eq (vp : ℕ) : s.activeOf vp = group vp := by
  obtain ⟨pre, post, active_eq, pre_ne, post_ne⟩ := queued.split vp
  rw [activeOf, queued.first, active_eq]
  have vnodes := queued.vnode vp
  cases eq : group vp with
  | nil => rfl
  | cons first later =>
    rw [eq] at vnodes
    have skipped : ∀ x ∈ pre, decide (x ≠ first) = true := by
      intro x mem
      rw [decide_eq_true_iff]
      rintro rfl
      exact pre_ne x mem (vnodes x mem_cons_self)
    have taken : ∀ x ∈ first :: later, decide ((s.lock x).vnode = vp) = true := fun x mem =>
      decide_eq_true (vnodes x mem)
    dsimp only [head?_cons]
    rw [dropWhile_append_of_pos skipped, cons_append,
      dropWhile_cons_of_neg (by simp), ← cons_append,
      takeWhile_append_of_pos taken]
    cases post with
    | nil => simp
    | cons other post =>
      rw [takeWhile_cons_of_neg (by simpa using post_ne other mem_cons_self),
      append_nil]

/-- The next lock on the list, if it is of the vnode. -/
theorem Queued.nextActive_eq (eq : group vp = front ++ lock :: rest) :
    ((s.nextActive lock).filter fun next => (s.lock next).vnode = vp) = rest.head? := by
  obtain ⟨pre, post, active_eq, pre_ne, post_ne⟩ := queued.split vp
  have lock_mem : lock ∈ group vp := by rw [eq]; simp
  have nodup := queued.nodup vp
  rw [eq, nodup_append] at nodup
  have skipped : ∀ x ∈ pre ++ front, decide (x ≠ lock) = true := by
    intro x mem
    rw [decide_eq_true_iff]
    rintro rfl
    rcases mem_append.1 mem with mem | mem
    · exact pre_ne x mem (queued.vnode vp x lock_mem)
    · exact nodup.2.2 x mem x mem_cons_self rfl
  have list_eq : s.active (hashIndex vp) = pre ++ front ++ (lock :: (rest ++ post)) := by
    rw [active_eq, eq]
    simp
  rw [nextActive, queued.vnode vp lock lock_mem, list_eq, dropWhile_append_of_pos skipped,
    dropWhile_cons_of_neg (by simp), tail_cons]
  cases rest with
  | nil =>
    cases post with
    | nil => rfl
    | cons other post => simpa using post_ne other mem_cons_self
  | cons next rest =>
    have next_vnode := queued.vnode vp next (by rw [eq]; simp)
    simpa using next_vnode

theorem Queued.congr (lock : ∀ vp, ∀ x ∈ group vp, (s'.lock x).vnode = (s.lock x).vnode)
    (next : s.next ≤ s'.next) (active : s'.active = s.active) (filocks : s'.filocks = s.filocks) :
    Queued s' group where
  order := by
    rw [active]
    exact queued.order
  vnode := fun vp x mem => (lock vp x mem).trans (queued.vnode vp x mem)
  lt := fun vp x mem => (queued.lt vp x mem).trans_le next
  nodup := queued.nodup
  first := by
    rw [filocks]
    exact queued.first

theorem Queued.same (same : SameActive s s') : Queued s' group :=
  queued.congr (fun vp x mem => by rw [same.lock]) same.next.ge same.active same.filocks

end

/-! ### Deleting and inserting -/

theorem flatMap_update {vps : List ℕ} (absent : vp ∉ vps) :
    vps.flatMap (update group vp locks) = vps.flatMap group := by
  refine flatMap_congr fun vp' mem => update_of_ne ?_ _ _
  rintro rfl
  exact absent mem

/-- One group changes. -/
theorem Queued.update (queued : Queued s group)
    (order : ∀ i, ∃ order : List ℕ, order.Nodup ∧ (∀ vp ∈ order, hashIndex vp = i) ∧
      (∀ vp', hashIndex vp' = i → vp' ∉ order → update group vp locks vp' = []) ∧
        s'.active i = order.flatMap (update group vp locks))
    (lock : s'.lock = s.lock) (next : s'.next = s.next) (vnode : ∀ x ∈ locks, (s.lock x).vnode = vp)
    (lt : ∀ x ∈ locks, x < s.next) (nodup : locks.Nodup)
    (first : s'.filocks = update s.filocks vp locks.head?) :
    Queued s' (update group vp locks) where
  order := order
  vnode := by
    intro vp' x mem
    rw [lock]
    by_cases here : vp' = vp
    · subst here
      rw [update_self] at mem
      exact vnode x mem
    · rw [update_of_ne here] at mem
      exact queued.vnode vp' x mem
  lt := by
    intro vp' x mem
    rw [next]
    by_cases here : vp' = vp
    · subst here
      rw [update_self] at mem
      exact lt x mem
    · rw [update_of_ne here] at mem
      exact queued.lt vp' x mem
  nodup := by
    intro vp'
    by_cases here : vp' = vp
    · subst here
      rw [update_self]
      exact nodup
    · rw [update_of_ne here]
      exact queued.nodup vp'
  first := by
    intro vp'
    rw [first]
    by_cases here : vp' = vp
    · subst here
      rw [update_self, update_self]
    · rw [update_of_ne here, update_of_ne here]
      exact queued.first vp'

/-- One group changes in place. -/
theorem Queued.replace (queued : Queued s group) (some_there : group vp ≠ [])
    (active : ∀ pre post, s.active (hashIndex vp) = pre ++ (group vp ++ post) →
      (∀ x ∈ pre, (s.lock x).vnode ≠ vp) → (∀ x ∈ post, (s.lock x).vnode ≠ vp) →
      s'.active = Function.update s.active (hashIndex vp) (pre ++ (locks ++ post)))
    (lock : s'.lock = s.lock) (next : s'.next = s.next) (vnode : ∀ x ∈ locks, (s.lock x).vnode = vp)
    (lt : ∀ x ∈ locks, x < s.next) (nodup : locks.Nodup)
    (first : s'.filocks = Function.update s.filocks vp locks.head?) :
    Queued s' (Function.update group vp locks) := by
  refine queued.update (fun i => ?_) lock next vnode lt nodup first
  by_cases here : i = hashIndex vp
  · subst here
    obtain ⟨order, order_nodup, home, empty, active_eq⟩ := queued.order (hashIndex vp)
    have mem : vp ∈ order := by
      by_contra absent
      exact some_there (empty vp rfl absent)
    obtain ⟨before, after, rfl⟩ := append_of_mem mem
    have split := order_nodup
    rw [nodup_append, nodup_cons] at split
    have absent : vp ∉ before := fun mem => split.2.2 vp mem vp mem_cons_self rfl
    have other : ∀ vps : List ℕ, vp ∉ vps → ∀ x ∈ vps.flatMap group, (s.lock x).vnode ≠ vp := by
      intro vps absent x x_mem eq
      obtain ⟨vp', vp_mem, x_mem⟩ := mem_flatMap.1 x_mem
      rw [queued.vnode vp' x x_mem] at eq
      exact absent (eq ▸ vp_mem)
    refine ⟨before ++ vp :: after, order_nodup, home, fun vp' hash_eq not_mem => ?_, ?_⟩
    · rw [update_of_ne]
      · exact empty vp' hash_eq not_mem
      · rintro rfl
        exact not_mem mem
    · rw [active (before.flatMap group) (after.flatMap group)
        (by rw [active_eq]; simp) (other before absent) (other after split.2.1.1),
        update_self, flatMap_append, flatMap_cons, flatMap_update absent,
        flatMap_update split.2.1.1, update_self]
  · obtain ⟨order, order_nodup, home, empty, active_eq⟩ := queued.order i
    obtain ⟨pre, post, group_eq, pre_ne, post_ne⟩ := queued.split vp
    have absent : vp ∉ order := fun mem => here (home vp mem).symm
    refine ⟨order, order_nodup, home, fun vp' hash_eq not_mem => ?_, ?_⟩
    · rw [update_of_ne]
      · exact empty vp' hash_eq not_mem
      · rintro rfl
        exact here hash_eq.symm
    · rw [active pre post group_eq pre_ne post_ne, update_of_ne here,
        flatMap_update absent, active_eq]

/-- A lock is deleted from its group. -/
theorem Queued.delete (queued : Queued s group) (eq : group vp = front ++ lock :: rest) :
    Queued (s.deleteActiveLock lock) (Function.update group vp (front ++ rest)) := by
  have nodup := queued.nodup vp
  have lock_mem : lock ∈ group vp := by rw [eq]; simp
  have vnode_eq := queued.vnode vp lock lock_mem
  have inside : ∀ x ∈ front ++ rest, x ∈ group vp := by
    rw [eq]
    intro x mem
    rcases mem_append.1 mem with mem | mem
    · exact mem_append_left _ mem
    · exact mem_append_right front (mem_cons_of_mem lock mem)
  have not_front : lock ∉ front := by
    intro mem
    rw [eq, nodup_append] at nodup
    exact nodup.2.2 lock mem lock mem_cons_self rfl
  refine queued.replace
    (ne_nil_of_mem lock_mem) ?_ rfl rfl (fun x mem => queued.vnode vp x (inside x mem))
    (fun x mem => queued.lt vp x (inside x mem)) ?_ ?_
  · intro pre post active_eq pre_ne _
    have not_pre : lock ∉ pre := fun mem => pre_ne lock mem vnode_eq
    have erase_eq : (s.active (hashIndex vp)).erase lock = pre ++ (front ++ rest ++ post) := by
      rw [active_eq, eq, erase_append_right _ not_pre, append_assoc, cons_append,
        erase_append_right _ not_front, erase_cons_head, append_assoc]
    rw [deleteActiveLock]
    dsimp only
    rw [vnode_eq, erase_eq]
  · rw [eq] at nodup
    exact nodup.sublist (Sublist.append_left (sublist_cons_self lock rest) front)
  · rw [deleteActiveLock]
    dsimp only
    rw [vnode_eq, queued.first vp]
    cases front with
    | nil =>
      have next_eq := @Queued.nextActive_eq s group vp lock [] rest queued eq
      rw [eq, nil_append, head?_cons, if_pos rfl]
      exact congrArg (Function.update s.filocks vp) next_eq
    | cons first later =>
      rw [eq, cons_append, head?_cons, if_neg, cons_append, head?_cons]
      · rw [eq_comm, Function.update_eq_self_iff, queued.first vp, eq]
        rfl
      · intro same
        rw [Option.some.injEq] at same
        exact not_front (same ▸ mem_cons_self)

/-- Where `flk_insert_active_lock` puts a lock. -/
def insertAt (s : State) (new : LockId) (locks : List LockId) : List LockId :=
  locks.takeWhile (fun lock => (s.lock lock).start < (s.lock new).start) ++
    new :: locks.dropWhile (fun lock => (s.lock lock).start < (s.lock new).start)

theorem insertAt_perm : (s.insertAt new locks).Perm (new :: locks) := by
  refine perm_middle.trans ?_
  rw [takeWhile_append_dropWhile]

theorem insertAt_map :
    (s.insertAt new locks).map s.lock = insertByStart (s.lock new) (locks.map s.lock) := by
  rw [insertAt, insertByStart, map_append, map_cons, takeWhile_map, dropWhile_map]
  rfl

/-- The search for the place stops at the end of the group. -/
theorem insert_place {p q : LockId → Bool} {post : List LockId} (same : ∀ x ∈ locks, p x = q x)
    (stops : ∀ x ∈ post, p x = false) :
    (locks ++ post).takeWhile p ++ new :: (locks ++ post).dropWhile p =
      locks.takeWhile q ++ new :: locks.dropWhile q ++ post := by
  induction locks with
  | nil =>
    cases post with
    | nil => rfl
    | cons x post => simp [stops x mem_cons_self]
  | cons x locks ih =>
    obtain ⟨x_same, same⟩ := forall_mem_cons.1 same
    have later := ih same
    rw [cons_append, takeWhile_cons, dropWhile_cons, takeWhile_cons, dropWhile_cons, x_same]
    cases q x with
    | true => simpa using later
    | false => simp

theorem flatMap_without {order : List ℕ} (eq : group vp = []) :
    order.flatMap group = (order.filter (· ≠ vp)).flatMap group := by
  induction order with
  | nil => rfl
  | cons vp' order ih =>
    by_cases same : vp' = vp
    · rw [flatMap_cons, same, eq, nil_append, filter_cons_of_neg (by simp), ih]
    · rw [flatMap_cons, filter_cons_of_pos (by simpa using same), flatMap_cons, ih]

/-- The first lock of a file comes to the end of its list. -/
theorem Queued.insert_first (queued : Queued s group) (vnode_eq : (s.lock new).vnode = vp)
    (eq : group vp = [])
    (vnodes : ∀ x ∈ s.insertAt new (group vp), (s.lock x).vnode = vp)
    (lts : ∀ x ∈ s.insertAt new (group vp), x < s.next)
    (nodup : (s.insertAt new (group vp)).Nodup) :
    Queued (s.insertActiveLock new) (Function.update group vp (s.insertAt new (group vp))) := by
  have none_eq : s.filocks vp = none := by rw [queued.first vp, eq]; rfl
  have inserted : s.insertActiveLock new =
      { s with
        active := Function.update s.active (hashIndex vp) (s.active (hashIndex vp) ++ [new])
        filocks := Function.update s.filocks vp (some new) } := by
    rw [insertActiveLock]
    dsimp only
    rw [vnode_eq, none_eq]
  rw [eq] at vnodes lts nodup
  rw [inserted, eq]
  refine queued.update (fun i => ?_) rfl rfl vnodes lts nodup rfl
  obtain ⟨order, order_nodup, home, empty, active_eq⟩ := queued.order i
  by_cases here : i = hashIndex vp
  · subst here
    have absent : vp ∉ order.filter (· ≠ vp) := by simp
    refine ⟨order.filter (· ≠ vp) ++ [vp], ?_, ?_, ?_, ?_⟩
    · refine nodup_append.2 ⟨order_nodup.filter _, nodup_singleton vp, ?_⟩
      rintro x mem y y_mem rfl
      rw [mem_singleton] at y_mem
      exact absent (y_mem ▸ mem)
    · intro vp' mem
      rcases mem_append.1 mem with mem | mem
      · exact home vp' (mem_filter.1 mem).1
      · rw [mem_singleton.1 mem]
    · intro vp' hash_eq not_mem
      have other : vp' ≠ vp := by
        rintro rfl
        exact not_mem (by simp)
      rw [update_of_ne other]
      exact empty vp' hash_eq fun mem =>
        not_mem (mem_append_left _ (mem_filter.2 ⟨mem, by simpa using other⟩))
    · dsimp only
      rw [update_self, active_eq, flatMap_append, flatMap_update absent, flatMap_without eq,
        flatMap_singleton, update_self]
      rfl
  · have absent : vp ∉ order := fun mem => here (home vp mem).symm
    refine ⟨order, order_nodup, home, fun vp' hash_eq not_mem => ?_, ?_⟩
    · rw [update_of_ne]
      · exact empty vp' hash_eq not_mem
      · rintro rfl
        exact here hash_eq.symm
    · dsimp only
      rw [update_of_ne here, flatMap_update absent, active_eq]

/-- Another lock of a file comes to its place among the others. -/
theorem Queued.insert_later {first : LockId} {later : List LockId} (queued : Queued s group)
    (vnode_eq : (s.lock new).vnode = vp) (eq : group vp = first :: later)
    (vnodes : ∀ x ∈ s.insertAt new (group vp), (s.lock x).vnode = vp)
    (lts : ∀ x ∈ s.insertAt new (group vp), x < s.next)
    (nodup : (s.insertAt new (group vp)).Nodup) :
    Queued (s.insertActiveLock new) (Function.update group vp (s.insertAt new (group vp))) := by
  have first_eq : s.filocks vp = some first := by rw [queued.first vp, eq]; rfl
  have first_vnode := queued.vnode vp first (by rw [eq]; simp)
  refine queued.replace (by rw [eq]; simp) ?_ ?_ ?_ vnodes lts nodup ?_
  · intro pre post active_eq pre_ne post_ne
    rw [insertActiveLock]
    dsimp only
    rw [vnode_eq, first_eq]
    dsimp only
    have skipped : ∀ x ∈ pre, decide (x ≠ first) = true := by
      intro x mem
      rw [decide_eq_true_iff]
      rintro rfl
      exact pre_ne x mem first_vnode
    have front_eq : (s.active (hashIndex vp)).takeWhile (fun x => decide (x ≠ first)) = pre := by
      rw [active_eq, takeWhile_append_of_pos skipped, eq, cons_append,
        takeWhile_cons_of_neg (by simp), append_nil]
    have behind_eq : (s.active (hashIndex vp)).dropWhile
        (fun x => decide (x ≠ first)) = group vp ++ post := by
      rw [active_eq, dropWhile_append_of_pos skipped, eq, cons_append,
        dropWhile_cons_of_neg (by simp)]
    rw [front_eq, behind_eq, insertAt]
    refine congrArg (fun list => Function.update s.active (hashIndex vp) (pre ++ list))
      (insert_place ?_ ?_)
    · intro x mem
      simp [queued.vnode vp x mem]
    · intro x mem
      simp [post_ne x mem]
  · rw [insertActiveLock]
    dsimp only
    rw [vnode_eq, first_eq]
  · rw [insertActiveLock]
    dsimp only
    rw [vnode_eq, first_eq]
  · rw [insertActiveLock]
    dsimp only
    rw [vnode_eq, first_eq, insertAt, eq]
    dsimp only
    by_cases lt : (s.lock first).start < (s.lock new).start
    · rw [if_neg (by rw [BitVec.not_le]; exact lt),
        takeWhile_cons_of_pos (by simpa using lt), cons_append, head?_cons,
        eq_comm, update_eq_self_iff, first_eq]
    · rw [if_pos (BitVec.not_lt.1 lt), takeWhile_cons_of_neg (by simpa using lt),
        nil_append, head?_cons]

/-- A lock gets into the group of its vnode. -/
theorem Queued.insert (queued : Queued s group) (vnode_eq : (s.lock new).vnode = vp)
    (new_lt : new < s.next) (fresh : new ∉ group vp) :
    Queued (s.insertActiveLock new) (Function.update group vp (s.insertAt new (group vp))) := by
  have vnodes : ∀ x ∈ s.insertAt new (group vp), (s.lock x).vnode = vp := by
    intro x mem
    rcases mem_cons.1 (insertAt_perm.mem_iff.1 mem) with rfl | mem
    · exact vnode_eq
    · exact queued.vnode vp x mem
  have lts : ∀ x ∈ s.insertAt new (group vp), x < s.next := by
    intro x mem
    rcases mem_cons.1 (insertAt_perm.mem_iff.1 mem) with rfl | mem
    · exact new_lt
    · exact queued.lt vp x mem
  have nodup : (s.insertAt new (group vp)).Nodup :=
    insertAt_perm.nodup_iff.2 (nodup_cons.2 ⟨fresh, queued.nodup vp⟩)
  cases eq : group vp with
  | nil =>
    rw [← eq]
    exact queued.insert_first vnode_eq eq vnodes lts nodup
  | cons first later =>
    rw [← eq]
    exact queued.insert_later vnode_eq eq vnodes lts nodup

end State

end Flock

end Sol25
