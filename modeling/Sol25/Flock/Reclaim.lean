import Sol25.Flock.Execute

/-!
# Reclaiming locks

`create_flock` writes an active lock down as a `flock_t` that can be asked for again. For the locks
of one owner that asks for locks and unlocks on this host only, it is told which requests keep this
true.
-/

namespace Sol25

open List Option

namespace Flock

def createFlock (lp : Lock) : FlockT where
  type := lp.type
  whence := 0
  start := lp.start
  len := if lp.stop = maxUOffT then 0 else lp.stop - lp.start + 1
  owner := lp.owner

/-- The range of a lock can be written down and asked for again. -/
def RoundTrips (lock : Lock) : Prop :=
  ∀ size offset, convertLockData (createFlock lock) size offset = .ok (lock.start, lock.stop) ∧
    checkLockData lock.start lock.stop = .ok ()

/-- A range that `flk_check_lock_data` accepts and whose length is an `off_t`. -/
structure Lock.Plain (lock : Lock) : Prop where
  /-- the first byte can be asked for -/
  start : lock.start.toNat < 2 ^ 31
  /-- so can the last one, or the lock reaches to the end of the file -/
  stop : lock.stop.toNat < 2 ^ 31 ∨ lock.stop = maxUOffT
  /-- not all the bytes that can be asked for -/
  half : ¬ (lock.start.toNat = 0 ∧ lock.stop.toNat = 2 ^ 31 - 1)

variable {lock request : Lock} {locks : List Lock}

theorem maxEnd_toNat : maxEnd.toNat = 2 ^ 31 - 1 := rfl

theorem maxUOffT_toNat : maxUOffT.toNat = 2 ^ 32 - 1 := rfl

theorem checkLockData_ok {start stop : UOff} : checkLockData start stop = .ok () ↔
    start.toNat < 2 ^ 31 ∧ (stop.toNat < 2 ^ 31 ∨ stop = maxUOffT) ∧ start.toNat ≤ stop.toNat := by
  rw [checkLockData]
  split_ifs with large backward
  · rw [lt_iff_toNat, lt_iff_toNat, maxEnd_toNat] at large
    refine iff_of_false nofun fun ok => ?_
    rcases large with large | ⟨large, ne⟩
    · omega
    · exact ok.2.1.elim (by omega) ne
  · rw [lt_iff_toNat] at backward
    exact iff_of_false nofun fun ok => by omega
  · rw [lt_iff_toNat, lt_iff_toNat, maxEnd_toNat, not_or, not_and] at large
    rw [lt_iff_toNat] at backward
    refine iff_of_true rfl ⟨by omega, ?_, by omega⟩
    by_cases to_end : stop = maxUOffT
    · exact .inr to_end
    · exact .inl (by by_contra beyond; exact large.2 (by omega) to_end)

theorem roundTrips_of_plain (nonempty : lock.Nonempty) (plain : lock.Plain) : RoundTrips lock := by
  intro size offset
  have start_le := nonempty_iff.1 nonempty
  refine ⟨?_, checkLockData_ok.2 ⟨plain.start, plain.stop, start_le⟩⟩
  have start_lt := plain.start
  have half := plain.half
  rw [convertLockData, createFlock]
  dsimp only
  rw [if_pos rfl]
  by_cases to_end : lock.stop = maxUOffT
  · rw [if_pos to_end, to_end]
    rfl
  · have stop_lt := plain.stop.resolve_right to_end
    rw [if_neg to_end]
    have len_eq : (lock.stop - lock.start + 1).toNat = lock.stop.toNat - lock.start.toNat + 1 := by
      bv_omega
    have not_zero : ¬ lock.stop - lock.start + 1 = 0 := by
      rw [← BitVec.toNat_inj, len_eq]
      simp
    have positive : 0 < (lock.stop - lock.start + 1).toInt := by
      rw [BitVec.toInt_eq_toNat_cond, len_eq]
      omega
    have stop_eq : lock.start + (lock.stop - lock.start + 1) - 1 = lock.stop := by bv_omega
    change (if lock.stop - lock.start + 1 = 0 then _ else _) = _
    rw [if_neg not_zero, if_pos positive, stop_eq]

/-! ### Which requests keep the locks plain -/

/-- The first byte beyond those that can be asked for. -/
def beyond : UOff := maxEnd + 1

theorem beyond_toNat : beyond.toNat = 2 ^ 31 := rfl

/-- What a request must not do: take the last byte that can be asked for from a lock of another type
that reaches beyond it, or make a lock of all the bytes that can be asked for and no others. -/
structure Keeps (locks : List Lock) (type : LockType) (range : UOff × UOff) : Prop where
  /-- no lock is cut at the end of what can be asked for -/
  tail : range.2 = maxEnd → ∀ held, held ≠ type → ¬ Held locks held beyond
  /-- no lock has just the bytes that can be asked for -/
  half : type ≠ .unlck →
    (∀ byte : UOff, byte.toNat < 2 ^ 31 → range.1 ≤ byte ∧ byte ≤ range.2 ∨ Held locks type byte) →
    range.1 ≤ beyond ∧ beyond ≤ range.2 ∨ Held locks type beyond

theorem Spread.compare (spread : Spread locks) {lock' : Lock} (mem : lock ∈ locks)
    (mem' : lock' ∈ locks) :
    lock = lock' ∨ Ahead lock lock' ∨ Ahead lock' lock := by
  obtain ⟨i, i_lt, rfl⟩ := mem_iff_getElem.1 mem
  obtain ⟨j, j_lt, rfl⟩ := mem_iff_getElem.1 mem'
  have ahead := pairwise_iff_getElem.1 spread.ahead
  rcases Nat.lt_trichotomy i j with lt | rfl | lt
  · exact .inr (.inl (ahead i j i_lt j_lt lt))
  · exact .inl rfl
  · exact .inr (.inr (ahead j i j_lt i_lt lt))

theorem Spread.not_held_next (spread : Spread locks) (mem : lock ∈ locks) {byte : UOff}
    (next : byte.toNat = lock.stop.toNat + 1 ∨ byte.toNat + 1 = lock.start.toNat) :
    ¬ Held locks lock.type byte := by
  rintro ⟨other, other_mem, type_eq, has⟩
  rw [has_iff] at has
  have other_le := nonempty_iff.1 (spread.nonempty other other_mem)
  have lock_le := nonempty_iff.1 (spread.nonempty lock mem)
  rcases spread.compare mem other_mem with rfl | ahead | ahead
  · omega
  · have gap := ahead.2 type_eq.symm
    omega
  · have gap := ahead.2 type_eq
    omega

/-- Plain locks hold all the bytes beyond or none of them, and the last byte before with them. -/
theorem held_beyond (plain : ∀ lock ∈ locks, lock.Plain) {type : LockType} {byte byte' : UOff}
    (le : 2 ^ 31 ≤ byte.toNat) (le' : 2 ^ 31 - 1 ≤ byte'.toNat) (held : Held locks type byte) :
    Held locks type byte' := by
  obtain ⟨lock, mem, type_eq, has⟩ := held
  have start_lt := (plain lock mem).start
  rw [has_iff] at has
  refine ⟨lock, mem, type_eq, has_iff.2 ⟨by omega, ?_⟩⟩
  rcases (plain lock mem).stop with stop_lt | stop_eq
  · omega
  · rw [stop_eq, maxUOffT_toNat]
    omega

theorem execAll_plain (spread : Spread locks) (plain : ∀ lock ∈ locks, lock.Plain)
    (asked : request.type = .rdlck ∨ request.type = .wrlck ∨ request.type = .unlck)
    (accepted : checkLockData request.start request.stop = .ok ())
    (keeps : Keeps locks request.type (request.start, request.stop)) :
    ∀ lock ∈ execAll request locks, lock.Plain := by
  obtain ⟨start_lt, stop_lt, start_le⟩ := checkLockData_ok.1 accepted
  have nonempty : request.Nonempty := nonempty_iff.2 start_le
  have spread' := execAll_spread spread nonempty asked
  have held := @execAll_held request locks spread nonempty asked
  have has_beyond : ∀ {byte byte' : UOff}, 2 ^ 31 ≤ byte.toNat → 2 ^ 31 - 1 ≤ byte'.toNat →
      request.Has byte → request.Has byte' := by
    intro byte byte' le le' has
    rw [has_iff] at has ⊢
    rcases stop_lt with stop_lt | stop_eq
    · omega
    · rw [stop_eq, maxUOffT_toNat] at has ⊢
      omega
  intro lock mem
  have known := spread'.known lock mem
  have lock_le := nonempty_iff.1 (spread'.nonempty lock mem)
  have start_held : Held (execAll request locks) lock.type lock.start :=
    ⟨lock, mem, rfl, has_iff.2 ⟨le_refl _, lock_le⟩⟩
  have stop_held : Held (execAll request locks) lock.type lock.stop :=
    ⟨lock, mem, rfl, has_iff.2 ⟨lock_le, le_refl _⟩⟩
  constructor
  case start =>
    by_contra large
    -- The byte in front of the lock is held with its first byte, unless the request took it.
    have before : (lock.start - 1).toNat + 1 = lock.start.toNat := by bv_omega
    have not_held := spread'.not_held_next mem (.inr before)
    rw [held known] at start_held not_held
    rcases start_held with ⟨same, has⟩ | ⟨outside, start_held⟩
    · exact not_held (.inl ⟨same, has_beyond (by omega) (by omega) has⟩)
    · have before_held : Held locks lock.type (lock.start - 1) :=
        held_beyond plain (by omega) (by omega) start_held
      have taken : request.Has (lock.start - 1) := by
        by_contra not_taken
        exact not_held (.inr ⟨not_taken, before_held⟩)
      have low : (lock.start - 1).toNat < 2 ^ 31 := by
        by_contra high
        exact outside (has_beyond (not_lt.1 high) (by omega) taken)
      have stop_eq : request.stop = maxEnd := by
        refine BitVec.eq_of_toNat_eq ?_
        rw [has_iff] at outside taken
        rw [maxEnd_toNat]
        omega
      refine keeps.tail stop_eq lock.type (fun same => not_held (.inl ⟨same, taken⟩)) ?_
      exact held_beyond plain (by omega) (by rw [beyond_toNat]; omega) start_held
  case stop =>
    by_contra large
    rw [not_or] at large
    have stop_ne : lock.stop.toNat ≠ 2 ^ 32 - 1 := fun same => large.2 (BitVec.eq_of_toNat_eq same)
    have behind : (lock.stop + 1).toNat = lock.stop.toNat + 1 := by bv_omega
    have not_held := spread'.not_held_next mem (.inl behind)
    rw [held known] at stop_held not_held
    rcases stop_held with ⟨same, has⟩ | ⟨outside, stop_held⟩
    · exact not_held (.inl ⟨same, has_beyond (by omega) (by omega) has⟩)
    · refine not_held (.inr ⟨fun has => outside (has_beyond (by omega) (by omega) has), ?_⟩)
      exact held_beyond plain (by omega) (by omega) stop_held
  case half =>
    rintro ⟨start_eq, stop_eq⟩
    have not_held : ¬ Held (execAll request locks) lock.type beyond :=
      spread'.not_held_next mem (.inl (by rw [stop_eq]; rfl))
    have all_held : ∀ byte : UOff, byte.toNat < 2 ^ 31 →
        Held (execAll request locks) lock.type byte := fun byte lt =>
      ⟨lock, mem, rfl, has_iff.2 ⟨by omega, by omega⟩⟩
    have same : lock.type = request.type := by
      rcases (held known).1 (all_held request.start start_lt) with ⟨same, -⟩ | ⟨outside, -⟩
      · exact same
      · exact absurd (has_iff.2 ⟨le_refl _, start_le⟩) outside
    rw [held known, same] at not_held
    refine not_held ?_
    have reaches := keeps.half
        (by rcases known with known | known <;> rw [← same, known] <;> decide) fun byte lt => by
      rcases (held known).1 (all_held byte lt) with ⟨-, has⟩ | ⟨-, old⟩
      · exact .inl has
      · exact .inr (same ▸ old)
    by_cases has : request.Has beyond
    · exact .inl ⟨rfl, has⟩
    · exact .inr ⟨has, reaches.resolve_left has⟩

/-- Only such requests keep the locks plain. -/
theorem keeps_of_plain (spread : Spread locks)
    (asked : request.type = .rdlck ∨ request.type = .wrlck ∨ request.type = .unlck)
    (accepted : checkLockData request.start request.stop = .ok ())
    (plain : ∀ lock ∈ execAll request locks, lock.Plain) :
    Keeps locks request.type (request.start, request.stop) := by
  obtain ⟨start_lt, -, start_le⟩ := checkLockData_ok.1 accepted
  have nonempty : request.Nonempty := nonempty_iff.2 start_le
  have spread' := execAll_spread spread nonempty asked
  have held := @execAll_held request locks spread nonempty asked
  constructor
  · rintro stop_eq type other ⟨lock, mem, type_eq, has⟩
    have known := spread.known lock mem
    rw [type_eq] at known
    have stop_le : request.stop.toNat = 2 ^ 31 - 1 := by
      rw [show request.stop = maxEnd from stop_eq]; rfl
    have outside : ¬ request.Has beyond := by
      rw [has_iff, beyond_toNat]
      omega
    have cut := @held_beyond _ plain type beyond maxEnd (by rw [beyond_toNat])
      (by rw [maxEnd_toNat])
      ((held known).2 (.inr ⟨outside, lock, mem, type_eq, has⟩))
    rcases (held known).1 cut with ⟨same, -⟩ | ⟨not_taken, -⟩
    · exact other same
    · refine not_taken (has_iff.2 ?_)
      rw [maxEnd_toNat]
      omega
  · intro locks_type all
    have known : request.type = .rdlck ∨ request.type = .wrlck := by tauto
    have all_held : ∀ byte : UOff, byte.toNat < 2 ^ 31 →
        Held (execAll request locks) request.type byte := by
      intro byte lt
      rw [held known]
      by_cases has : request.Has byte
      · exact .inl ⟨rfl, has⟩
      · exact .inr ⟨has, (all byte lt).resolve_left has⟩
    by_contra none_beyond
    rw [not_or] at none_beyond
    obtain ⟨lock, mem, type_eq, has⟩ := all_held 0 (by decide)
    have start_eq : lock.start.toNat = 0 := Nat.le_zero.1 (has_iff.1 has).1
    have not_beyond : ¬ lock.Has beyond := by
      intro has
      rcases (held known).1 ⟨lock, mem, type_eq, has⟩ with ⟨-, inside⟩ | ⟨-, old⟩
      · exact none_beyond.1 inside
      · exact none_beyond.2 old
    rw [has_iff, beyond_toNat] at not_beyond
    have half := (plain lock mem).half
    have behind : (lock.stop + 1).toNat = lock.stop.toNat + 1 := by bv_omega
    have not_held := spread'.not_held_next mem (.inl behind)
    rw [type_eq] at not_held
    exact not_held (all_held (lock.stop + 1) (by omega))

theorem execAll_plain_iff (spread : Spread locks) (plain : ∀ lock ∈ locks, lock.Plain)
    (asked : request.type = .rdlck ∨ request.type = .wrlck ∨ request.type = .unlck)
    (accepted : checkLockData request.start request.stop = .ok ()) :
    (∀ lock ∈ execAll request locks, lock.Plain) ↔
      Keeps locks request.type (request.start, request.stop) :=
  ⟨keeps_of_plain spread asked accepted, execAll_plain spread plain asked accepted⟩

/-! ### A call -/

namespace State

variable {s s' : State} {x : LockId} {owner : Owner}

/-- A request is executed, if at all, on the active lists as they were. -/
theorem blockRequest_cases (blockedByActive : Bool) : ∃ s1, SameActive s s1 ∧
    ((s.blockRequest x blockedByActive).2 = s1 ∨
      (s.blockRequest x blockedByActive).2 = s1.executeRequest x) := by
  rw [blockRequest]
  dsimp only
  by_cases willing : (s.lock x).willing = true
  · rw [if_pos willing]
    generalize edges_eq :
      (sleepingEdges x (s.sleepingOf (s.lock x).vnode) ⟨none, false, [], s⟩).bind _ = edges
    have same : SameActive s (stateOf edges) := by
      rw [← edges_eq]
      refine @bind_active ⟨none, false, [], s⟩ _ _ (sleepingEdges_active _ _) fun e => ?_
      split_ifs
      · exact activeEdges_active _ e
      · exact .refl _
    cases edges with
    | error s1 => exact ⟨s1, same, .inl rfl⟩
    | ok e =>
      dsimp only
      split_ifs
      · exact ⟨e.state, same, .inr rfl⟩
      · exact ⟨_, same.trans checkDeadlock_active, .inl rfl⟩
      · exact ⟨_, same.trans (checkDeadlock_active.trans waitRequest_active), .inl rfl⟩
  · rw [if_neg willing]
    split_ifs
    · exact ⟨s, .refl s, .inl rfl⟩
    · exact ⟨s, .refl s, .inr rfl⟩

theorem grantRequest_cases : ∃ s1, SameActive s s1 ∧
    ((s.grantRequest x).2 = s1 ∨ (s.grantRequest x).2 = s1.executeRequest x) := by
  rw [grantRequest]
  dsimp only
  generalize eq : recomputeAgainst x _ _ = s2
  have same : SameActive s s2 := by
    rw [← eq]
    exact (recomputeAgainst_active _).after rfl rfl rfl rfl
  split_ifs
  · refine ⟨_, ?_, .inr rfl⟩
    exact same.trans ⟨rfl, rfl, rfl, rfl⟩
  · refine ⟨_, ?_, .inl rfl⟩
    exact same.trans (checkDeadlock_active.after rfl rfl rfl rfl)
  · refine ⟨_, ?_, .inr rfl⟩
    exact same.trans (checkDeadlock_active.after rfl rfl rfl rfl)

theorem processRequest_cases : ∃ s1, SameActive s s1 ∧
    ((s.processRequest x).2 = s1 ∨ (s.processRequest x).2 = s1.executeRequest x) := by
  rw [processRequest]
  cases s.scanActive x (s.activeOf (s.lock x).vnode) with
  | blocked =>
    dsimp only
    split_ifs
    · exact blockRequest_cases true
    · exact ⟨s, .refl s, .inl rfl⟩
  | covered => exact ⟨s, .refl s, .inr rfl⟩
  | clear =>
    dsimp only
    split_ifs
    · exact blockRequest_cases false
    · exact grantRequest_cases

theorem Owned.getLock (owned : Owned s owner) (desc : Lock) (pvertex : Option ℕ) :
    Owned (s.getLock desc pvertex).2 owner ∧ ∀ vp,
      (s.getLock desc pvertex).2.locksOf vp = s.locksOf vp := by
  obtain ⟨group, queued⟩ := owned.queued
  have old : ∀ vp, ∀ x ∈ group vp, (s.getLock desc pvertex).2.lock x = s.lock x := fun vp x mem =>
    Function.update_of_ne (queued.lt vp x mem).ne _ _
  have queued' : Queued (s.getLock desc pvertex).2 group :=
    queued.congr (fun vp x mem => by rw [old vp x mem]) (Nat.le_succ _) rfl rfl
  have locks_eq : ∀ vp, (s.getLock desc pvertex).2.locksOf vp = s.locksOf vp := by
    intro vp
    rw [queued'.locksOf_eq, queued.locksOf_eq]
    exact map_congr_left (old vp)
  refine ⟨⟨⟨group, queued'⟩, fun vp => ?_, fun vp => ?_⟩, locks_eq⟩
  · rw [locks_eq]
    exact owned.spread vp
  · rw [locks_eq]
    exact owned.owner vp

/-- A call that sets or clears locks, if its range is accepted and nothing is in its way. -/
def Sets (lckdat : FlockT) (cmd : Cmd) (flag : Access) : Prop :=
  cmd.io = false ∧ (lckdat.type = .unlck ∨
    cmd.set = true ∧
      (lckdat.type = .rdlck ∧ flag.read = true ∨ lckdat.type = .wrlck ∧ flag.write = true))

/-- The locks after a call: as they were, or as the request makes them. -/
structure Called (s : State) (owner : Owner) (vp : ℕ) (lckdat : FlockT) (cmd : Cmd) (flag : Access)
    (range : UOff × UOff) (s' : State) : Prop where
  /-- the locks are of one owner -/
  owned : Owned s' owner
  /-- the locks -/
  locks : (∀ vp', s'.locksOf vp' = s.locksOf vp') ∨ Sets lckdat cmd flag ∧ ∃ desc : Lock,
    desc.type = lckdat.type ∧
    desc.start = range.1 ∧ desc.stop = range.2 ∧
    ∀ vp', s'.locksOf vp' = if vp' = vp then execAll desc (s.locksOf vp') else s.locksOf vp'

theorem Called.same {vp : ℕ} {lckdat : FlockT} {cmd : Cmd} {flag : Access} {range : UOff × UOff}
    {s'' : State} (called : Called s owner vp lckdat cmd flag range s') (same : SameActive s' s'') :
    Called s owner vp lckdat cmd flag range s'' := by
  obtain ⟨owned, locks_eq⟩ := called.owned.same same
  refine ⟨owned, called.locks.imp (fun unchanged vp' => (locks_eq vp').trans (unchanged vp')) ?_⟩
  rintro ⟨sets, desc, type_eq, start_eq, stop_eq, changed⟩
  exact ⟨sets, desc, type_eq, start_eq, stop_eq, fun vp' => (locks_eq vp').trans (changed vp')⟩

theorem finishIo_active : SameActive s (s.finishIo x) := by
  rw [finishIo]
  split_ifs
  · exact wakeup_active true
  · exact .refl s

theorem createGraph_active {vp : ℕ} {seen : LockmgrStatus} :
    SameActive s (s.createGraph vp seen) := by
  rw [createGraph]
  split_ifs
  · exact ⟨rfl, rfl, rfl, rfl⟩
  · exact .refl s

/-- A new request is executed. -/
theorem Owned.executeNew (owned : Owned s owner) {desc : Lock} {s2 : State}
    (same : SameActive (s.getLock desc none).2 s2) (owner_eq : desc.owner = owner)
    (nonempty : desc.Nonempty)
    (asked : desc.type = .rdlck ∨ desc.type = .wrlck ∨ desc.type = .unlck)
    (not_io : desc.io = false) :
    Owned (s2.executeRequest s.next) owner ∧ ∀ vp, (s2.executeRequest s.next).locksOf vp =
      if vp = desc.vnode then execAll desc (s.locksOf vp) else s.locksOf vp := by
  obtain ⟨group, queued⟩ := owned.queued
  obtain ⟨new_owned, new_locks⟩ := owned.getLock desc none
  obtain ⟨owned2, locks2⟩ := new_owned.same same
  have desc_eq : s2.lock s.next = desc := by
    rw [same.lock]
    exact Function.update_self ..
  have absent : ∀ i, s.next ∉ s2.active i := by
    intro i mem
    rw [same.active] at mem
    obtain ⟨vp, mem⟩ := queued.mem_active mem
    exact absurd (queued.lt vp s.next mem) (lt_irrefl _)
  have executed := @Owned.executeRequest s2 s.next owner owned2
      (by rw [same.next]; exact Nat.lt_succ_self _) absent
    (by rw [desc_eq]; exact owner_eq) (by rw [desc_eq]; exact nonempty)
      (by rw [desc_eq]; exact asked)
    (by rw [desc_eq]; exact not_io)
  rw [desc_eq] at executed
  refine ⟨executed.1, fun vp => ?_⟩
  rw [executed.2 vp, locks2, new_locks]

/-- The request of a call is executed, or is only a look at the locks. -/
theorem Owned.calledNew (owned : Owned s owner) {graph s2 : State} (graph_same : SameActive s graph)
    {lckdat : FlockT} {cmd : Cmd} {flag : Access} {desc : Lock}
    (same : SameActive (graph.getLock desc none).2 s2) (owner_eq : desc.owner = owner)
    (nonempty : desc.Nonempty)
    (asked : desc.type = .rdlck ∨ desc.type = .wrlck ∨ desc.type = .unlck)
    (type_eq : desc.type = lckdat.type) (io_eq : desc.io = cmd.io)
    (sets : cmd.io = false → Sets lckdat cmd flag) :
    Called s owner desc.vnode lckdat cmd flag (desc.start, desc.stop) s2 ∧
      Called s owner desc.vnode lckdat cmd flag (desc.start, desc.stop)
        (s2.executeRequest graph.next) := by
  obtain ⟨graph_owned, graph_locks⟩ := owned.same graph_same
  obtain ⟨new_owned, new_locks⟩ := graph_owned.getLock desc none
  obtain ⟨owned2, locks2⟩ := new_owned.same same
  have looked : Called s owner desc.vnode lckdat cmd flag (desc.start, desc.stop) s2 :=
    ⟨owned2, .inl fun vp => ((locks2 vp).trans (new_locks vp)).trans (graph_locks vp)⟩
  refine ⟨looked, ?_⟩
  cases io : cmd.io with
  | true =>
    have desc_eq : s2.lock graph.next = desc := by
      rw [same.lock]
      exact Function.update_self ..
    rw [State.executeRequest, desc_eq, io_eq, io, if_pos rfl]
    exact looked
  | false =>
    obtain ⟨owned', locks'⟩ := graph_owned.executeNew same owner_eq nonempty asked (io_eq.trans io)
    refine ⟨owned', .inr ⟨sets io, desc, type_eq, rfl, rfl, fun vp => ?_⟩⟩
    rw [locks' vp, graph_locks]

/-- What a call of one owner on this host does to the active locks. -/
theorem Owned.reclock (owned : Owned s owner) {vp : ℕ} {lckdat flock : FlockT} {cmd : Cmd}
    {flag : Access} {size : Except Errno UOff} {offset : UOff} {seen : LockmgrStatus}
    {answer : Answer} (owner_eq : lckdat.owner = owner) (here : cmd.remote = false)
    (call : s.reclock vp lckdat cmd flag size offset seen = some (answer, flock, s')) :
    (∀ vp', s'.locksOf vp' = s.locksOf vp') ∧ Owned s' owner ∨
      ∃ range, requestRange lckdat cmd size offset = .ok range ∧
        Called s owner vp lckdat cmd flag range s' := by
  rw [State.reclock] at call
  by_cases denied : cmd.set ∧
    (lckdat.type = .rdlck ∧ ¬ flag.read ∨ lckdat.type = .wrlck ∧ ¬ flag.write)
  · rw [if_pos denied] at call
    obtain ⟨rfl, rfl, rfl⟩ := Prod.mk.inj (some.inj call) |>.imp_right Prod.mk.inj
    exact .inl ⟨fun _ => rfl, owned⟩
  rw [if_neg denied] at call
  cases range_eq : requestRange lckdat cmd size offset with
  | error errno =>
    rw [range_eq] at call
    obtain ⟨rfl, rfl, rfl⟩ := Prod.mk.inj (some.inj call) |>.imp_right Prod.mk.inj
    exact .inl ⟨fun _ => rfl, owned⟩
  | ok range =>
    rw [range_eq] at call
    dsimp only at call
    generalize desc_eq :
      (⟨vp, lckdat.owner, lckdat.type, range.1, range.2, cmd.io, cmd.sleep, cmd.remote⟩ : Lock) =
        desc at call
    have vnode_eq : desc.vnode = vp := by rw [← desc_eq]
    have type_eq : desc.type = lckdat.type := by rw [← desc_eq]
    have range_desc : (desc.start, desc.stop) = range := by rw [← desc_eq]
    by_cases nonempty : desc.Nonempty
    case neg =>
      rw [if_pos nonempty] at call
      exact nomatch call
    rw [if_neg (not_not.2 nonempty), here, if_neg (by simp)] at call
    have graph_same : SameActive s (s.createGraph vp seen) := createGraph_active
    obtain ⟨graph_owned, graph_locks⟩ := owned.same graph_same
    have called := fun {s2 : State}
        (same : SameActive ((s.createGraph vp seen).getLock desc none).2 s2) asked sets =>
      @Owned.calledNew s owner owned (s.createGraph vp seen) s2 graph_same lckdat cmd flag desc same
        (by rw [← desc_eq]; exact owner_eq) nonempty asked type_eq (by rw [← desc_eq]) sets
    rw [vnode_eq, range_desc] at called
    generalize s.createGraph vp seen = graph at call graph_same graph_owned graph_locks called
    have unchanged : Called s owner vp lckdat cmd flag range graph :=
      ⟨graph_owned, .inl graph_locks⟩
    refine .inr ⟨range, rfl, ?_⟩
    -- Read and write locks are processed alike.
    have processed : (lckdat.type = .rdlck ∨ lckdat.type = .wrlck) →
        (if ¬ cmd.set ∧ ¬ cmd.io then some (Answer.ok, graph.queryLock desc lckdat, graph)
          else
            let answered := (graph.getLock desc none).2.processRequest (graph.getLock desc none).1
            if answered.1 = .ok ∧ cmd.io then
              some (.ok, { lckdat with type := .unlck },
                answered.2.finishIo (graph.getLock desc none).1)
            else some (answered.1, lckdat, answered.2)) = some (answer, flock, s') →
        Called s owner vp lckdat cmd flag range s' := by
      intro lock_type call
      by_cases query : ¬ cmd.set = true ∧ ¬ cmd.io = true
      · rw [if_pos query] at call
        obtain ⟨rfl, rfl, rfl⟩ := Prod.mk.inj (some.inj call) |>.imp_right Prod.mk.inj
        exact unchanged
      rw [if_neg query] at call
      have sets : cmd.io = false → Sets lckdat cmd flag := by
        intro io
        have set : cmd.set = true := by
          by_contra not_set
          exact query ⟨not_set, by simp [io]⟩
        refine ⟨io, .inr ⟨set, ?_⟩⟩
        by_contra refused
        refine denied ⟨set, ?_⟩
        tauto
      obtain ⟨s1, same, result⟩ :=
        @processRequest_cases (graph.getLock desc none).2 (graph.getLock desc none).1
      obtain ⟨looked, executed⟩ := called same (by rw [type_eq]; tauto) sets
      have answered : Called s owner vp lckdat cmd flag range
          ((graph.getLock desc none).2.processRequest (graph.getLock desc none).1).2 := by
        rcases result with result | result
        · rw [result]
          exact looked
        · rw [result]
          exact executed
      dsimp only at call
      split_ifs at call
      · obtain ⟨rfl, rfl, rfl⟩ := Prod.mk.inj (some.inj call) |>.imp_right Prod.mk.inj
        exact answered.same finishIo_active
      · obtain ⟨rfl, rfl, rfl⟩ := Prod.mk.inj (some.inj call) |>.imp_right Prod.mk.inj
        exact answered
    cases lock_type : lckdat.type with
    | rdlck =>
      rw [lock_type] at call
      exact processed (.inl lock_type) call
    | wrlck =>
      rw [lock_type] at call
      exact processed (.inr lock_type) call
    | unlck =>
      rw [lock_type] at call
      obtain ⟨rfl, rfl, rfl⟩ := Prod.mk.inj (some.inj call) |>.imp_right Prod.mk.inj
      obtain ⟨-, executed⟩ := called (.refl _) (.inr (.inr (type_eq.trans lock_type))) fun io =>
          ⟨io, .inl lock_type⟩
      exact executed.same finishIo_active
    | unlksys =>
      rw [lock_type] at call
      obtain ⟨rfl, rfl, rfl⟩ := Prod.mk.inj (some.inj call) |>.imp_right Prod.mk.inj
      exact unchanged
    | other =>
      rw [lock_type] at call
      obtain ⟨rfl, rfl, rfl⟩ := Prod.mk.inj (some.inj call) |>.imp_right Prod.mk.inj
      exact unchanged

end State

theorem requestRange_accepted {lckdat : FlockT} {cmd : Cmd} {size : Except Errno UOff}
    {offset : UOff} {range : UOff × UOff} (here : cmd.remote = false)
    (accepted : requestRange lckdat cmd size offset = .ok range) :
    checkLockData range.1 range.2 = .ok () := by
  rw [requestRange, here, if_neg (by simp)] at accepted
  cases converted : convertLockData lckdat size offset with
  | error errno =>
    rw [converted] at accepted
    exact nomatch accepted
  | ok range' =>
    rw [converted] at accepted
    change (checkLockData range'.1 range'.2 >>= fun _ => pure range') = .ok range at accepted
    cases checked : checkLockData range'.1 range'.2 with
    | error errno =>
      rw [checked] at accepted
      exact nomatch accepted
    | ok done =>
      rw [checked] at accepted
      obtain rfl := Except.ok.inj accepted
      exact checked

/-! ### Runs of one owner -/

abbrev Condition := State → ℕ → FlockT → Cmd → Access → Except Errno UOff → UOff → Prop

/-- The states that calls of one owner on this host lead to, if each call meets the condition. -/
inductive OwnerRun (meets : Condition) (owner : Owner) : State → Prop
  /-- the state at boot -/
  | init : OwnerRun meets owner State.init
  /-- one call more -/
  | call {s s' : State} (run : OwnerRun meets owner s) {vp : ℕ} {lckdat flock : FlockT} {cmd : Cmd}
      {flag : Access}
      {size : Except Errno UOff} {offset : UOff} {seen : LockmgrStatus}
        {answer : Answer} (owner_eq : lckdat.owner = owner)
      (here : cmd.remote = false) (met : meets s vp lckdat cmd flag size offset)
      (next : s.reclock vp lckdat cmd flag size offset seen = some (answer, flock, s')) :
        OwnerRun meets owner s'

/-- A call that sets or clears locks keeps them plain. -/
def KeepsPlain : Condition := fun s vp lckdat cmd flag size offset =>
  State.Sets lckdat cmd flag → ∀ range, requestRange lckdat cmd size offset = .ok range →
    Keeps (s.locksOf vp) lckdat.type range

theorem init_owned (owner : Owner) : State.Owned State.init owner := by
  have queued : State.Queued State.init fun _ => [] :=
    ⟨fun i => ⟨[], nodup_nil, fun _ => nofun, fun _ _ _ => rfl, rfl⟩, fun _ _ => nofun,
      fun _ _ => nofun,
      fun _ => nodup_nil, fun _ => rfl⟩
  refine ⟨⟨_, queued⟩, fun vp => ?_, fun vp => ?_⟩
  · rw [queued.locksOf_eq]
    exact ⟨fun _ => nofun, fun _ => nofun, List.Pairwise.nil⟩
  · rw [queued.locksOf_eq]
    exact fun _ => nofun

theorem OwnerRun.plain {owner : Owner} {s : State} (run : OwnerRun KeepsPlain owner s) :
    s.Owned owner ∧ ∀ vp, ∀ lock ∈ s.locksOf vp, lock.Plain := by
  induction run with
  | init =>
    refine ⟨init_owned owner, fun vp lock mem => ?_⟩
    exact nomatch mem
  | @call s s' run vp lckdat flock cmd flag size offset seen answer owner_eq here met next ih =>
    obtain ⟨owned, plain⟩ := ih
    rcases owned.reclock owner_eq here next with ⟨unchanged, owned'⟩ | ⟨range, range_eq, owned',
      unchanged | changed⟩
    · exact ⟨owned', fun vp' => by rw [unchanged]; exact plain vp'⟩
    · exact ⟨owned', fun vp' => by rw [unchanged]; exact plain vp'⟩
    · obtain ⟨sets, desc, type_eq, start_eq, stop_eq, changed⟩ := changed
      refine ⟨owned', fun vp' => ?_⟩
      rw [changed]
      split_ifs with same
      · subst same
        refine (execAll_plain_iff (owned.spread vp') (plain vp') ?_ ?_).2 ?_
        · rw [type_eq]
          rcases sets.2 with unlock | ⟨-, ⟨read, -⟩ | ⟨write, -⟩⟩
          · exact .inr (.inr unlock)
          · exact .inl read
          · exact .inr (.inl write)
        · rw [start_eq, stop_eq]
          exact requestRange_accepted here range_eq
        · rw [type_eq, start_eq, stop_eq]
          exact met sets range range_eq
      · exact plain vp'

/-- In a run whose calls keep the locks plain, every active lock can be reclaimed. -/
theorem active_locks_reclaimed {owner : Owner} {s : State} (run : OwnerRun KeepsPlain owner s)
    {i : Fin 32} {x : LockId} (mem : x ∈ s.active i) : RoundTrips (s.lock x) := by
  obtain ⟨owned, plain⟩ := run.plain
  obtain ⟨group, queued⟩ := owned.queued
  obtain ⟨vp, mem⟩ := queued.mem_active mem
  have listed : s.lock x ∈ s.locksOf vp := by
    rw [queued.locksOf_eq]
    exact List.mem_map_of_mem mem
  exact roundTrips_of_plain ((owned.spread vp).nonempty _ listed) (plain vp _ listed)

def tenBytes : FlockT := ⟨.wrlck, 0, 0, 10, ⟨1, 0⟩⟩

/-- The bytes 3 to 5, which get unlocked. -/
def threeBytes : FlockT := ⟨.unlck, 0, 3, 3, ⟨1, 0⟩⟩

/-- All the bytes up to `MAXEND`, asked for from the end. -/
def lowerHalf : FlockT := ⟨.wrlck, 0, 0x7fffffff, 0x80000000, ⟨1, 0⟩⟩

/-- A lock that is split: what is left of it can be reclaimed. -/
theorem tenBytes_reclaimed : ∃ s, OwnerRun KeepsPlain ⟨1, 0⟩ s ∧
    (s.active 0).map (fun x => ((s.lock x).start, (s.lock x).stop)) = [(0, 2), (6, 9)] ∧
    ∀ x ∈ s.active 0, RoundTrips (s.lock x) := by
  obtain ⟨r, r', next, next', ranges⟩ : ∃ r r',
      State.init.reclock 0 tenBytes ⟨false, true, false, false⟩ ⟨true, true⟩ (.ok 0) 0 .up =
        some r ∧
      r.2.2.reclock 0 threeBytes ⟨false, true, false, false⟩ ⟨true, true⟩ (.ok 0) 0 .up =
        some r' ∧
      (r'.2.2.active 0).map (fun x => ((r'.2.2.lock x).start, (r'.2.2.lock x).stop)) =
        [(0, 2), (6, 9)] := by
    refine ⟨_, _, rfl, rfl, ?_⟩
    decide +kernel
  have keeps : KeepsPlain State.init 0 tenBytes ⟨false, true, false, false⟩
      ⟨true, true⟩ (.ok 0) 0 := by
    intro _ range range_eq
    have ten : range = (0, 9) := Except.ok.inj (range_eq.symm.trans rfl)
    subst ten
    refine ⟨nofun, fun _ all => ?_⟩
    rcases all 10 (by decide) with inside | ⟨lock, held, -⟩
    · exact absurd inside (by decide)
    · exact nomatch held
  have keeps' : KeepsPlain r.2.2 0 threeBytes ⟨false, true, false, false⟩
      ⟨true, true⟩ (.ok 0) 0 := by
    intro _ range range_eq
    have three : range = (3, 5) := Except.ok.inj (range_eq.symm.trans rfl)
    subst three
    exact ⟨nofun, fun locks => absurd rfl locks⟩
  have run : OwnerRun KeepsPlain ⟨1, 0⟩ r'.2.2 :=
    .call (.call .init rfl rfl keeps next) rfl rfl keeps' next'
  exact ⟨r'.2.2, run, ranges, fun x mem => active_locks_reclaimed run mem⟩

theorem lowerHalf_not_reclaimed : ¬ ∀ owner s, OwnerRun (fun _ _ _ _ _ _ _ => True) owner s →
    ∀ i, ∀ x ∈ s.active i, RoundTrips (s.lock x) := by
  intro reclaimed
  obtain ⟨r, mem, lock_eq, next⟩ : ∃ r, 0 ∈ r.2.2.active 0 ∧
      r.2.2.lock 0 = ⟨0, ⟨1, 0⟩, .wrlck, 0, maxEnd, false, false, false⟩ ∧
      State.init.reclock 0 lowerHalf ⟨false, true, false, false⟩ ⟨true, true⟩ (.ok 0) 0 .up =
          some r := by
    refine ⟨_, ?_, ?_, rfl⟩
    · decide +kernel
    · decide +kernel
  have trip := reclaimed ⟨1, 0⟩ r.2.2 (.call .init rfl rfl trivial next) 0 0 mem (.ok 0) 0
  rw [lock_eq] at trip
  have same := congrArg Prod.fst (Except.ok.inj trip.1)
  exact absurd same (by decide)

end Flock

end Sol25
