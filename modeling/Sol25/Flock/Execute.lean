import Sol25.Flock.Queues

/-!
# Executing a request

`flk_execute_request` on the active list of a vnode whose locks all have the owner of the request:
the descriptors on the list become what `execAll` says.
-/

namespace Sol25

open List Nat Function

namespace Flock

namespace State

variable {s s' : State} {group : ℕ → List LockId} {vp : ℕ} {lock request : LockId}
  {front rest ids : List LockId}

/-! ### Copies -/

/-- New descriptors for parts of a lock. -/
structure Copied (s : State) (lock : LockId) (pieces : List (UOff × UOff))
    (copied : List LockId × State) : Prop where
  /-- the new descriptors -/
  map_eq : copied.1.map copied.2.lock = pieces.map (s.lock lock).piece
  /-- they are different -/
  nodup : copied.1.Nodup
  /-- they are new -/
  new : ∀ x ∈ copied.1, s.next ≤ x ∧ x < copied.2.next
  /-- the old ones stay -/
  old : ∀ x < s.next, copied.2.lock x = s.lock x
  next : s.next ≤ copied.2.next
  /-- `active_locks` -/
  active : copied.2.active = s.active
  /-- `v_filocks` -/
  filocks : copied.2.filocks = s.filocks

theorem copyPieces_copied (pieces : List (UOff × UOff)) (lock_lt : lock < s.next) :
    Copied s lock pieces (s.copyPieces lock pieces) := by
  induction pieces generalizing s with
  | nil => exact ⟨rfl, nodup_nil, fun _ => nofun, fun _ _ => rfl, le_refl _, rfl, rfl⟩
  | cons range pieces ih =>
    obtain ⟨start, stop⟩ := range
    rw [copyPieces]
    dsimp only
    generalize new_eq : s.getLock _ _ = new
    have first : new.1 = s.next := by rw [← new_eq]; rfl
    have grown : s.next < new.2.next := by rw [← new_eq]; exact lt_succ_self _
    have lock_eq : new.2.lock = update s.lock s.next
        ((s.lock lock).piece (start, stop)) := by
      rw [← new_eq]
      rfl
    have active_eq : new.2.active = s.active := by rw [← new_eq]; rfl
    have filocks_eq : new.2.filocks = s.filocks := by rw [← new_eq]; rfl
    have old_eq : ∀ x < s.next, new.2.lock x = s.lock x :=
      fun x lt => by rw [lock_eq, update_of_ne lt.ne]
    have later := @ih new.2 (lock_lt.trans grown)
    constructor
    case map_eq =>
      rw [map_cons, map_cons, later.map_eq, later.old new.1 (first ▸ grown), first,
        lock_eq, update_self, ← lock_eq, old_eq lock lock_lt]
    case nodup =>
      refine nodup_cons.2 ⟨fun mem => ?_, later.nodup⟩
      exact absurd ((later.new new.1 mem).1) (not_le.2 (first ▸ grown))
    case new =>
      refine forall_mem_cons.2 ⟨?_, fun x mem => ?_⟩
      · rw [first]
        exact ⟨le_refl _, grown.trans_le later.next⟩
      · obtain ⟨new_le, lt⟩ := later.new x mem
        exact ⟨grown.le.trans new_le, lt⟩
    case old => exact fun x lt => (later.old x (lt.trans grown)).trans (old_eq x lt)
    case next => exact grown.le.trans later.next
    case active => exact later.active.trans active_eq
    case filocks => exact later.filocks.trans filocks_eq

/-! ### Insertions -/

theorem insertActiveLock_lock : (s.insertActiveLock lock).lock = s.lock := by
  rw [insertActiveLock]
  dsimp only
  split <;> rfl

theorem insertActiveLock_next : (s.insertActiveLock lock).next = s.next := by
  rw [insertActiveLock]
  dsimp only
  split <;> rfl

theorem insertAt_eq (front_lt : ∀ f ∈ front, (s.lock f).start < (s.lock lock).start)
    (rest_gt : ∀ r ∈ rest, ¬ (s.lock r).start < (s.lock lock).start) :
    s.insertAt lock (front ++ rest) = front ++ lock :: rest := by
  have taken : ∀ f ∈ front, decide ((s.lock f).start < (s.lock lock).start) = true := fun f mem =>
    decide_eq_true (front_lt f mem)
  rw [insertAt, takeWhile_append_of_pos taken, dropWhile_append_of_pos taken]
  cases rest with
  | nil => simp
  | cons r rest =>
    have stops : decide ((s.lock r).start < (s.lock lock).start) = false :=
      decide_eq_false (rest_gt r mem_cons_self)
    rw [takeWhile_cons_of_neg (by simp [stops]),
      dropWhile_cons_of_neg (by simp [stops]), append_nil]

/-- Locks that belong between two parts of a group are inserted there. -/
theorem Queued.insert_all (queued : Queued s group) (eq : group vp = front ++ rest)
    (vnode : ∀ x ∈ ids, (s.lock x).vnode = vp) (lt : ∀ x ∈ ids, x < s.next)
    (fresh : ∀ x ∈ ids, x ∉ group vp) (nodup : ids.Nodup)
    (sorted : ids.Pairwise fun x y => (s.lock x).start < (s.lock y).start)
    (front_lt : ∀ f ∈ front, ∀ x ∈ ids, (s.lock f).start < (s.lock x).start)
    (rest_gt : ∀ r ∈ rest, ∀ x ∈ ids, ¬ (s.lock r).start < (s.lock x).start) :
    Queued (ids.foldl insertActiveLock s) (Function.update group vp (front ++ (ids ++ rest))) ∧
      (ids.foldl insertActiveLock s).lock = s.lock ∧
        (ids.foldl insertActiveLock s).next = s.next := by
  induction ids generalizing s group front with
  | nil =>
    have same : Function.update group vp (front ++ ([] ++ rest)) = group := by
      rw [nil_append, ← eq, update_eq_self]
    rw [same]
    exact ⟨queued, rfl, rfl⟩
  | cons id ids ih =>
    obtain ⟨id_vnode, vnode⟩ := forall_mem_cons.1 vnode
    obtain ⟨id_lt, lt⟩ := forall_mem_cons.1 lt
    obtain ⟨id_fresh, fresh⟩ := forall_mem_cons.1 fresh
    obtain ⟨id_new, nodup⟩ := nodup_cons.1 nodup
    obtain ⟨id_first, sorted⟩ := pairwise_cons.1 sorted
    have inserted := queued.insert id_vnode id_lt id_fresh
    have place : s.insertAt id (group vp) = front ++ [id] ++ rest := by
      rw [eq, insertAt_eq (fun f mem => front_lt f mem id mem_cons_self)
          (fun r mem => rest_gt r mem id mem_cons_self),
        append_assoc, singleton_append]
    rw [place] at inserted
    have later := @ih (s.insertActiveLock id) (Function.update group vp (front ++ [id] ++ rest))
      (front ++ [id]) inserted
      (update_self ..) (by rw [insertActiveLock_lock]; exact vnode)
        (by rw [insertActiveLock_next]; exact lt)
      ?_ nodup (by rw [insertActiveLock_lock]; exact sorted) ?_ ?_
    · rw [insertActiveLock_lock, insertActiveLock_next, update_idem, append_assoc,
        singleton_append] at later
      exact later
    · intro x mem
      rw [update_self, append_assoc, singleton_append, perm_middle.mem_iff, ← eq, mem_cons]
      rintro (rfl | old)
      · exact id_new mem
      · exact fresh x mem old
    · rw [insertActiveLock_lock]
      intro f f_mem x mem
      rcases mem_append.1 f_mem with f_mem | f_mem
      · exact front_lt f f_mem x (mem_cons_of_mem id mem)
      · rw [mem_singleton.1 f_mem]
        exact id_first x mem
    · rw [insertActiveLock_lock]
      exact fun r r_mem x mem => rest_gt r r_mem x (mem_cons_of_mem id mem)

/-! ### One lock -/

/-- Descriptors in use stay, but for that of the request. -/
structure Touched (s s' : State) (request : LockId) : Prop where
  /-- the descriptors of the others -/
  old : ∀ x < s.next, x ≠ request → s'.lock x = s.lock x
  next : s.next ≤ s'.next

theorem Touched.trans {s'' : State} (first : Touched s s' request)
    (second : Touched s' s'' request) : Touched s s'' request where
  old := fun x lt ne => (second.old x (lt.trans_le first.next) ne).trans (first.old x lt ne)
  next := first.next.trans second.next

theorem Touched.of_same (same : SameActive s s') : Touched s s' request :=
  ⟨fun x _ _ => by rw [same.lock], same.next.ge⟩

/-- The parts of a lock that stay locked take its place, and the request has its new range. -/
theorem flkRelation_rebuild (queued : Queued s group) (eq : group vp = front ++ lock :: rest)
    (request_lt : request < s.next) (request_new : ∀ vp', request ∉ group vp') {start stop : UOff}
    {pieces : List (UOff × UOff)}
    (rel : relation (s.lock lock) (s.lock request) = .rebuild start stop pieces)
    (sorted : pieces.Pairwise fun x y => x.1 < y.1)
    (front_lt : ∀ f ∈ front, ∀ p ∈ pieces, (s.lock f).start < p.1)
    (rest_gt : ∀ r ∈ rest, ∀ p ∈ pieces, ¬ (s.lock r).start < p.1) :
    ∃ ids, (s.flkRelation lock request).1 = false ∧
      Queued (s.flkRelation lock request).2 (update group vp (front ++ (ids ++ rest))) ∧
      ids.map (s.flkRelation lock request).2.lock = pieces.map (s.lock lock).piece ∧
      (s.flkRelation lock request).2.lock request = { s.lock request with
        start := start, stop := stop } ∧
      Touched s (s.flkRelation lock request).2 request ∧ ∀ x ∈ ids, s.next ≤ x := by
  have inside : ∀ x ∈ front ++ lock :: rest, x ∈ group vp := fun x mem => by rw [eq]; exact mem
  have lock_mem : lock ∈ group vp := inside lock (by simp)
  have lock_lt := queued.lt vp lock lock_mem
  have lock_ne : lock ≠ request := fun same => request_new vp (same ▸ lock_mem)
  rw [flkRelation, rel]
  dsimp only
  generalize lockEffect (s.lock lock) (s.lock request) = effect
  set ranged : State := { s with
    lock := update s.lock request { s.lock request with start := start, stop := stop } }
      with ranged_eq
  have ranged_old : ∀ x, x ≠ request → ranged.lock x = s.lock x := fun x ne => update_of_ne ne _ _
  have copied := @copyPieces_copied ranged lock pieces lock_lt
  generalize ranged.copyPieces lock pieces = copy at copied
  have map_eq := copied.map_eq
  rw [ranged_old lock lock_ne] at map_eq
  generalize (if effect = .unlock then copy.1 else copy.1 ++ [request]) = topology
  have copy_old : ∀ x < s.next, x ≠ request → copy.2.lock x = s.lock x := fun x lt ne =>
    (copied.old x lt).trans (ranged_old x ne)
  have copy_request :
      copy.2.lock request = { s.lock request with start := start, stop := stop } := by
    rw [copied.old request request_lt]
    exact update_self ..
  have copy_queued : Queued copy.2 group := by
    refine queued.congr (fun vp' x mem => ?_) copied.next copied.active copied.filocks
    rw [copy_old x (queued.lt vp' x mem) fun same => request_new vp' (same ▸ mem)]
  set marked := setRecompute true topology copy.2 with marked_eq
  have before : SameActive copy.2 (marked.detach lock (marked.inn lock)) :=
    (setRecompute_active true topology).trans (detach_active _)
  have deleted := (copy_queued.same before).delete eq
  set bare := (marked.detach lock (marked.inn lock)).deleteActiveLock lock
  have bare_lock : bare.lock = copy.2.lock := before.lock
  have bare_next : bare.next = copy.2.next := before.next
  have after : SameActive bare
      (setRecompute false topology (bare.recomputeDependencies lock topology true)) :=
    recomputeDependencies_active.trans (setRecompute_active false topology)
  have ready := deleted.same after
  set recomputed := setRecompute false topology (bare.recomputeDependencies lock topology true)
  have ready_lock : recomputed.lock = copy.2.lock := after.lock.trans bare_lock
  have ready_next : recomputed.next = copy.2.next := after.next.trans bare_next
  have starts : ∀ x ∈ copy.1, ∃ p ∈ pieces, copy.2.lock x = (s.lock lock).piece p := by
    intro x mem
    have mapped : copy.2.lock x ∈ pieces.map (s.lock lock).piece := by
      rw [← map_eq]
      exact List.mem_map_of_mem mem
    obtain ⟨p, p_mem, p_eq⟩ := List.mem_map.1 mapped
    exact ⟨p, p_mem, p_eq.symm⟩
  have old_start : ∀ x ∈ front ++ rest, copy.2.lock x = s.lock x := by
    intro x mem
    have x_mem : x ∈ group vp := inside x (by
      rcases mem_append.1 mem with mem | mem
      · exact mem_append_left _ mem
      · exact mem_append_right front (mem_cons_of_mem lock mem))
    exact copy_old x (queued.lt vp x x_mem) fun same => request_new vp (same ▸ x_mem)
  obtain ⟨inserted, inserted_lock, inserted_next⟩ :=
    @Queued.insert_all recomputed (update group vp (front ++ rest)) vp
    front rest copy.1 ready (update_self ..)
    (fun x mem => by
      obtain ⟨p, -, p_eq⟩ := starts x mem
      rw [ready_lock, p_eq]
      exact queued.vnode vp lock lock_mem)
    (fun x mem => by rw [ready_next]; exact (copied.new x mem).2)
    (fun x mem old => by
      rw [update_self] at old
      have lt := queued.lt vp x (inside x (by
        rcases mem_append.1 old with old | old
        · exact mem_append_left _ old
        · exact mem_append_right front (mem_cons_of_mem lock old)))
      exact absurd (copied.new x mem).1 (not_le.2 lt))
    copied.nodup
    (by
      rw [ready_lock,
        ← pairwise_map (f := fun x => copy.2.lock x) (R := fun x y => x.start < y.start),
        map_eq, pairwise_map]
      exact sorted)
    (fun f f_mem x mem => by
      obtain ⟨p, p_mem, p_eq⟩ := starts x mem
      rw [ready_lock, p_eq, old_start f (mem_append_left _ f_mem)]
      exact front_lt f f_mem p p_mem)
    (fun r r_mem x mem => by
      obtain ⟨p, p_mem, p_eq⟩ := starts x mem
      rw [ready_lock, p_eq, old_start r (mem_append_right _ r_mem)]
      exact rest_gt r r_mem p p_mem)
  rw [update_idem] at inserted
  set full := copy.1.foldl insertActiveLock recomputed
  have last : SameActive full (if effect = .downgrade ∨ effect = .unlock then full.wakeup lock false
      else full.freeInEdges lock (full.inn lock)) := by
    split_ifs
    · exact wakeup_active false
    · exact freeInEdges_active _
  have last_lock := last.lock.trans (inserted_lock.trans ready_lock)
  refine ⟨copy.1, rfl, inserted.same last, ?_, ?_, ⟨fun x lt ne => ?_, ?_⟩,
    fun x mem => (copied.new x mem).1⟩
  · rw [last_lock, map_eq]
  · rw [last_lock, copy_request]
  · rw [last_lock, copy_old x lt ne]
  · rw [last.next, inserted_next, ready_next]
    exact copied.next

/-! ### The loop -/

variable {locks : List Lock} {asked : Lock} {owner : Owner}

theorem leftOver_bounds {held : Lock} (held_nonempty : held.Nonempty)
    (asked_nonempty : asked.Nonempty)
    (overlap : held.start.toNat ≤ asked.stop.toNat ∧ asked.start.toNat ≤ held.stop.toNat) :
    ((leftOver held asked).Pairwise fun x y => x.1 < y.1) ∧
      ∀ p ∈ leftOver held asked, held.start.toNat ≤ p.1.toNat ∧ p.1.toNat ≤ held.stop.toNat := by
  rw [nonempty_iff] at held_nonempty asked_nonempty
  constructor
  · have ahead := @pieces_ahead held asked (nonempty_iff.2 asked_nonempty)
    rw [pairwise_map] at ahead
    refine ahead.imp_of_mem fun mem _ lt => ?_
    have ahead_lt := lt.1
    obtain ⟨-, left | right⟩ := mem_pieces (List.mem_map_of_mem mem)
    · obtain ⟨start_eq, stop_eq, lt⟩ := left
      simp only [Lock.piece] at start_eq stop_eq ahead_lt
      rw [lt_iff_toNat]
      omega
    · obtain ⟨start_eq, stop_eq, lt⟩ := right
      simp only [Lock.piece] at start_eq stop_eq ahead_lt
      rw [lt_iff_toNat]
      omega
  · intro p mem
    obtain ⟨-, left | right⟩ := mem_pieces (List.mem_map_of_mem mem)
    · obtain ⟨start_eq, stop_eq, lt⟩ := left
      simp only [Lock.piece] at start_eq stop_eq
      omega
    · obtain ⟨start_eq, stop_eq, lt⟩ := right
      simp only [Lock.piece] at start_eq stop_eq
      omega

/-- What `flk_relation` rebuilds. -/
theorem rebuild_bounds {held : Lock} {start stop : UOff} {pieces : List (UOff × UOff)}
    (held_nonempty : held.Nonempty) (asked_nonempty : asked.Nonempty)
    (rel : relation held asked = .rebuild start stop pieces) :
    (pieces.Pairwise fun x y => x.1 < y.1) ∧
      (∀ p ∈ pieces, held.start.toNat ≤ p.1.toNat ∧ p.1.toNat ≤ held.stop.toNat) ∧
      Lock.Nonempty { asked with start := start, stop := stop } := by
  have cases_of := related held_nonempty asked_nonempty
  rw [rel] at cases_of
  cases cases_of with
  | merge effect touch start_eq stop_eq =>
    refine ⟨List.Pairwise.nil, fun _ => nofun, ?_⟩
    rw [nonempty_iff] at held_nonempty asked_nonempty ⊢
    dsimp only
    omega
  | cut effect overlap =>
    obtain ⟨sorted, bounds⟩ := leftOver_bounds held_nonempty asked_nonempty overlap
    exact ⟨sorted, bounds, asked_nonempty⟩

theorem Queued.mem_active (queued : Queued s group) {i : Fin 32} {x : LockId}
    (mem : x ∈ s.active i) : ∃ vp, x ∈ group vp := by
  obtain ⟨order, -, -, -, active_eq⟩ := queued.order i
  rw [active_eq] at mem
  obtain ⟨vp, -, mem⟩ := mem_flatMap.1 mem
  exact ⟨vp, mem⟩

/-- The next lock to look at, as it is told after the first one has been dealt with. -/
theorem Queued.next_eq (queued : Queued s group) (eq : group vp = front ++ lock :: rest)
    (request_new : ∀ vp', request ∉ group vp') (touched : Touched s s' request) :
    ((s.nextActive lock).filter fun next => decide ((s'.lock next).vnode = vp)) = rest.head? := by
  rw [← queued.nextActive_eq eq]
  cases found : s.nextActive lock with
  | none => rfl
  | some next =>
    have mem : next ∈ s.active (hashIndex (s.lock lock).vnode) := by
      rw [nextActive] at found
      exact (dropWhile_sublist _).subset (mem_of_mem_tail (mem_of_head? found))
    obtain ⟨vp', mem⟩ := queued.mem_active mem
    rw [Option.filter_some, Option.filter_some,
      touched.old next (queued.lt vp' next mem) fun same => request_new vp' (same ▸ mem)]

/-- One round of the loop: `ids` are in the place of the lock. -/
structure Stepped (s : State) (group : ℕ → List LockId) (vp : ℕ) (front : List LockId)
    (lock : LockId) (rest : List LockId) (request : LockId) (ids : List LockId)
    (related : Bool × State) : Prop where
  /-- the lists -/
  queued : Queued related.2 (update group vp (front ++ (ids ++ rest)))
  /-- the other locks -/
  touched : Touched s related.2 request
  /-- what the list of descriptors becomes -/
  ranges : execRanges (s.lock request) ((lock :: rest).map s.lock) =
    (ids.map related.2.lock ++ (if related.1 then (rest.map s.lock, related.2.lock request)
      else execRanges (related.2.lock request) (rest.map s.lock)).1,
      (if related.1 then (rest.map s.lock, related.2.lock request)
      else execRanges (related.2.lock request) (rest.map s.lock)).2)
  /-- what is left lies where the lock was -/
  bounds : ∀ x ∈ ids, (related.2.lock x).start.toNat ≤ (s.lock lock).stop.toNat
  /-- the request is not on the list -/
  request_new : request ∉ ids
  /-- the range of the request is not empty -/
  nonempty : (related.2.lock request).Nonempty
  /-- the vnode of the request -/
  vnode : (related.2.lock request).vnode = (s.lock request).vnode
  /-- the owner of the request -/
  owner : (related.2.lock request).owner = (s.lock request).owner

theorem flkRelation_stepped (queued : Queued s group) (eq : group vp = front ++ lock :: rest)
    (request_lt : request < s.next) (request_new : ∀ vp', request ∉ group vp')
    (nonempty : (s.lock lock).Nonempty)
    (apart : ∀ r ∈ rest, (s.lock lock).stop.toNat < (s.lock r).start.toNat)
    (front_lt : ∀ f ∈ front, (s.lock f).start.toNat < (s.lock lock).start.toNat)
    (asked_nonempty : (s.lock request).Nonempty) :
    ∃ ids, Stepped s group vp front lock rest request ids (s.flkRelation lock request) := by
  have lock_mem : lock ∈ group vp := by rw [eq]; simp
  have lock_ne : request ≠ lock := fun same => request_new vp (same ▸ lock_mem)
  have lock_le := nonempty_iff.1 nonempty
  have kept : update group vp (front ++ ([lock] ++ rest)) = group := by
    rw [singleton_append, ← eq, update_eq_self]
  cases rel : relation (s.lock lock) (s.lock request) with
  | apart done =>
    have result : s.flkRelation lock request = (done, s) := by rw [flkRelation, rel]
    rw [result]
    refine ⟨[lock], by rw [kept]; exact queued, .of_same (.refl s), ?_, ?_, ?_,
      asked_nonempty, rfl, rfl⟩
    · rw [map_cons, execRanges, rel]
      cases done <;> rfl
    · simpa using lock_le
    · simpa using lock_ne
  | release =>
    have result : s.flkRelation lock request =
        (true, (s.deleteActiveLock lock).wakeup lock true) := by rw [flkRelation, rel]
    have woken : SameActive (s.deleteActiveLock lock)
        ((s.deleteActiveLock lock).wakeup lock true) := wakeup_active true
    rw [result]
    have lock_eq : ((s.deleteActiveLock lock).wakeup lock true).lock = s.lock := woken.lock
    refine ⟨[], (queued.delete eq).same woken, ⟨fun x _ _ => by rw [lock_eq], woken.next.ge⟩, ?_,
      fun _ => by rintro ⟨⟩, (by rintro ⟨⟩), ?_, ?_, ?_⟩
    · rw [map_cons, execRanges, rel, lock_eq]
      rfl
    all_goals rw [lock_eq]
    exact asked_nonempty
  | rebuild start stop pieces =>
    obtain ⟨sorted, bounds, new_nonempty⟩ := rebuild_bounds nonempty asked_nonempty rel
    obtain ⟨ids, done, later, map_eq, request_eq, touched, ids_new⟩ :=
      flkRelation_rebuild queued eq request_lt request_new rel
      sorted
      (fun f mem p p_mem => by
        have lt := front_lt f mem
        have le := (bounds p p_mem).1
        rw [lt_iff_toNat]
        omega)
      (fun r mem p p_mem => by
        have lt := apart r mem
        have le := (bounds p p_mem).2
        rw [lt_iff_toNat]
        omega)
    refine ⟨ids, later, touched, ?_, ?_,
      ?_, by rw [request_eq]; exact new_nonempty, by rw [request_eq], by rw [request_eq]⟩
    · rw [map_cons, execRanges, rel, done, map_eq, request_eq]
      rfl
    · intro x mem
      have mapped : (s.flkRelation lock request).2.lock x ∈ pieces.map (s.lock lock).piece := by
        rw [← map_eq]
        exact List.mem_map_of_mem mem
      obtain ⟨p, p_mem, p_eq⟩ := List.mem_map.1 mapped
      rw [← p_eq]
      exact (bounds p p_mem).2
    · exact fun mem => absurd (ids_new request mem) (not_le.2 request_lt)

/-- What the loop of `flk_execute_request` leaves. -/
structure Looped (s : State) (group : ℕ → List LockId) (vp : ℕ) (request : LockId)
    (locks : List Lock) (asked : Lock) (s' : State) : Prop where
  /-- the groups afterwards -/
  groups : ∃ group', Queued s' group' ∧ (∀ vp', vp' ≠ vp → group' vp' = group vp') ∧
    (group' vp).map s'.lock = locks ∧
    ∀ vp', request ∉ group' vp'
  /-- the request afterwards -/
  asked : s'.lock request = asked
  /-- the other locks -/
  touched : Touched s s' request

theorem Touched.map_eq (touched : Touched s s' request) (queued : Queued s group)
    (request_new : ∀ vp', request ∉ group vp') (inside : ∀ x ∈ front, x ∈ group vp) :
    front.map s'.lock = front.map s.lock :=
  map_congr_left fun x mem =>
    touched.old x (queued.lt vp x (inside x mem)) fun same => request_new vp (same ▸ inside x mem)

theorem Stepped.request_absent {ids : List LockId} {related : Bool × State}
    (stepped : Stepped s group vp front lock rest request ids related)
    (eq : group vp = front ++ lock :: rest) (request_new : ∀ vp', request ∉ group vp') (vp' : ℕ) :
    request ∉ update group vp (front ++ (ids ++ rest)) vp' := by
  by_cases here : vp' = vp
  · subst here
    rw [update_self, mem_append, mem_append]
    have absent := request_new vp'
    rw [eq, mem_append, mem_cons] at absent
    have new := stepped.request_new
    tauto
  · rw [update_of_ne here]
    exact request_new vp'

/-- The loop ends after this round. -/
theorem Stepped.looped {ids : List LockId} {related : Bool × State}
    (stepped : Stepped s group vp front lock rest request ids related) (queued : Queued s group)
    (eq : group vp = front ++ lock :: rest) (request_new : ∀ vp', request ∉ group vp')
    (ends : related.1 = true ∨ rest = []) :
    Looped s group vp request
      (front.map s.lock ++ (execRanges (s.lock request) ((lock :: rest).map s.lock)).1)
      (execRanges (s.lock request) ((lock :: rest).map s.lock)).2 related.2 := by
  have ended : (if related.1 then (rest.map s.lock, related.2.lock request)
      else execRanges (related.2.lock request) (rest.map s.lock)) =
          (rest.map s.lock, related.2.lock request) := by
    rcases ends with done | rfl
    · rw [if_pos done]
    · split_ifs <;> rfl
  have front_eq :=
      @Touched.map_eq s related.2 group vp request front stepped.touched queued request_new
          fun x mem => by
    rw [eq]
    exact mem_append_left _ mem
  have rest_eq := @Touched.map_eq s related.2 group vp request rest stepped.touched queued
      request_new fun x mem => by
    rw [eq]
    exact mem_append_right front (mem_cons_of_mem lock mem)
  rw [stepped.ranges, ended]
  refine ⟨⟨_, stepped.queued, fun vp' other => update_of_ne other _ _, ?_,
    stepped.request_absent eq request_new⟩, rfl,
    stepped.touched⟩
  rw [update_self, map_append, map_append, front_eq, rest_eq]

theorem executeLoop_looped {fuel : ℕ} (enough : rest.length < fuel) (queued : Queued s group)
    (eq : group vp = front ++ lock :: rest) (vnode_eq : (s.lock request).vnode = vp)
    (request_lt : request < s.next) (request_new : ∀ vp', request ∉ group vp')
    (owner : ∀ x ∈ lock :: rest, s.SameOwner request x)
    (nonempty : ∀ x ∈ lock :: rest, (s.lock x).Nonempty)
    (apart : (lock :: rest).Pairwise fun x y => (s.lock x).stop.toNat < (s.lock y).start.toNat)
    (front_lt : ∀ f ∈ front, ∀ r ∈ lock :: rest, (s.lock f).start.toNat < (s.lock r).start.toNat)
    (asked_nonempty : (s.lock request).Nonempty) :
    Looped s group vp request
      (front.map s.lock ++ (execRanges (s.lock request) ((lock :: rest).map s.lock)).1)
      (execRanges (s.lock request) ((lock :: rest).map s.lock)).2
        (executeLoop request fuel lock s) := by
  induction rest generalizing s group front lock fuel with
  | nil =>
    obtain ⟨fuel, rfl⟩ := exists_eq_add_one_of_ne_zero (Nat.ne_zero_of_lt enough)
    obtain ⟨ids, stepped⟩ :=
      flkRelation_stepped queued eq request_lt request_new (nonempty lock mem_cons_self)
      (fun _ => nofun) (fun f mem => front_lt f mem lock mem_cons_self) asked_nonempty
    have next_eq := queued.next_eq eq request_new stepped.touched
    rw [executeLoop, if_pos (owner lock mem_cons_self), vnode_eq, next_eq]
    exact stepped.looped queued eq request_new (.inr rfl)
  | cons next rest ih =>
    obtain ⟨fuel, rfl⟩ := exists_eq_add_one_of_ne_zero (Nat.ne_zero_of_lt enough)
    obtain ⟨lock_apart, rest_apart⟩ := pairwise_cons.1 apart
    obtain ⟨ids, stepped⟩ :=
      flkRelation_stepped queued eq request_lt request_new (nonempty lock mem_cons_self)
      lock_apart (fun f mem => front_lt f mem lock mem_cons_self) asked_nonempty
    have next_eq := queued.next_eq eq request_new stepped.touched
    rw [executeLoop, if_pos (owner lock mem_cons_self), vnode_eq, next_eq, head?_cons]
    dsimp only
    by_cases done : (s.flkRelation lock request).1 = true
    · rw [if_pos done]
      exact stepped.looped queued eq request_new (.inl done)
    rw [if_neg done]
    have inside : ∀ x ∈ next :: rest, x ∈ group vp := fun x mem => by
      rw [eq]
      exact mem_append_right front (mem_cons_of_mem lock mem)
    have front_inside : ∀ x ∈ front, x ∈ group vp := fun x mem => by
      rw [eq]
      exact mem_append_left _ mem
    have same : ∀ x ∈ group vp, (s.flkRelation lock request).2.lock x = s.lock x := fun x mem =>
      stepped.touched.old x (queued.lt vp x mem) fun same => request_new vp (same ▸ mem)
    have later := @ih (s.flkRelation lock request).2
      (update group vp (front ++ (ids ++ next :: rest))) next
      (front ++ ids) fuel (by simpa using enough) stepped.queued
        (by rw [update_self, append_assoc])
      (by rw [stepped.vnode]; exact vnode_eq) (request_lt.trans_le stepped.touched.next)
        (stepped.request_absent eq request_new)
      (fun x mem => by
        have here := owner x (mem_cons_of_mem lock mem)
        rw [SameOwner, Flock.SameOwner, stepped.owner, same x (inside x mem)]
        exact here)
      (fun x mem => by
        rw [same x (inside x mem)]
        exact nonempty x (mem_cons_of_mem lock mem))
      (rest_apart.imp_of_mem fun mem mem' lt => by
        rw [same _ (inside _ mem), same _ (inside _ mem')]
        exact lt)
      ?_ stepped.nonempty
    · obtain ⟨group', later_queued, others, map_eq, absent⟩ := later.groups
      have front_eq :=
        @Touched.map_eq s _ group vp request front stepped.touched queued request_new front_inside
      have rest_eq := @Touched.map_eq s _ group vp request
        (next :: rest) stepped.touched queued request_new inside
      rw [stepped.ranges, if_neg done]
      refine ⟨⟨group', later_queued, fun vp' other => ?_, ?_, absent⟩, ?_,
        stepped.touched.trans later.touched⟩
      · rw [others vp' other, update_of_ne other]
      · rw [map_eq, map_append, front_eq, rest_eq, append_assoc]
      · rw [later.asked, rest_eq]
    · intro f f_mem r r_mem
      rw [same r (inside r r_mem)]
      rcases mem_append.1 f_mem with f_mem | f_mem
      · rw [same f (front_inside f f_mem)]
        exact front_lt f f_mem r (mem_cons_of_mem lock r_mem)
      · exact (stepped.bounds f f_mem).trans_lt (lock_apart r r_mem)

/-! ### The request -/

def locksOf (s : State) (vp : ℕ) : List Lock := (s.activeOf vp).map s.lock

theorem Queued.locksOf_eq (queued : Queued s group) (vp : ℕ) :
    s.locksOf vp = (group vp).map s.lock := by
  rw [locksOf, queued.activeOf_eq]

/-- All active locks are of one owner, in order. -/
structure Owned (s : State) (owner : Owner) : Prop where
  /-- the lists -/
  queued : ∃ group, Queued s group
  /-- the locks of a vnode -/
  spread : ∀ vp, Spread (s.locksOf vp)
  /-- their owner -/
  owner : ∀ vp, ∀ lock ∈ s.locksOf vp, lock.owner = owner

theorem Owned.same (owned : Owned s owner) (same : SameActive s s') :
    Owned s' owner ∧ ∀ vp, s'.locksOf vp = s.locksOf vp := by
  obtain ⟨group, queued⟩ := owned.queued
  have locks_eq : ∀ vp, s'.locksOf vp = s.locksOf vp := by
    intro vp
    rw [(queued.same same).locksOf_eq, queued.locksOf_eq, same.lock]
  refine ⟨⟨⟨group, queued.same same⟩, fun vp => ?_, fun vp => ?_⟩, locks_eq⟩
  · rw [locks_eq]
    exact owned.spread vp
  · rw [locks_eq]
    exact owned.owner vp

theorem execRanges_owner (asked_owner : asked.owner = owner)
    (owners : ∀ lock ∈ locks, lock.owner = owner) :
    (∀ lock ∈ (execRanges asked locks).1, lock.owner = owner) ∧
      (execRanges asked locks).2.owner = owner := by
  induction locks generalizing asked with
  | nil => exact ⟨fun _ => nofun, asked_owner⟩
  | cons lock rest ih =>
    obtain ⟨lock_owner, rest_owner⟩ := forall_mem_cons.1 owners
    rw [execRanges]
    split
    next => exact ⟨owners, asked_owner⟩
    next =>
      obtain ⟨later, asked_later⟩ := ih asked_owner rest_owner
      exact ⟨forall_mem_cons.2 ⟨lock_owner, later⟩, asked_later⟩
    next => exact ⟨rest_owner, asked_owner⟩
    next start stop pieces _ =>
      obtain ⟨later, asked_later⟩ :=
        @ih { asked with start := start, stop := stop } asked_owner rest_owner
      refine ⟨forall_mem_append.2 ⟨fun piece mem => ?_, later⟩, asked_later⟩
      obtain ⟨range, -, rfl⟩ := List.mem_map.1 mem
      exact lock_owner

theorem execAll_owner (asked_owner : asked.owner = owner)
    (owners : ∀ lock ∈ locks, lock.owner = owner) :
    ∀ lock ∈ execAll asked locks, lock.owner = owner := by
  obtain ⟨later, asked_later⟩ := execRanges_owner asked_owner owners
  intro lock mem
  rw [execAll] at mem
  split_ifs at mem
  · exact later lock mem
  · rcases mem_insertByStart.1 mem with rfl | mem
    · exact asked_later
    · exact later lock mem

theorem execRanges_vnode : (execRanges asked locks).2.vnode = asked.vnode := by
  induction locks generalizing asked with
  | nil => rfl
  | cons lock rest ih =>
    rw [execRanges]
    split
    next => rfl
    next => exact ih
    next => rfl
    next => exact ih

theorem Queued.mem_list (queued : Queued s group) {x : LockId} (mem : x ∈ group vp) :
    x ∈ s.active (hashIndex vp) := by
  obtain ⟨pre, post, active_eq, -⟩ := queued.split vp
  rw [active_eq]
  exact mem_append_right pre (mem_append_left post mem)

/-- What `flk_execute_request` does before it inserts the request. -/
theorem Owned.loop (owned : Owned s owner) (queued : Queued s group) (request_lt : request < s.next)
    (request_new : ∀ vp', request ∉ group vp') (owner_eq : (s.lock request).owner = owner)
    (nonempty : (s.lock request).Nonempty) (not_io : (s.lock request).io = false) :
    ∃ s', s.executeRequest request =
      (if (s.lock request).type = .unlck then s' else s'.insertActiveLock request) ∧
      Looped s group (s.lock request).vnode request
        (execRanges (s.lock request) (s.locksOf (s.lock request).vnode)).1
        (execRanges (s.lock request) (s.locksOf (s.lock request).vnode)).2 s' := by
  have spread := owned.spread (s.lock request).vnode
  have owners := owned.owner (s.lock request).vnode
  rw [queued.locksOf_eq] at spread owners ⊢
  rw [State.executeRequest, not_io, if_neg (by simp), queued.first]
  cases eq : group (s.lock request).vnode with
  | nil =>
    refine ⟨s, rfl, ⟨group, queued, fun _ _ => rfl, ?_, request_new⟩, rfl, .of_same (.refl s)⟩
    rw [eq]
    rfl
  | cons lock rest =>
    rw [eq] at spread owners
    have listed : (lock :: rest).length ≤ (s.active (hashIndex (s.lock request).vnode)).length := by
      obtain ⟨pre, post, active_eq, -⟩ := queued.split (s.lock request).vnode
      rw [active_eq, eq, length_append, length_append]
      omega
    refine ⟨_, rfl, ?_⟩
    refine @executeLoop_looped s group _ lock request
      [] rest _ (lt_succ_of_lt listed) queued eq rfl
      request_lt request_new ?_ ?_ ?_ (fun _ => nofun) nonempty
    · exact fun x mem => owner_eq.trans (owners _ (List.mem_map_of_mem mem)).symm
    · exact fun x mem => spread.nonempty _ (List.mem_map_of_mem mem)
    · exact (pairwise_map.1 spread.ahead).imp And.left

/-- A request is executed on the locks of its owner. -/
theorem Owned.executeRequest (owned : Owned s owner) (request_lt : request < s.next)
    (request_new : ∀ i, request ∉ s.active i) (owner_eq : (s.lock request).owner = owner)
    (nonempty : (s.lock request).Nonempty)
    (asked : (s.lock request).type = .rdlck ∨ (s.lock request).type = .wrlck ∨
      (s.lock request).type = .unlck)
    (not_io : (s.lock request).io = false) :
    Owned (s.executeRequest request) owner ∧ ∀ vp, (s.executeRequest request).locksOf vp =
      if vp = (s.lock request).vnode then execAll (s.lock request) (s.locksOf vp) else
        s.locksOf vp := by
  obtain ⟨group, queued⟩ := owned.queued
  have absent : ∀ vp', request ∉ group vp' := fun vp' mem => request_new _ (queued.mem_list mem)
  obtain ⟨s', result, looped⟩ := owned.loop queued request_lt absent owner_eq nonempty not_io
  obtain ⟨group', queued', others, map_eq, absent'⟩ := looped.groups
  -- The lists and the descriptors after the insertion.
  obtain ⟨group'', queued'', others'', map_eq'', lock_eq⟩ : ∃ group'',
    Queued (s.executeRequest request) group'' ∧
      (∀ vp', vp' ≠ (s.lock request).vnode → group'' vp' = group vp') ∧
      (group'' (s.lock request).vnode).map s'.lock = execAll (s.lock request)
        (s.locksOf (s.lock request).vnode) ∧
      (s.executeRequest request).lock = s'.lock := by
    rw [result, execAll]
    by_cases unlock : (s.lock request).type = .unlck
    · rw [if_pos unlock, if_pos unlock]
      exact ⟨group', queued', others, map_eq, rfl⟩
    · rw [if_neg unlock, if_neg unlock]
      have vnode_eq : (s'.lock request).vnode = (s.lock request).vnode := by
        rw [looped.asked, execRanges_vnode]
      refine ⟨_, queued'.insert vnode_eq (request_lt.trans_le looped.touched.next) (absent' _),
        fun vp' other => ?_, ?_,
        insertActiveLock_lock⟩
      · rw [update_of_ne other]
        exact others vp' other
      · rw [update_self, insertAt_map, map_eq, looped.asked]
  have locks_eq : ∀ vp, (s.executeRequest request).locksOf vp =
      if vp = (s.lock request).vnode then execAll (s.lock request) (s.locksOf vp) else
          s.locksOf vp := by
    intro vp
    rw [queued''.locksOf_eq, lock_eq]
    by_cases here : vp = (s.lock request).vnode
    · subst here
      rw [if_pos rfl, map_eq'']
    · rw [if_neg here, others'' vp here, queued.locksOf_eq]
      exact looped.touched.map_eq queued absent fun _ mem => mem
  refine ⟨⟨⟨group'', queued''⟩, fun vp => ?_, fun vp => ?_⟩, locks_eq⟩
  · rw [locks_eq]
    split_ifs
    · exact execAll_spread (owned.spread vp) nonempty asked
    · exact owned.spread vp
  · rw [locks_eq]
    split_ifs
    · exact execAll_owner owner_eq (owned.owner vp)
    · exact owned.owner vp

end State

end Flock

end Sol25
