import Sol25.Flock.Request

/-!
# The ranges of one owner

The active locks of one owner on one vnode, as a list of descriptors, and what `flk_relation` makes
of it lock after lock. The list is sorted, and two locks of one type neither overlap nor touch; what
it says about each byte is changed by a request on the bytes of the request alone.
-/

namespace Sol25

open List BitVec

namespace Flock

variable {lock request : Lock} {locks : List Lock}

/-! ### The relation of two ranges -/

theorem lockEffect_staySame (known : lock.type = .rdlck ∨ lock.type = .wrlck)
    (asked : request.type = .rdlck ∨ request.type = .wrlck ∨ request.type = .unlck) :
    lockEffect lock request = .staySame ↔ lock.type = request.type := by
  rw [lockEffect]
  rcases known with known | known <;> rcases asked with asked | asked | asked <;>
    rw [known, asked] <;> decide

theorem lockEffect_unlock : lockEffect lock request = .unlock ↔ request.type = .unlck := by
  rw [lockEffect]
  by_cases unlock : request.type = .unlck
  · rw [if_pos unlock]
    exact iff_of_true rfl unlock
  · rw [if_neg unlock]
    refine iff_of_false ?_ unlock
    split_ifs <;> decide

/-- What is left of a lock in front of a request and behind it. -/
def leftOver (lock request : Lock) : List (UOff × UOff) :=
  (if lock.start < request.start then [(lock.start, request.start - 1)] else []) ++
    (if request.stop < lock.stop then [(request.stop + 1, lock.stop)] else [])

/-- The cases of `flk_relation`. -/
inductive Related (lock request : Lock) : Relation → Prop
  /-- the lock ends before the request -/
  | before (lt : lock.stop.toNat < request.start.toNat)
      (gap : lockEffect lock request = .staySame → lock.stop.toNat + 1 < request.start.toNat) :
      Related lock request (.apart false)
  /-- the lock starts behind the request -/
  | behind (lt : request.stop.toNat < lock.start.toNat)
      (gap : lockEffect lock request = .staySame → request.stop.toNat + 1 < lock.start.toNat) :
      Related lock request (.apart true)
  /-- the request unlocks the lock as it is -/
  | release (effect : lockEffect lock request = .unlock) (start : lock.start = request.start)
      (stop : lock.stop = request.stop) : Related lock request .release
  /-- both become one lock -/
  | merge {start stop : UOff} (effect : lockEffect lock request = .staySame)
      (touch : lock.start.toNat ≤ request.stop.toNat + 1 ∧
        request.start.toNat ≤ lock.stop.toNat + 1)
      (start_eq : start.toNat = min lock.start.toNat request.start.toNat)
      (stop_eq : stop.toNat = max lock.stop.toNat request.stop.toNat) :
      Related lock request (.rebuild start stop [])
  /-- the request takes its bytes from the lock -/
  | cut (effect : lockEffect lock request ≠ .staySame)
      (overlap : lock.start.toNat ≤ request.stop.toNat ∧ request.start.toNat ≤ lock.stop.toNat) :
      Related lock request (.rebuild request.start request.stop (leftOver lock request))

theorem lt_iff_toNat {x y : UOff} : x < y ↔ x.toNat < y.toNat := lt_def

theorem pred_toNat {x y : UOff} (lt : x < y) : (y - 1).toNat = y.toNat - 1 := by
  rw [lt_iff_toNat] at lt
  bv_omega

theorem eq_pred_iff {x y : UOff} (lt : x < y) : x = y - 1 ↔ x.toNat + 1 = y.toNat := by
  rw [← toNat_inj, pred_toNat lt]
  rw [lt_iff_toNat] at lt
  omega

theorem related (lock_nonempty : lock.Nonempty) (request_nonempty : request.Nonempty) :
    Related lock request (relation lock request) := by
  rw [Lock.Nonempty, le_def] at lock_nonempty request_nonempty
  have le_of {x y : UOff} : ¬ x < y ↔ y.toNat ≤ x.toNat := by rw [lt_iff_toNat, not_lt]
  rw [relation]
  by_cases before : lock.stop < request.start
  · rw [if_pos before]
    have adjacent := eq_pred_iff before
    rw [lt_iff_toNat] at before
    by_cases same : lock.stop = request.start - 1 ∧ lockEffect lock request = .staySame
    · rw [if_pos same]
      have next := adjacent.1 same.1
      exact .merge same.2 (by omega) (by omega) (by omega)
    · rw [if_neg same]
      refine .before before fun effect => ?_
      have apart := mt adjacent.2 fun eq => same ⟨eq, effect⟩
      omega
  rw [if_neg before]
  rw [le_of] at before
  by_cases behind : request.stop < lock.start
  · rw [if_pos behind]
    have adjacent := eq_pred_iff behind
    rw [lt_iff_toNat] at behind
    by_cases same : request.stop = lock.start - 1 ∧ lockEffect lock request = .staySame
    · rw [if_pos same]
      have next := adjacent.1 same.1
      exact .merge same.2 (by omega) (by omega) (by omega)
    · rw [if_neg same]
      refine .behind behind fun effect => ?_
      have apart := mt adjacent.2 fun eq => same ⟨eq, effect⟩
      omega
  rw [if_neg behind]
  rw [le_of] at behind
  by_cases effect : lockEffect lock request = .staySame
  · have kept : lockEffect lock request ≠ .unlock := by rw [effect]; decide
    simp only [if_pos effect, if_pos kept]
    split_ifs <;> simp only [lt_iff_toNat] at * <;>
      exact .merge effect (by omega) (by omega) (by omega)
  · have cut := Related.cut effect ⟨behind, before⟩
    simp only [if_neg effect]
    rw [leftOver] at cut
    split_ifs at cut ⊢ <;> try exact cut
    next stop_le stop_ge start_ge start_le unlock =>
      rw [le_of] at stop_le stop_ge start_ge start_le
      exact .release (not_not.1 unlock) (eq_of_toNat_eq (by omega))
        (eq_of_toNat_eq (by omega))

/-! ### The loop over the locks -/

/-- A part of a lock. -/
def Lock.piece (lock : Lock) (range : UOff × UOff) : Lock :=
  { lock with
    start := range.1
    stop := range.2
    io := false
    willing := false
    lockmgr := false }

/-- What the loop of `flk_execute_request` makes of the locks of the owner and of the request. -/
def execRanges : Lock → List Lock → List Lock × Lock
  | request, [] => ([], request)
  | request, lock :: rest =>
    match relation lock request with
    | .apart true => (lock :: rest, request)
    | .apart false =>
      let later := execRanges request rest
      (lock :: later.1, later.2)
    | .release => (rest, request)
    | .rebuild start stop pieces =>
      let later := execRanges { request with start := start, stop := stop } rest
      (pieces.map lock.piece ++ later.1, later.2)

/-- One lock lies in front of another, and does not touch it if both have the same type. -/
def Ahead (lock1 lock2 : Lock) : Prop :=
  lock1.stop.toNat < lock2.start.toNat ∧
    (lock1.type = lock2.type → lock1.stop.toNat + 1 < lock2.start.toNat)

/-- The locks of one owner on one vnode. -/
structure Spread (locks : List Lock) : Prop where
  /-- no range is empty -/
  nonempty : ∀ lock ∈ locks, lock.Nonempty
  /-- read and write locks -/
  known : ∀ lock ∈ locks, lock.type = .rdlck ∨ lock.type = .wrlck
  /-- in order, with gaps between locks of one type -/
  ahead : locks.Pairwise Ahead

/-- The byte is locked by a lock of the type. -/
def Held (locks : List Lock) (type : LockType) (byte : UOff) : Prop :=
  ∃ lock ∈ locks, lock.type = type ∧ lock.Has byte

theorem has_iff {byte : UOff} :
    lock.Has byte ↔ lock.start.toNat ≤ byte.toNat ∧ byte.toNat ≤ lock.stop.toNat :=
  and_congr le_def le_def

theorem nonempty_iff : lock.Nonempty ↔ lock.start.toNat ≤ lock.stop.toNat := le_def

theorem held_cons {type : LockType} {byte : UOff} :
    Held (lock :: locks) type byte ↔ lock.type = type ∧ lock.Has byte ∨ Held locks type byte := by
  simp only [Held, mem_cons, exists_eq_or_imp]

theorem held_append {locks' : List Lock} {type : LockType} {byte : UOff} :
    Held (locks ++ locks') type byte ↔ Held locks type byte ∨ Held locks' type byte := by
  simp only [Held, mem_append, or_and_right, exists_or]

theorem Spread.tail (spread : Spread (lock :: locks)) : Spread locks where
  nonempty := fun l mem => spread.nonempty l (mem_cons_of_mem lock mem)
  known := fun l mem => spread.known l (mem_cons_of_mem lock mem)
  ahead := (pairwise_cons.1 spread.ahead).2

theorem Spread.cons (nonempty : lock.Nonempty) (known : lock.type = .rdlck ∨ lock.type = .wrlck)
    (ahead : ∀ l ∈ locks, Ahead lock l) (spread : Spread locks) : Spread (lock :: locks) where
  nonempty := forall_mem_cons.2 ⟨nonempty, spread.nonempty⟩
  known := forall_mem_cons.2 ⟨known, spread.known⟩
  ahead := pairwise_cons.2 ⟨ahead, spread.ahead⟩

theorem Spread.head_ahead (spread : Spread (lock :: locks)) : ∀ l ∈ locks, Ahead lock l :=
  (pairwise_cons.1 spread.ahead).1

theorem Spread.not_held (spread : Spread (lock :: locks)) {type : LockType} {byte : UOff}
    (has : lock.Has byte) : ¬ Held locks type byte := by
  rintro ⟨other, mem, -, other_has⟩
  have ahead := (spread.head_ahead other mem).1
  rw [has_iff] at has other_has
  omega

/-- What the loop gives: the locks that stay and the request, grown by the locks it was merged
with. -/
structure Executed (request : Lock) (locks : List Lock) (result : List Lock × Lock) : Prop where
  /-- what stays is in order -/
  spread : Spread result.1
  /-- what stays is part of what was there -/
  within : ∀ piece ∈ result.1, ∃ lock ∈ locks, piece.type = lock.type ∧
    lock.start.toNat ≤ piece.start.toNat ∧ piece.stop.toNat ≤ lock.stop.toNat
  /-- the request keeps its type -/
  type : result.2.type = request.type
  /-- the request grows -/
  wider : result.2.start.toNat ≤ request.start.toNat ∧ request.stop.toNat ≤ result.2.stop.toNat
  /-- the request grows to the start of a lock of its type -/
  start : result.2.start = request.start ∨
    ∃ lock ∈ locks, lock.type = request.type ∧ result.2.start = lock.start
  /-- the request is clear of what stays -/
  clear : ∀ piece ∈ result.1, Ahead piece result.2 ∨ Ahead result.2 piece
  /-- the bytes of the request are the request's, the others are as they were -/
  held : ∀ type byte, type = request.type ∧ result.2.Has byte ∨ Held result.1 type byte ↔
    type = request.type ∧ request.Has byte ∨ ¬ request.Has byte ∧ Held locks type byte

variable {rest : List Lock} {result : List Lock × Lock}

/-- All locks are behind the request, and none touches it. -/
theorem Executed.clear_of (spread : Spread locks)
    (ahead : ∀ lock ∈ locks, Ahead request lock) : Executed request locks (locks, request) where
  spread := spread
  within := fun lock mem => ⟨lock, mem, rfl, le_refl _, le_refl _⟩
  type := rfl
  wider := ⟨le_refl _, le_refl _⟩
  start := .inl rfl
  clear := fun lock mem => .inr (ahead lock mem)
  held := by
    intro type byte
    refine or_congr Iff.rfl ⟨fun held => ⟨?_, held⟩, And.right⟩
    intro has
    obtain ⟨lock, mem, -, lock_has⟩ := held
    have lt := (ahead lock mem).1
    rw [has_iff] at has lock_has
    omega

/-- A lock in front of the request stays. -/
theorem Executed.before (spread : Spread (lock :: rest)) (ahead : Ahead lock request)
    (later : Executed request rest result) :
    Executed request (lock :: rest) (lock :: result.1, result.2) where
  spread := by
    refine Spread.cons (spread.nonempty lock mem_cons_self)
      (spread.known lock mem_cons_self)
      (fun piece mem => ?_) later.spread
    obtain ⟨other, other_mem, type_eq, start_le, -⟩ := later.within piece mem
    obtain ⟨lt, gap⟩ := spread.head_ahead other other_mem
    exact ⟨by omega, fun same => by have := gap (same.trans type_eq); omega⟩
  within := forall_mem_cons.2 ⟨⟨lock, mem_cons_self, rfl, le_refl _, le_refl _⟩,
    fun piece mem => by
      obtain ⟨other, other_mem, inside⟩ := later.within piece mem
      exact ⟨other, mem_cons_of_mem lock other_mem, inside⟩⟩
  type := later.type
  wider := later.wider
  start := later.start.imp id fun ⟨other, mem, found⟩ => ⟨other, mem_cons_of_mem lock mem, found⟩
  clear := by
    refine forall_mem_cons.2 ⟨.inl ?_, later.clear⟩
    rcases later.start with start_eq | ⟨other, mem, type_eq, start_eq⟩
    · rw [Ahead, start_eq, later.type]
      exact ahead
    · rw [Ahead, start_eq, later.type, ← type_eq]
      exact spread.head_ahead other mem
  held := by
    intro type byte
    rw [held_cons, held_cons, or_left_comm, later.held]
    have outside : lock.Has byte → ¬ request.Has byte := by
      intro has request_has
      have lt := ahead.1
      rw [has_iff] at has request_has
      omega
    grind only

/-- The lock and the request become one. -/
theorem Executed.merge {start stop : UOff} (spread : Spread (lock :: rest))
    (same : lock.type = request.type) (nonempty : request.Nonempty)
    (touch : lock.start.toNat ≤ request.stop.toNat + 1 ∧ request.start.toNat ≤ lock.stop.toNat + 1)
    (start_eq : start.toNat = min lock.start.toNat request.start.toNat)
    (stop_eq : stop.toNat = max lock.stop.toNat request.stop.toNat)
    (later : Executed { request with start := start, stop := stop } rest result) :
    Executed request (lock :: rest) result where
  spread := later.spread
  within := fun piece mem => by
    obtain ⟨other, other_mem, inside⟩ := later.within piece mem
    exact ⟨other, mem_cons_of_mem lock other_mem, inside⟩
  type := later.type
  wider := by
    obtain ⟨start_le, stop_le⟩ := later.wider
    dsimp only at start_le stop_le
    omega
  start := by
    rcases later.start with kept | ⟨other, mem, type_eq, kept⟩
    · dsimp only at kept
      rcases Nat.le_total lock.start.toNat request.start.toNat with le | le
      · refine .inr ⟨lock, mem_cons_self, same, kept.trans (eq_of_toNat_eq ?_)⟩
        omega
      · exact .inl (kept.trans (eq_of_toNat_eq (by omega)))
    · exact .inr ⟨other, mem_cons_of_mem lock mem, type_eq, kept⟩
  clear := later.clear
  held := by
    intro type byte
    have lock_nonempty := nonempty_iff.1 (spread.nonempty lock mem_cons_self)
    have request_nonempty := nonempty_iff.1 nonempty
    have hull : Lock.Has { request with start := start, stop := stop } byte ↔
        request.Has byte ∨ lock.Has byte := by
      rw [has_iff, has_iff, has_iff]
      dsimp only
      omega
    have alone : lock.Has byte → ¬ Held rest type byte := spread.not_held
    rw [later.held type byte, hull, held_cons, same]
    dsimp only
    constructor
    · rintro (⟨rfl, has | has⟩ | ⟨outside, held⟩)
      · exact .inl ⟨rfl, has⟩
      · rcases Classical.em (request.Has byte) with inside | outside
        · exact .inl ⟨rfl, inside⟩
        · exact .inr ⟨outside, .inl ⟨rfl, has⟩⟩
      · exact .inr ⟨fun has => outside (.inl has), .inr held⟩
    · rintro (⟨rfl, has⟩ | ⟨outside, ⟨rfl, has⟩ | held⟩)
      · exact .inl ⟨rfl, .inl has⟩
      · exact .inl ⟨rfl, .inr has⟩
      · refine .inr ⟨?_, held⟩
        rintro (has | has)
        · exact outside has
        · exact alone has held

/-- A lock that is unlocked as it is. -/
theorem Executed.release (spread : Spread (lock :: rest)) (unlock : request.type = .unlck)
    (start_eq : lock.start = request.start) (stop_eq : lock.stop = request.stop) :
    Executed request (lock :: rest) (rest, request) where
  spread := spread.tail
  within := fun piece mem => ⟨piece, mem_cons_of_mem lock mem, rfl, le_refl _, le_refl _⟩
  type := rfl
  wider := ⟨le_refl _, le_refl _⟩
  start := .inl rfl
  clear := by
    intro piece mem
    obtain ⟨lt, -⟩ := spread.head_ahead piece mem
    refine .inr ⟨by rw [← stop_eq]; exact lt, fun same => ?_⟩
    rcases spread.tail.known piece mem with known | known <;> rw [known, unlock] at same <;>
      exact nomatch same
  held := by
    intro type byte
    have same_bytes : request.Has byte ↔ lock.Has byte := by
      rw [has_iff, has_iff, start_eq, stop_eq]
    have alone : lock.Has byte → ¬ Held rest type byte := spread.not_held
    rw [held_cons, same_bytes]
    grind only

/-! ### The pieces of a lock -/

theorem succ_toNat {x y : UOff} (lt : x < y) : (x + 1).toNat = x.toNat + 1 := by
  rw [lt_iff_toNat] at lt
  bv_omega

/-- The pieces of a lock on both sides of a request. -/
def LeftOf (lock request piece : Lock) : Prop :=
  piece.start.toNat = lock.start.toNat ∧ piece.stop.toNat + 1 = request.start.toNat ∧
    lock.start.toNat < request.start.toNat

def RightOf (lock request piece : Lock) : Prop :=
  piece.start.toNat = request.stop.toNat + 1 ∧ piece.stop.toNat = lock.stop.toNat ∧
    request.stop.toNat < lock.stop.toNat

theorem mem_pieces {piece : Lock} (mem : piece ∈ (leftOver lock request).map lock.piece) :
    piece.type = lock.type ∧ (LeftOf lock request piece ∨ RightOf lock request piece) := by
  rw [leftOver, map_append, mem_append] at mem
  rcases mem with mem | mem
  · by_cases front : lock.start < request.start
    · rw [if_pos front, map_singleton, mem_singleton] at mem
      subst mem
      have pred := pred_toNat front
      rw [lt_iff_toNat] at front
      exact ⟨rfl, .inl ⟨rfl, by simp only [Lock.piece, pred]; omega, front⟩⟩
    · rw [if_neg front] at mem
      exact nomatch mem
  · by_cases back : request.stop < lock.stop
    · rw [if_pos back, map_singleton, mem_singleton] at mem
      subst mem
      have succ := succ_toNat back
      rw [lt_iff_toNat] at back
      exact ⟨rfl, .inr ⟨succ, rfl, back⟩⟩
    · rw [if_neg back] at mem
      exact nomatch mem

/-- The pieces hold what the request leaves of the lock. -/
theorem held_pieces (request_nonempty : request.Nonempty)
    (overlap : lock.start.toNat ≤ request.stop.toNat ∧ request.start.toNat ≤ lock.stop.toNat)
    {type : LockType} {byte : UOff} : Held ((leftOver lock request).map lock.piece) type byte ↔
      lock.type = type ∧ lock.Has byte ∧ ¬ request.Has byte := by
  have request_le := nonempty_iff.1 request_nonempty
  constructor
  · rintro ⟨piece, mem, type_eq, has⟩
    obtain ⟨piece_type, left | right⟩ := mem_pieces mem
    · obtain ⟨start_eq, stop_eq, lt⟩ := left
      rw [has_iff] at has ⊢
      rw [has_iff]
      exact ⟨piece_type.symm.trans type_eq, by omega, by omega⟩
    · obtain ⟨start_eq, stop_eq, lt⟩ := right
      rw [has_iff] at has ⊢
      rw [has_iff]
      exact ⟨piece_type.symm.trans type_eq, by omega, by omega⟩
  · rintro ⟨type_eq, has, outside⟩
    rw [has_iff] at has outside
    rw [leftOver, map_append, held_append]
    by_cases front : byte.toNat < request.start.toNat
    · have lt : lock.start < request.start := lt_iff_toNat.2 (by omega)
      rw [if_pos lt]
      refine .inl ⟨_, mem_singleton.2 rfl, type_eq, ?_⟩
      rw [has_iff]
      simp only [Lock.piece, pred_toNat lt]
      omega
    · have lt : request.stop < lock.stop := lt_iff_toNat.2 (by omega)
      rw [if_pos lt]
      refine .inr ⟨_, mem_singleton.2 rfl, type_eq, ?_⟩
      rw [has_iff]
      simp only [Lock.piece, succ_toNat lt]
      omega

theorem pieces_ahead (request_nonempty : request.Nonempty) :
    ((leftOver lock request).map lock.piece).Pairwise Ahead := by
  rw [nonempty_iff] at request_nonempty
  rw [leftOver]
  by_cases front : lock.start < request.start
  · by_cases back : request.stop < lock.stop
    · rw [if_pos front, if_pos back]
      refine pairwise_pair.2 ?_
      have pred := pred_toNat front
      have succ := succ_toNat back
      simp only [Ahead, Lock.piece]
      rw [lt_iff_toNat] at front back
      omega
    · rw [if_neg back, append_nil, if_pos front]
      exact pairwise_singleton _ _
  · rw [if_neg front, nil_append]
    split_ifs
    · exact pairwise_singleton _ _
    · exact List.Pairwise.nil

/-- The request takes its bytes from a lock of another type. -/
theorem Executed.cut (spread : Spread (lock :: rest)) (nonempty : request.Nonempty)
    (other : lock.type ≠ request.type)
    (overlap : lock.start.toNat ≤ request.stop.toNat ∧ request.start.toNat ≤ lock.stop.toNat)
    (later : Executed request rest result) :
    Executed request (lock :: rest) ((leftOver lock request).map lock.piece ++ result.1,
      result.2) := by
  have request_nonempty := nonempty_iff.1 nonempty
  have lock_nonempty := nonempty_iff.1 (spread.nonempty lock mem_cons_self)
  have inside : ∀ piece ∈ (leftOver lock request).map lock.piece,
      lock.start.toNat ≤ piece.start.toNat ∧ piece.start.toNat ≤ piece.stop.toNat ∧
        piece.stop.toNat ≤ lock.stop.toNat := by
    intro piece mem
    obtain ⟨-, left | right⟩ := mem_pieces mem
    · obtain ⟨start_eq, stop_eq, lt⟩ := left
      omega
    · obtain ⟨start_eq, stop_eq, lt⟩ := right
      omega
  constructor
  case spread =>
    refine ⟨?_, ?_, pairwise_append.2 ⟨pieces_ahead nonempty, later.spread.ahead, ?_⟩⟩
    · refine forall_mem_append.2 ⟨fun piece mem => ?_, later.spread.nonempty⟩
      exact nonempty_iff.2 (inside piece mem).2.1
    · refine forall_mem_append.2 ⟨fun piece mem => ?_, later.spread.known⟩
      rw [(mem_pieces mem).1]
      exact spread.known lock mem_cons_self
    · intro piece mem piece' mem'
      obtain ⟨-, -, stop_le⟩ := inside piece mem
      obtain ⟨lock', lock_mem, type_eq, start_le, -⟩ := later.within piece' mem'
      obtain ⟨lt, gap⟩ := spread.head_ahead lock' lock_mem
      rw [Ahead, (mem_pieces mem).1, type_eq]
      exact ⟨by omega, fun same => by have := gap same; omega⟩
  case within =>
    refine forall_mem_append.2 ⟨fun piece mem => ?_, fun piece mem => ?_⟩
    · obtain ⟨start_le, -, stop_le⟩ := inside piece mem
      exact ⟨lock, mem_cons_self, (mem_pieces mem).1, start_le, stop_le⟩
    · obtain ⟨lock', lock_mem, found⟩ := later.within piece mem
      exact ⟨lock', mem_cons_of_mem lock lock_mem, found⟩
  case type => exact later.type
  case wider => exact later.wider
  case start =>
    exact later.start.imp id fun ⟨l, mem, found⟩ => ⟨l, mem_cons_of_mem lock mem, found⟩
  case clear =>
    refine forall_mem_append.2 ⟨fun piece mem => ?_, later.clear⟩
    obtain ⟨type_eq, left | right⟩ := mem_pieces mem
    · obtain ⟨start_eq, stop_eq, lt⟩ := left
      refine .inl ⟨?_, fun same => absurd (type_eq.symm.trans (same.trans later.type)) other⟩
      rcases later.start with kept | ⟨lock', lock_mem, -, kept⟩
      · rw [kept]
        omega
      · have lt' := (spread.head_ahead lock' lock_mem).1
        rw [kept]
        omega
    · obtain ⟨start_eq, stop_eq, lt⟩ := right
      refine .inr ⟨?_, fun same => absurd (type_eq.symm.trans (same.symm.trans later.type)) other⟩
      -- The byte behind the request is one of the lock, which no later lock can bring in.
      dsimp only
      by_contra grown
      have next := (later.held request.type piece.start).1 (.inl ⟨rfl, ?_⟩)
      · have has : lock.Has piece.start := by rw [has_iff]; omega
        rcases next with ⟨-, request_has⟩ | ⟨-, held⟩
        · rw [has_iff] at request_has
          omega
        · exact spread.not_held has held
      · have wider := later.wider
        rw [has_iff]
        omega
  case held =>
    intro type byte
    have later_held := later.held type byte
    have alone : lock.Has byte → ¬ Held rest type byte := spread.not_held
    rw [held_append, held_pieces nonempty overlap, held_cons, or_left_comm, later_held]
    grind only

/-- What the loop does with the locks of one owner. -/
theorem executed (spread : Spread locks) (nonempty : request.Nonempty)
    (asked : request.type = .rdlck ∨ request.type = .wrlck ∨ request.type = .unlck) :
    Executed request locks (execRanges request locks) := by
  induction locks generalizing request with
  | nil => exact Executed.clear_of spread fun _ => nofun
  | cons lock rest ih =>
    have same_iff := lockEffect_staySame (spread.known lock mem_cons_self) asked
    have rel := related (spread.nonempty lock mem_cons_self) nonempty
    rw [execRanges]
    generalize relation lock request = relation at rel
    cases rel with
    | before lt gap =>
      exact Executed.before spread ⟨lt, fun same => gap (same_iff.2 same)⟩
        (ih spread.tail nonempty asked)
    | behind lt gap =>
      have ahead : Ahead request lock := ⟨lt, fun same => gap (same_iff.2 same.symm)⟩
      refine Executed.clear_of spread (forall_mem_cons.2 ⟨ahead, fun other mem => ?_⟩)
      have lock_nonempty := nonempty_iff.1 (spread.nonempty lock mem_cons_self)
      have lt' := (spread.head_ahead other mem).1
      exact ⟨by omega, fun _ => by omega⟩
    | release effect start_eq stop_eq =>
      exact Executed.release spread (lockEffect_unlock.1 effect) start_eq stop_eq
    | merge effect touch start_eq stop_eq =>
      have lock_nonempty := nonempty_iff.1 (spread.nonempty lock mem_cons_self)
      refine Executed.merge spread (same_iff.1 effect) nonempty touch start_eq stop_eq
        (ih spread.tail ?_ asked)
      rw [nonempty_iff]
      dsimp only
      omega
    | cut effect overlap =>
      exact Executed.cut spread nonempty
        (fun same => effect (same_iff.2 same)) overlap (ih spread.tail nonempty asked)

/-! ### The locks after a request -/

/-- A lock is inserted in front of the first one that does not start before it. -/
def insertByStart (new : Lock) (locks : List Lock) : List Lock :=
  locks.takeWhile (fun lock => lock.start < new.start) ++
    new :: locks.dropWhile (fun lock => lock.start < new.start)

/-- The locks of the owner after `flk_execute_request`. -/
def execAll (request : Lock) (locks : List Lock) : List Lock :=
  let result := execRanges request locks
  if request.type = .unlck then result.1 else insertByStart result.2 result.1

variable {new : Lock}

theorem mem_insertByStart : lock ∈ insertByStart new locks ↔ lock = new ∨ lock ∈ locks := by
  have split := @takeWhile_append_dropWhile _
    (fun lock : Lock => decide (lock.start < new.start)) locks
  nth_rewrite 2 [← split]
  simp only [insertByStart, mem_append, mem_cons]
  tauto

theorem Spread.insert (spread : Spread locks) (nonempty : new.Nonempty)
    (known : new.type = .rdlck ∨ new.type = .wrlck)
    (clear : ∀ lock ∈ locks, Ahead lock new ∨ Ahead new lock) :
    Spread (insertByStart new locks) where
  nonempty := by
    intro lock mem
    rcases mem_insertByStart.1 mem with rfl | mem
    · exact nonempty
    · exact spread.nonempty lock mem
  known := by
    intro lock mem
    rcases mem_insertByStart.1 mem with rfl | mem
    · exact known
    · exact spread.known lock mem
  ahead := by
    induction locks with
    | nil => exact pairwise_singleton _ _
    | cons lock rest ih =>
      have lock_nonempty := nonempty_iff.1 (spread.nonempty lock mem_cons_self)
      have new_nonempty := nonempty_iff.1 nonempty
      have later := ih spread.tail fun other mem => clear other (mem_cons_of_mem lock mem)
      by_cases lt : lock.start < new.start
      · have eq : insertByStart new (lock :: rest) = lock :: insertByStart new rest := by
          rw [insertByStart, takeWhile_cons_of_pos (by simpa using lt),
            dropWhile_cons_of_pos (by simpa using lt)]
          rfl
        rw [eq]
        refine pairwise_cons.2 ⟨fun other mem => ?_, later⟩
        rcases mem_insertByStart.1 mem with rfl | mem
        · rw [lt_iff_toNat] at lt
          rcases clear lock mem_cons_self with ahead | ahead
          · exact ahead
          · exact absurd ahead.1 (by omega)
        · exact spread.head_ahead other mem
      · have eq : insertByStart new (lock :: rest) = new :: lock :: rest := by
          rw [insertByStart, takeWhile_cons_of_neg (by simpa using lt),
            dropWhile_cons_of_neg (by simpa using lt)]
          rfl
        rw [lt_iff_toNat] at lt
        have ahead : Ahead new lock := by
          rcases clear lock mem_cons_self with ahead | ahead
          · exact absurd ahead.1 (by omega)
          · exact ahead
        rw [eq]
        refine pairwise_cons.2 ⟨forall_mem_cons.2 ⟨ahead, fun other mem => ?_⟩, spread.ahead⟩
        have lt_new := ahead.1
        have lt_other := (spread.head_ahead other mem).1
        exact ⟨by omega, fun _ => by omega⟩

variable (spread : Spread locks) (nonempty : request.Nonempty)
  (asked : request.type = .rdlck ∨ request.type = .wrlck ∨ request.type = .unlck)

include spread nonempty asked

theorem execAll_spread : Spread (execAll request locks) := by
  have result := executed spread nonempty asked
  rw [execAll]
  by_cases unlock : request.type = .unlck
  · rw [if_pos unlock]
    exact result.spread
  · rw [if_neg unlock]
    refine result.spread.insert ?_ ?_ result.clear
    · have wider := result.wider
      have request_nonempty := nonempty_iff.1 nonempty
      rw [nonempty_iff]
      omega
    · rw [result.type]
      tauto

theorem execAll_held {type : LockType} (known : type = .rdlck ∨ type = .wrlck) {byte : UOff} :
    Held (execAll request locks) type byte ↔
      type = request.type ∧ request.Has byte ∨ ¬ request.Has byte ∧ Held locks type byte := by
  have result := executed spread nonempty asked
  rw [← result.held type byte, execAll]
  by_cases unlock : request.type = .unlck
  · rw [if_pos unlock]
    refine ⟨.inr, fun held => held.resolve_left ?_⟩
    rintro ⟨rfl, -⟩
    rw [unlock] at known
    exact absurd known (by decide)
  · rw [if_neg unlock, Held]
    simp only [mem_insertByStart, or_and_right, exists_or, exists_eq_left, result.type]
    exact or_congr (and_congr_left fun _ => eq_comm) Iff.rfl

end Flock

end Sol25
