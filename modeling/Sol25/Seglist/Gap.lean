import Sol25.Data.Gaps
import Sol25.Seglist.Run

/-!
# Holes of an address space

`as_gap` goes through the holes between the segments in either direction and takes the first one
whose part in the given range will do.  Which ranges can be mapped is for the machine to say
(`valid_va_range`).
-/

namespace Sol25.Seglist

open List Option Bool Nat

def ahDir : BitVec 32 := 1

def ahLo : BitVec 32 := 0

def ahHi : BitVec 32 := 1

def ahContain : BitVec 32 := 2

/-- `valid_va_range`: whether it accepts a range, by its base, its length, the least length and the
direction, and the base and the length that it leaves. -/
abbrev ValidVaRange := ℕ → ℕ → ℕ → BitVec 32 → Bool × ℕ × ℕ

/-- A range that is accepted may have shrunk, but not below the least length. -/
def Shrinks (valid : ValidVaRange) : Prop :=
  ∀ base len minlen dir base' len', valid base len minlen dir = (true, base', len') →
    base ≤ base' ∧ base' + len' ≤ base + len ∧ minlen ≤ len'

/-- What a call of `as_gap` asks for. -/
structure Wanted where
  valid : ValidVaRange
  minlen : ℕ
  lobound : ℕ
  hibound : ℕ
  flags : BitVec 32
  addr : ℕ

namespace Wanted

/-- Whether the holes are gone through from the lowest one on. -/
def forward (w : Wanted) : Bool := w.flags &&& ahDir = ahLo

/-- A range that `valid_va_range` has left contains the address, if it has to. -/
def Contains (w : Wanted) (base len : ℕ) : Prop :=
  w.flags &&& ahContain = 0 ∨ base ≤ w.addr ∧ w.addr < base + len

instance (w : Wanted) (base len : ℕ) : Decidable (w.Contains base len) :=
  inferInstanceAs (Decidable (_ ∨ _ ∧ _))

/-- What `valid_va_range` says about the part of a hole within the range. -/
def offer (w : Wanted) (lo hi : ℕ) : Bool × ℕ × ℕ :=
  w.valid lo (hi - lo) w.minlen (if w.forward then ahLo else ahHi)

/-- The body of the loop of `as_gap`: what becomes of the part of a hole within the range. -/
def tryHole (w : Wanted) (lo hi : ℕ) : Option (ℕ × ℕ) :=
  if w.hibound < lo ∨ hi < w.lobound then none
  else
    let lo := if lo < w.lobound then w.lobound else lo
    let hi := if w.hibound < hi then w.hibound else hi
    let (ok, base, len) := w.offer lo hi
    if ok ∧ w.Contains base len then some (base, len) else none

end Wanted

/-- The loop of `as_gap`. -/
def gapLoop (s : State) (w : Wanted) : ℕ → Option ℕ → Option ℕ → Option (Option (ℕ × ℕ))
  | 0, _, _ => none
  | fuel + 1, lseg, hseg =>
    let lo := lseg.elim 0 s.eaddr
    let hi := hseg.elim w.hibound fun hseg => (s.seg hseg).base
    if w.forward ∧ w.hibound < lo ∨ ¬ w.forward ∧ hi < w.lobound then some none
    else
      match w.tryHole lo hi with
      | some range => some (some range)
      | none =>
        if w.forward then
          hseg.elim (some none) fun seg =>
            gapLoop s w fuel (some seg) (s.segp (s.seg seg).next (some seg))
        else lseg.elim (some none) fun seg => gapLoop s w fuel (s.seg seg).prev (some seg)

/-- `as_gap`: whether it succeeds, and `*basep` and `*lenp` behind it. -/
def asGap (valid : ValidVaRange) (s : State) (minlen base len : ℕ) (flags : BitVec 32) (addr : ℕ) :
    Option ((Bool × ℕ × ℕ) × State) :=
  let w : Wanted := ⟨valid, minlen, base, (base + len) % 2 ^ 32, flags, addr⟩
  match s.segp s.list none with
  | none =>
    match valid base len minlen (flags &&& ahDir) with
    | (true, base, len) => some ((true, base, len), s)
    | (false, _, _) => some ((false, base, len), s)
  | some _ =>
    (asFindseg s (if w.forward then w.lobound else w.hibound) true).bind fun (hseg, s) =>
      hseg.bind fun hseg =>
        let (lseg, hseg) :=
          if ¬ w.forward ∧ s.eaddr hseg < w.hibound then (some hseg, none)
          else ((s.seg hseg).prev, some hseg)
        (gapLoop s w (s.nsegs + 1) lseg hseg).map fun range =>
          (range.elim (false, base, len) fun (base, len) => (true, base, len), s)

/-! ### The loop as a search through the holes -/

section Loop

variable {s : State} {w : Wanted} {l front back : List ℕ} {lo hi fuel : ℕ} {range : ℕ × ℕ}

/-- Where the segments lie. -/
def State.intervals (s : State) (l : List ℕ) : List (ℕ × ℕ) :=
  l.map fun p => ((s.seg p).base, s.eaddr p)

theorem Ordered.laid (ordered : Ordered s l) {bot top : ℕ} (bounds : bot ≤ top)
    (above : ∀ p ∈ l, bot ≤ (s.seg p).base) (below : ∀ p ∈ l, s.eaddr p ≤ top) :
    Laid bot (s.intervals l) top := by
  induction l generalizing bot with
  | nil => exact bounds
  | cons p l ih =>
    have behind := (pairwise_cons.1 ordered.order).1
    refine ⟨above p mem_cons_self, base_lt_eaddr ordered mem_cons_self, ?_⟩
    exact ih (ordered.sublist (sublist_cons_self p l)) (below p mem_cons_self) behind
      fun q q_mem => below q (mem_cons_of_mem p q_mem)

namespace Wanted

theorem tryHole_none (outside : w.hibound < lo ∨ hi < w.lobound) : w.tryHole lo hi = none :=
  if_pos outside

/-- `valid_va_range` accepts the part of a hole within the range and leaves a part of it that will
do. -/
structure Accepts (w : Wanted) (lo hi base len : ℕ) : Prop where
  offer : w.offer (max lo w.lobound) (min hi w.hibound) = (true, base, len)
  contains : w.Contains base len

theorem Accepts.room {base len : ℕ} (accepts : w.Accepts lo hi base len) (shrinks : Shrinks w.valid)
    (positive : 0 < w.minlen) : max lo w.lobound < min hi w.hibound := by
  obtain ⟨start_le, end_le, long⟩ := shrinks _ _ _ _ _ _ accepts.offer
  omega

theorem tryHole_eq_some_iff (w : Wanted) {base len : ℕ} (shrinks : Shrinks w.valid)
    (positive : 0 < w.minlen) : w.tryHole lo hi = some (base, len) ↔ w.Accepts lo hi base len := by
  have start_eq : (if lo < w.lobound then w.lobound else lo) = max lo w.lobound := by
    split_ifs <;> omega
  have end_eq : (if w.hibound < hi then w.hibound else hi) = min hi w.hibound := by
    split_ifs <;> omega
  rw [tryHole, start_eq, end_eq]
  constructor
  · intro tried
    by_cases outside : w.hibound < lo ∨ hi < w.lobound
    · rw [if_pos outside] at tried
      exact nomatch tried
    rw [if_neg outside] at tried
    dsimp only at tried
    cases result : w.offer (max lo w.lobound) (min hi w.hibound) with
    | mk ok range =>
      rw [result] at tried
      obtain ⟨accepted, eq⟩ := ite_none_right_eq_some.1 tried
      obtain rfl : ok = true := accepted.1
      cases eq
      exact ⟨result, accepted.2⟩
  · intro accepts
    have room := accepts.room shrinks positive
    rw [if_neg (by omega)]
    dsimp only
    rw [accepts.offer]
    exact if_pos ⟨rfl, accepts.contains⟩

theorem tryHole_top (range : w.lobound ≤ w.hibound) {top : ℕ} (le : w.hibound ≤ top) :
    w.tryHole lo w.hibound = w.tryHole lo top := by
  have same : (w.hibound < lo ∨ w.hibound < w.lobound) ↔ (w.hibound < lo ∨ top < w.lobound) := by
    omega
  have clipped : (if w.hibound < w.hibound then w.hibound else w.hibound) =
      if w.hibound < top then w.hibound else top := by
    split_ifs <;> omega
  rw [tryHole, tryHole, clipped]
  simp only [same]

variable {holes : List (ℕ × ℕ)}

theorem findSome_above (above : ∀ hole ∈ holes, w.hibound < hole.1) :
    (holes.findSome? fun hole => w.tryHole hole.1 hole.2) = none :=
  findSome?_eq_none_iff.2 fun hole mem => tryHole_none (.inl (above hole mem))

theorem findSome_below (below : ∀ hole ∈ holes, hole.2 < w.lobound) :
    (holes.findSome? fun hole => w.tryHole hole.1 hole.2) = none :=
  findSome?_eq_none_iff.2 fun hole mem => tryHole_none (.inr (below hole mem))

end Wanted

/-- Going up, the loop tries a hole and goes on to the next one unless it is past the range. -/
theorem gapLoop_up (forward : w.forward = true) (lseg hseg : Option ℕ)
    (lo_eq : lseg.elim 0 s.eaddr = lo)
    (hi_eq : (hseg.elim w.hibound fun hseg => (s.seg hseg).base) = hi) :
    gapLoop s w (fuel + 1) lseg hseg =
      match w.tryHole lo hi with
      | some range => some (some range)
      | none =>
        if w.hibound < lo then some none
        else hseg.elim (some none) fun seg => gapLoop s w fuel (some seg) (s.chain.next seg) := by
  subst lo_eq hi_eq
  rw [gapLoop]
  by_cases past : w.hibound < lseg.elim 0 s.eaddr
  · rw [if_pos (.inl ⟨forward, past⟩), Wanted.tryHole_none (.inl past)]
    exact (if_pos past).symm
  · rw [if_neg (by rintro (⟨-, above⟩ | ⟨backward, -⟩); exacts [past above, backward forward])]
    cases w.tryHole (lseg.elim 0 s.eaddr) (hseg.elim w.hibound fun hseg => (s.seg hseg).base) with
    | some range => rfl
    | none => exact (if_pos forward).trans (if_neg past).symm

/-- Going down, likewise. -/
theorem gapLoop_down (backward : w.forward = false) (lseg hseg : Option ℕ)
    (lo_eq : lseg.elim 0 s.eaddr = lo)
    (hi_eq : (hseg.elim w.hibound fun hseg => (s.seg hseg).base) = hi) :
    gapLoop s w (fuel + 1) lseg hseg =
      match w.tryHole lo hi with
      | some range => some (some range)
      | none =>
        if hi < w.lobound then some none
        else lseg.elim (some none) fun seg => gapLoop s w fuel (s.chain.prev seg) (some seg) := by
  subst lo_eq hi_eq
  have not_forward : ¬ w.forward = true := eq_false_iff.1 backward
  rw [gapLoop]
  by_cases past : (hseg.elim w.hibound fun hseg => (s.seg hseg).base) < w.lobound
  · rw [if_pos (.inr ⟨not_forward, past⟩), Wanted.tryHole_none (.inr past)]
    exact (if_pos past).symm
  · rw [if_neg (by rintro (⟨forward, -⟩ | ⟨-, below⟩); exacts [not_forward forward, past below])]
    cases w.tryHole (lseg.elim 0 s.eaddr) (hseg.elim w.hibound fun hseg => (s.seg hseg).base) with
    | some range => rfl
    | none => exact (if_neg not_forward).trans (if_neg past).symm

def Wanted.first (w : Wanted) (holes : List (ℕ × ℕ)) : Option (ℕ × ℕ) :=
  holes.findSome? fun hole => w.tryHole hole.1 hole.2

theorem Wanted.first_cons (w : Wanted) (hole : ℕ × ℕ) (holes : List (ℕ × ℕ)) :
    w.first (hole :: holes) =
      match w.tryHole hole.1 hole.2 with
      | some range => some range
      | none => w.first holes := by
  rw [first, findSome?_cons]
  cases w.tryHole hole.1 hole.2 with
  | some range => rfl
  | none => rfl

theorem Ordered.lo_le {b : ℕ} (ordered : Ordered s (front ++ b :: back)) :
    front.getLast?.elim 0 s.eaddr ≤ (s.seg b).base := by
  rcases eq_nil_or_concat' front with rfl | ⟨front, a, rfl⟩
  · exact zero_le _
  · rw [getLast?_concat]
    have apart := (pairwise_append.1 ordered.order).2.2
    exact apart a (mem_append_right _ (mem_singleton_self a)) b mem_cons_self

/-- The holes from a segment on. -/
theorem gapLoop_forward (chain : s.chain.Holds (front ++ back))
    (ordered : Ordered s (front ++ back)) (forward : w.forward = true)
    (range : w.lobound ≤ w.hibound) {top : ℕ} (le_top : w.hibound ≤ top)
    (below : ∀ p ∈ front ++ back, s.eaddr p ≤ top) (lo_eq : front.getLast?.elim 0 s.eaddr = lo) :
    gapLoop s w (fuel + back.length + 1) front.getLast? back.head? =
      some (w.first (gaps lo (s.intervals back) top)) := by
  induction back generalizing front lo with
  | nil =>
    rw [@gapLoop_up s w lo w.hibound _ forward _ _ lo_eq rfl]
    change _ = some (w.first [(lo, top)])
    rw [Wanted.first_cons, Wanted.tryHole_top range le_top]
    cases w.tryHole lo top with
    | some range => rfl
    | none => exact ite_self _
  | cons b back ih =>
    have next : s.chain.next b = back.head? := chain.neighbours.2
    have split : front ++ b :: back = (front ++ [b]) ++ back := by simp
    have laid : Laid (s.eaddr b) (s.intervals back) top := by
      obtain ⟨-, back_order, -⟩ := pairwise_append.1 ordered.order
      refine (ordered.sublist (sublist_append_of_sublist_right
        (sublist_cons_self b back))).laid ?_ (pairwise_cons.1 back_order).1 ?_
      · exact below b (mem_append_right _ mem_cons_self)
      · exact fun p p_mem => below p (mem_append_right _ (mem_cons_of_mem b p_mem))
    have b_lt := base_lt_eaddr ordered (mem_append_right front mem_cons_self)
    have lo_le := ordered.lo_le
    rw [lo_eq] at lo_le
    rw [split] at chain ordered below
    have later := ih chain ordered below (by rw [getLast?_concat, elim_some])
    rw [getLast?_concat] at later
    rw [@gapLoop_up s w lo (s.seg b).base _ forward _ _ lo_eq rfl]
    change _ = some (w.first ((lo, (s.seg b).base) :: gaps (s.eaddr b) (s.intervals back) top))
    rw [Wanted.first_cons]
    dsimp only [head?_cons, elim_some]
    cases w.tryHole lo (s.seg b).base with
    | some range => rfl
    | none =>
      dsimp only
      by_cases past : w.hibound < lo
      · have above : w.first (gaps (s.eaddr b) (s.intervals back) top) = none := by
          refine Wanted.findSome_above fun hole hole_mem => ?_
          have behind := (laid.gaps_le hole_mem).1
          omega
        rw [if_pos past, above]
      · rw [if_neg past, next]
        exact later

theorem Ordered.le_hi {a top : ℕ} (ordered : Ordered s ((front ++ [a]) ++ back))
    (below : ∀ p ∈ (front ++ [a]) ++ back, s.eaddr p ≤ top) :
    s.eaddr a ≤ back.head?.elim top fun hseg => (s.seg hseg).base := by
  cases back with
  | nil => exact below a (by simp)
  | cons b back =>
    have apart := (pairwise_append.1 ordered.order).2.2
    exact apart a (mem_append_right _ (mem_singleton_self a)) b mem_cons_self

theorem intervals_concat (s : State) (front : List ℕ) (a : ℕ) :
    s.intervals (front ++ [a]) = s.intervals front ++ [((s.seg a).base, s.eaddr a)] :=
  map_append

/-- The holes from a segment down. -/
theorem gapLoop_backward (chain : s.chain.Holds (front ++ back))
    (ordered : Ordered s (front ++ back)) (backward : w.forward = false)
    (range : w.lobound ≤ w.hibound) {top : ℕ} (le_top : w.hibound ≤ top)
    (below : ∀ p ∈ front ++ back, s.eaddr p ≤ top)
    (hi_eq : (back.head?.elim top fun hseg => (s.seg hseg).base) = hi) :
    gapLoop s w (fuel + front.length + 1) front.getLast? back.head? =
      some (w.first (gaps 0 (s.intervals front) hi).reverse) := by
  -- The highest hole is tried up to the bound of the range.
  have tried : ∀ lo, w.tryHole lo (back.head?.elim w.hibound fun hseg => (s.seg hseg).base) =
      w.tryHole lo hi := by
    intro lo
    cases back with
    | nil =>
      obtain rfl : top = hi := hi_eq
      exact Wanted.tryHole_top range le_top
    | cons b back =>
      obtain rfl : (s.seg b).base = hi := hi_eq
      rfl
  have past_iff : (back.head?.elim w.hibound fun hseg => (s.seg hseg).base) < w.lobound ↔
      hi < w.lobound := by
    cases back with
    | nil =>
      obtain rfl : top = hi := hi_eq
      change w.hibound < w.lobound ↔ _
      omega
    | cons b back =>
      obtain rfl : (s.seg b).base = hi := hi_eq
      exact Iff.rfl
  induction front using List.reverseRecOn generalizing back hi with
  | nil =>
    rw [gapLoop_down backward _ _ rfl rfl, tried]
    change _ = some (w.first [(0, hi)])
    rw [Wanted.first_cons]
    dsimp only [getLast?_nil, elim_none]
    cases w.tryHole 0 hi with
    | some range => rfl
    | none => exact ite_self _
  | append_singleton front a ih =>
    have le_hi := ordered.le_hi below
    rw [hi_eq] at le_hi
    have prev : s.chain.prev a = front.getLast? := by
      rw [append_assoc] at chain
      exact chain.neighbours.1
    have a_lt := base_lt_eaddr ordered (show a ∈ (front ++ [a]) ++ back by simp)
    have laid : Laid 0 (s.intervals front) (s.seg a).base := by
      obtain ⟨front_order, -, apart⟩ := pairwise_append.1
        (pairwise_append.1 ordered.order).1
      have front_ordered : Ordered s front := by
        refine ordered.sublist ?_
        rw [append_assoc]
        exact sublist_append_left ..
      exact front_ordered.laid (zero_le _) (fun _ _ => zero_le _)
        fun p p_mem => apart p p_mem a (mem_singleton_self a)
    rw [append_assoc] at chain ordered below
    have later := @ih (a :: back) (s.seg a).base chain ordered below rfl (fun _ => rfl) Iff.rfl
    rw [getLast?_concat, gapLoop_down backward _ _ rfl rfl, tried, intervals_concat,
      gaps_append, reverse_append]
    change _ = some (w.first ((s.eaddr a, hi) :: (gaps 0 (s.intervals front) _).reverse))
    rw [Wanted.first_cons]
    dsimp only [elim_some]
    cases w.tryHole (s.eaddr a) hi with
    | some range => rfl
    | none =>
      dsimp only
      by_cases past : hi < w.lobound
      · have beneath : w.first (gaps 0 (s.intervals front) (s.seg a).base).reverse = none := by
          refine Wanted.findSome_below fun hole hole_mem => ?_
          have before := (laid.gaps_le (mem_reverse.1 hole_mem)).2.2
          omega
        rw [if_pos (past_iff.2 past), beneath]
      · rw [if_neg fun is_past => past (past_iff.1 is_past), prev, length_append]
        exact later

/-! ### Where the loop starts -/

theorem Wanted.first_append (w : Wanted) (holes holes' : List (ℕ × ℕ)) :
    w.first (holes ++ holes') = (w.first holes).or (w.first holes') := findSome?_append ..

theorem Wanted.first_beyond (shrinks : Shrinks w.valid) (positive : 0 < w.minlen)
    (beyond : ∀ hole ∈ holes, w.hibound ≤ hole.1) :
    w.first holes = none := by
  refine findSome?_eq_none_iff.2 fun hole mem => eq_none_iff_forall_ne_some.2 ?_
  rintro ⟨base, len⟩ tried
  have room := ((w.tryHole_eq_some_iff shrinks positive).1 tried).room shrinks positive
  have behind := beyond hole mem
  omega

/-- Where a walk up may start: the segments left out end at the bound of the range or below. -/
theorem first_from {top : ℕ} (ordered : Ordered s (front ++ back))
    (below : ∀ p ∈ front, s.eaddr p ≤ w.lobound) :
    w.first (gaps 0 (s.intervals (front ++ back)) top) =
      w.first (gaps (front.getLast?.elim 0 s.eaddr) (s.intervals back) top) := by
  rcases eq_nil_or_concat' front with rfl | ⟨front, a, rfl⟩
  · rfl
  have front_ordered := ordered.sublist (sublist_append_left ..)
  have apart := (pairwise_append.1 front_ordered.order).2.2
  have a_lt := base_lt_eaddr front_ordered (mem_append_right _ (mem_singleton_self a))
  have a_below := below a (mem_append_right _ (mem_singleton_self a))
  have laid : Laid 0 (s.intervals front) (s.seg a).base :=
    (front_ordered.sublist (sublist_append_left ..)).laid (zero_le _)
      (fun _ _ => zero_le _) fun p p_mem => apart p p_mem a (mem_singleton_self a)
  have beneath : w.first (gaps 0 (s.intervals front) (s.seg a).base) = none := by
    refine Wanted.findSome_below fun hole hole_mem => ?_
    have before := (laid.gaps_le hole_mem).2.2
    omega
  rw [getLast?_concat, State.intervals, map_append, ← State.intervals, intervals_concat,
    append_assoc, singleton_append, gaps_append, Wanted.first_append, beneath]
  rfl

/-- Where a walk down may start: the segment at the end reaches the bound of the range. -/
theorem first_downto {b top : ℕ} (shrinks : Shrinks w.valid) (positive : 0 < w.minlen)
    (ordered : Ordered s (front ++ b :: back)) (below : ∀ p ∈ front ++ b :: back, s.eaddr p ≤ top)
    (reaches : w.hibound ≤ s.eaddr b) :
    w.first (gaps 0 (s.intervals (front ++ b :: back)) top).reverse =
      w.first (gaps 0 (s.intervals front) (s.seg b).base).reverse := by
  have back_ordered := ordered.sublist (sublist_append_right ..)
  have laid : Laid (s.eaddr b) (s.intervals back) top :=
    (back_ordered.sublist (sublist_cons_self b back)).laid
      (below b (mem_append_right _ mem_cons_self))
      (pairwise_cons.1 back_ordered.order).1
      fun p p_mem => below p (mem_append_right _ (mem_cons_of_mem b p_mem))
  have beyond : w.first (gaps (s.eaddr b) (s.intervals back) top).reverse = none := by
    refine Wanted.first_beyond shrinks positive fun hole hole_mem => ?_
    have behind := (laid.gaps_le (mem_reverse.1 hole_mem)).1
    omega
  have split : s.intervals (front ++ b :: back) =
      s.intervals front ++ ((s.seg b).base, s.eaddr b) :: s.intervals back := map_append
  rw [split, gaps_append, reverse_append, Wanted.first_append, beyond]
  rfl

end Loop

section Call

variable {valid : ValidVaRange} {s s' : State} {l : List ℕ} {minlen base len addr : ℕ}
  {flags : BitVec 32}

/-- The holes of an address space in the direction that the flags ask for. -/
def holes (s : State) (l : List ℕ) (flags : BitVec 32) : List (ℕ × ℕ) :=
  if flags &&& ahDir = ahLo then gaps 0 (s.intervals l) (2 ^ 32)
  else (gaps 0 (s.intervals l) (2 ^ 32)).reverse

theorem SameAreas.intervals (same : SameAreas s s') (l : List ℕ) :
    s'.intervals l = s.intervals l := by
  refine map_congr_left fun p _ => ?_
  rw [same.eaddr, (same p).1]

theorem SameAreas.splits {front back : List ℕ} (same : SameAreas s s')
    (splits : Splits s addr front back) : Splits s' addr front back := by
  refine ⟨fun p p_mem => ?_, fun p p_mem => ?_⟩
  · rw [same.eaddr]
    exact splits.below p p_mem
  · rw [same.eaddr]
    exact splits.above p p_mem

section Start

variable {front back : List ℕ} {w : Wanted} {top : ℕ}

/-- `as_findseg` has found where a walk up begins. -/
theorem gapLoop_from (held : Held s (front ++ back)) (nonempty : front ++ back ≠ [])
    (splits : Splits s w.lobound front back) (forward : w.forward = true)
    (range : w.lobound ≤ w.hibound) (le_top : w.hibound ≤ top)
    (below : ∀ p ∈ front ++ back, s.eaddr p ≤ top) :
    ∃ hseg, found (front ++ back) back true = some hseg ∧
      gapLoop s w (s.nsegs + 1) (s.seg hseg).prev (some hseg) =
        some (w.first (gaps 0 (s.intervals (front ++ back)) top)) := by
  obtain ⟨-, ordered, chain, nsegs⟩ := held.represents
  cases back with
  | cons b back =>
    have prev : (s.seg b).prev = front.getLast? := chain.neighbours.1
    refine ⟨b, rfl, ?_⟩
    rw [nsegs, length_append, prev, first_from ordered splits.below]
    exact gapLoop_forward chain ordered forward range le_top below rfl
  | nil =>
    rcases eq_nil_or_concat' front with rfl | ⟨front, c, rfl⟩
    · exact absurd rfl nonempty
    rw [append_nil] at ordered chain below nsegs ⊢
    have prev : (s.seg c).prev = front.getLast? := chain.neighbours.1
    refine ⟨c, ?_, ?_⟩
    · rw [found, if_pos rfl, getLast?_concat]
      rfl
    · rw [nsegs, length_append, prev,
        first_from ordered fun p p_mem => splits.below p (mem_append_left _ p_mem)]
      exact gapLoop_forward chain ordered forward range le_top below rfl

/-- `as_findseg` has found where a walk down begins. -/
theorem gapLoop_downto (held : Held s (front ++ back)) (nonempty : front ++ back ≠ [])
    (splits : Splits s w.hibound front back) (backward : w.forward = false)
    (shrinks : Shrinks w.valid) (positive : 0 < w.minlen) (range : w.lobound ≤ w.hibound)
    (le_top : w.hibound ≤ top) (below : ∀ p ∈ front ++ back, s.eaddr p ≤ top) :
    ∃ hseg, found (front ++ back) back true = some hseg ∧
      (s.eaddr hseg < w.hibound → gapLoop s w (s.nsegs + 1) (some hseg) none =
        some (w.first (gaps 0 (s.intervals (front ++ back)) top).reverse)) ∧
      (¬ s.eaddr hseg < w.hibound → gapLoop s w (s.nsegs + 1) (s.seg hseg).prev (some hseg) =
        some (w.first (gaps 0 (s.intervals (front ++ back)) top).reverse)) := by
  obtain ⟨-, ordered, chain, nsegs⟩ := held.represents
  cases back with
  | cons b back =>
    have prev : (s.seg b).prev = front.getLast? := chain.neighbours.1
    have above := splits.above b mem_cons_self
    refine ⟨b, rfl, fun short => absurd above (Nat.lt_asymm short), fun _ => ?_⟩
    rw [nsegs, length_append, Nat.add_comm front.length, prev,
      first_downto shrinks positive ordered below (Nat.le_of_lt above)]
    exact gapLoop_backward chain ordered backward range le_top below rfl
  | nil =>
    rcases eq_nil_or_concat' front with rfl | ⟨front, c, rfl⟩
    · exact absurd rfl nonempty
    have whole := @gapLoop_backward s w (front ++ [c])
      [] _ 0 chain ordered backward range top le_top
      below rfl
    rw [append_nil] at ordered chain below nsegs ⊢
    have prev : (s.seg c).prev = front.getLast? := chain.neighbours.1
    refine ⟨c, ?_, fun _ => ?_, fun reaches => ?_⟩
    · rw [found, if_pos rfl, getLast?_concat]
      rfl
    · rw [Nat.zero_add, getLast?_concat] at whole
      rw [nsegs]
      exact whole
    · rw [nsegs, length_append, Nat.add_comm front.length, prev,
        first_downto shrinks positive ordered below (Nat.not_lt.1 reaches)]
      exact gapLoop_backward chain ordered backward range le_top below rfl

end Start

/-- `as_gap` takes the first hole in its direction that will do. -/
theorem asGap_first (held : Held s l) (nonempty : l ≠ []) (shrinks : Shrinks valid)
    (positive : 0 < minlen) (range : base + len < 2 ^ 32) (below : ∀ p ∈ l, s.eaddr p ≤ 2 ^ 32) :
    ∃ s', asGap valid s minlen base len flags addr =
      some (((Wanted.mk valid minlen base (base + len) flags addr).first
        (holes s l flags)).elim (false, base, len) fun (base, len) => (true, base, len), s') ∧
      Held s' l ∧ SameAreas s s' := by
  have first : s.segp s.list none = l.head? := held.represents.chain.first
  obtain ⟨p, l', l_eq⟩ := exists_cons_of_ne_nil nonempty
  rw [l_eq, head?_cons] at first
  rw [asGap, first, mod_eq_of_lt range]
  dsimp only
  have le_top : base + len ≤ 2 ^ 32 := Nat.le_of_lt range
  by_cases forward : (Wanted.mk valid minlen base (base + len) flags addr).forward = true
  · rw [if_pos forward]
    obtain ⟨front, back, s', rfl, splits, finds, held', same⟩ := held.asFindseg base true
    have below' : ∀ p ∈ front ++ back, s'.eaddr p ≤ 2 ^ 32 := fun p p_mem => by
      rw [same.eaddr]
      exact below p p_mem
    obtain ⟨hseg, is_found, loops⟩ := gapLoop_from held' nonempty (same.splits splits) forward
      (Nat.le_add_right ..) le_top below'
    have not_down : ¬ (¬ (Wanted.mk valid minlen base (base + len) flags addr).forward = true ∧
        s'.eaddr hseg < base + len) := fun down => down.1 forward
    refine ⟨s', ?_, held', same⟩
    rw [finds, is_found, bind_some, bind_some, if_neg not_down]
    dsimp only
    rw [loops, same.intervals, holes, if_pos (of_decide_eq_true forward)]
    rfl
  · rw [if_neg forward]
    obtain ⟨front, back, s', rfl, splits, finds, held', same⟩ := held.asFindseg (base + len) true
    have below' : ∀ p ∈ front ++ back, s'.eaddr p ≤ 2 ^ 32 := fun p p_mem => by
      rw [same.eaddr]
      exact below p p_mem
    obtain ⟨hseg, is_found, past, reaches⟩ := gapLoop_downto held' nonempty
      (same.splits splits) (eq_false_iff.2 forward) shrinks positive (Nat.le_add_right ..)
      le_top below'
    refine ⟨s', ?_, held', same⟩
    rw [finds, is_found, bind_some, bind_some]
    by_cases short : s'.eaddr hseg < base + len
    · rw [if_pos ⟨forward, short⟩]
      dsimp only
      rw [past short, same.intervals, holes, if_neg fun lo => forward (decide_eq_true lo)]
      rfl
    · rw [if_neg fun down => short down.2]
      dsimp only
      rw [reaches short, same.intervals, holes, if_neg fun lo => forward (decide_eq_true lo)]
      rfl

/-! ### The whole of it -/

/-- What `as_gap` answers about segments in some intervals. -/
structure GapLaw (intervals : List (ℕ × ℕ)) (w : Wanted) (base len : ℕ) (answer : Bool × ℕ × ℕ) :
    Prop where
  /-- It succeeds if a part of some hole will do. -/
  succeeds : answer.1 = true ↔
    ∃ lo hi base' len', IsGap 0 intervals (2 ^ 32) lo hi ∧ w.Accepts lo hi base' len'
  /-- What it has found is such a part, and meets no segment. -/
  hole : answer.1 = true →
    ∃ lo hi, IsGap 0 intervals (2 ^ 32) lo hi ∧ w.Accepts lo hi answer.2.1 answer.2.2
  clear : answer.1 = true → Clear intervals answer.2.1 (answer.2.1 + answer.2.2)
  inside : answer.1 = true → w.lobound ≤ answer.2.1 ∧ answer.2.1 + answer.2.2 ≤ w.hibound
  long : answer.1 = true → w.minlen ≤ answer.2.2
  /-- It is the lowest one or the highest one. -/
  outermost : answer.1 = true → ∀ lo hi base' len', IsGap 0 intervals (2 ^ 32) lo hi →
    w.Accepts lo hi base' len' →
    if w.flags &&& ahDir = ahLo then answer.2.1 ≤ base' else base' ≤ answer.2.1
  kept : answer.1 = false → answer.2 = (base, len)

namespace Wanted

variable {w : Wanted} {lo hi lo' hi' base' len' : ℕ}

theorem Accepts.inside (accepts : w.Accepts lo hi base len) (shrinks : Shrinks w.valid)
    (positive : 0 < w.minlen) : lo ≤ base ∧ w.lobound ≤ base ∧ base + len ≤ hi ∧
      base + len ≤ w.hibound ∧ w.minlen ≤ len := by
  have room := accepts.room shrinks positive
  obtain ⟨start_le, end_le, long⟩ := shrinks _ _ _ _ _ _ accepts.offer
  omega

theorem Accepts.unique (accepts : w.Accepts lo hi base len)
    (accepts' : w.Accepts lo hi base' len') : base = base' := by
  have same := accepts.offer.symm.trans accepts'.offer
  exact congrArg (fun range : Bool × ℕ × ℕ => range.2.1) same

/-- The first hole that will do, in a list of all of them that goes up or down. -/
theorem first_law {intervals : List (ℕ × ℕ)} (shrinks : Shrinks w.valid) (positive : 0 < w.minlen)
    (laid : Laid 0 intervals (2 ^ 32)) (list : List (ℕ × ℕ))
    (mem_iff : ∀ hole, hole ∈ list ↔ hole ∈ gaps 0 intervals (2 ^ 32))
    (order : list.Pairwise fun a b =>
      if w.flags &&& ahDir = ahLo then a.2 ≤ b.1 else b.2 ≤ a.1) :
    GapLaw intervals w base len
      ((w.first list).elim (false, base, len) fun (base, len) => (true, base, len)) := by
  have accepted : ∀ lo hi base' len', IsGap 0 intervals (2 ^ 32) lo hi →
      w.Accepts lo hi base' len' → (lo, hi) ∈ list ∧ w.tryHole lo hi = some (base', len') :=
    fun lo hi base' len' gap accepts => ⟨(mem_iff _).2 (laid.isGap_iff.1 gap).1,
      (w.tryHole_eq_some_iff shrinks positive).2 accepts⟩
  cases result : w.first list with
  | none =>
    have none_tried := findSome?_eq_none_iff.1 result
    refine ⟨⟨nofun, ?_⟩, nofun, nofun, nofun, nofun, nofun, fun _ => rfl⟩
    rintro ⟨lo, hi, base', len', gap, accepts⟩
    obtain ⟨mem, tried⟩ := accepted lo hi base' len' gap accepts
    exact nomatch (none_tried (lo, hi) mem).symm.trans tried
  | some range =>
    obtain ⟨b, n⟩ := range
    obtain ⟨before, ⟨lo, hi⟩, after, rfl, tried, none_before⟩ := findSome?_eq_some_iff.1 result
    have accepts := (w.tryHole_eq_some_iff shrinks positive).1 tried
    have lt : lo < hi := by
      have room := accepts.room shrinks positive
      omega
    have gap : IsGap 0 intervals (2 ^ 32) lo hi :=
      laid.isGap_iff.2 ⟨(mem_iff _).1 (mem_append_right _ mem_cons_self), lt⟩
    have inside := accepts.inside shrinks positive
    have later := (pairwise_cons.1 (pairwise_append.1 order).2.1).1
    refine ⟨⟨fun _ => ⟨lo, hi, b, n, gap, accepts⟩, fun _ => rfl⟩, fun _ => ⟨lo, hi, gap, accepts⟩,
      fun _ a a_mem x le lt => ?_, fun _ => ⟨inside.2.1, inside.2.2.2.1⟩,
      fun _ => inside.2.2.2.2, fun _ lo' hi' base' len' gap' accepts' => ?_, nofun⟩
    · exact gap.clear a a_mem x (Nat.le_trans inside.1 le) (Nat.lt_of_lt_of_le lt inside.2.2.1)
    · obtain ⟨mem, tried'⟩ := accepted lo' hi' base' len' gap' accepts'
      have inside' := accepts'.inside shrinks positive
      rcases mem_append.1 mem with earlier | mem
      · exact nomatch (none_before _ earlier).symm.trans tried'
      rcases mem_cons.1 mem with same | mem
      · obtain ⟨rfl, rfl⟩ := Prod.mk.inj same
        have eq := accepts.unique accepts'
        dsimp only [elim_some]
        split_ifs <;> omega
      · have apart := later (lo', hi') mem
        dsimp only [elim_some] at apart ⊢
        split_ifs at apart ⊢ <;> omega

end Wanted

/-- `as_gap` on an address space in either representation. -/
theorem Held.asGap (held : Held s l) (nonempty : l ≠ []) (shrinks : Shrinks valid)
    (positive : 0 < minlen) (range : base + len < 2 ^ 32) (below : ∀ p ∈ l, s.eaddr p ≤ 2 ^ 32) :
    ∃ answer s', asGap valid s minlen base len flags addr = some (answer, s') ∧ Held s' l ∧
      SameAreas s s' ∧
      GapLaw (s.intervals l) ⟨valid, minlen, base, base + len, flags, addr⟩ base len answer := by
  obtain ⟨s', eq, held', same⟩ := @asGap_first valid s l minlen base len addr flags held nonempty
    shrinks positive range below
  have laid : Laid 0 (s.intervals l) (2 ^ 32) :=
    held.ordered.laid (zero_le _) (fun _ _ => zero_le _) below
  refine ⟨_, s', eq, held', same, ?_⟩
  refine Wanted.first_law shrinks positive laid _ (fun hole => ?_) ?_
  · rw [holes]
    split_ifs
    · rfl
    · exact mem_reverse
  · rw [holes]
    dsimp only
    split_ifs with up
    · exact laid.gaps_pairwise
    · exact pairwise_reverse.2 laid.gaps_pairwise

end Call

/-! ### Runs -/

theorem Spec.keeps {held held' : Set Area} {op : Op} {result : Result} {P : Area → Prop}
    (spec : Spec held op result held') (new : ∀ p base size, op = .addseg p base size →
      P ⟨p, base, size⟩) (all : ∀ a ∈ held, P a) : ∀ a ∈ held', P a := by
  cases spec with
  | added _ =>
    rintro a (rfl | a_mem)
    · exact new _ _ _ rfl
    · exact all a a_mem
  | removed _ => exact fun a a_mem => all a a_mem.1
  | _ => exact all

theorem SpecRun.bounded {held held' : Set Area} {ops : List Op} {results : List Result}
    (spec : SpecRun held ops results held') (valid : ValidRun held ops)
    (bounded : ∀ a ∈ held, a.eaddr < 2 ^ 32) : ∀ a ∈ held', a.eaddr < 2 ^ 32 := by
  induction spec with
  | nil _ => exact bounded
  | cons first _ ih =>
    refine ih (valid.2 _ _ first) (first.keeps ?_ bounded)
    rintro p base size rfl
    exact valid.1.2.2

/-- In every address space that a run leaves behind and that has a segment, `as_gap` finds the
lowest hole or the highest one that will do, if there is any. -/
theorem as_gap_finds_hole (kas : Bool) (thresh : ℕ) (seg : ℕ → Seg) (random : ℕ → ℕ)
    {ops : List Op} (valid_run : ValidRun ∅ ops) (valid : ValidVaRange) (shrinks : Shrinks valid)
    (minlen base len : ℕ) (flags : BitVec 32) (addr : ℕ) (positive : 0 < minlen)
    (range : base + len < 2 ^ 32) :
    ∃ results s held l, run (asAlloc kas thresh seg random) ops = some (results, s) ∧
      SpecRun ∅ ops results held ∧ Represents s held l ∧
      (l ≠ [] → ∃ answer s', asGap valid s minlen base len flags addr = some (answer, s') ∧
        Represents s' held l ∧
        GapLaw (s.intervals l) ⟨valid, minlen, base, base + len, flags, addr⟩ base len answer) := by
  have empty : (asAlloc kas thresh seg random).areas [] = ∅ := by
    refine Set.eq_empty_of_forall_notMem ?_
    rintro _ ⟨q, q_mem, -⟩
    exact nomatch q_mem
  obtain ⟨results, s, l, runs, spec, held⟩ :=
    (held_asAlloc kas thresh seg random).run (show ValidRun _ ops by rwa [empty])
  rw [empty] at spec
  refine ⟨results, s, s.areas l, l, runs, spec, held.represents, fun nonempty => ?_⟩
  have below : ∀ p ∈ l, s.eaddr p ≤ 2 ^ 32 := fun p p_mem =>
    Nat.le_of_lt (spec.bounded valid_run (fun _ impossible => impossible.elim) (s.area p)
      ⟨p, p_mem, rfl⟩)
  obtain ⟨answer, s', eq, held', same, law⟩ := @Held.asGap valid s l minlen base len addr flags held
    nonempty shrinks positive range below
  refine ⟨answer, s', eq, ?_, law⟩
  rw [← same.areas l]
  exact held'.represents

/-- Every range that is long enough can be mapped. -/
def anyRange : ValidVaRange := fun base len minlen _ => (decide (minlen ≤ len), base, len)

theorem shrinks_anyRange : Shrinks anyRange := by
  intro base len minlen dir base' len' eq
  obtain ⟨accepted, eq⟩ := Prod.mk.inj eq
  cases eq
  exact ⟨Nat.le_refl _, Nat.le_refl _, of_decide_eq_true accepted⟩

/-- A segment in the middle of a range, and the hole above it. -/
theorem as_gap_finds_hole_one :
    ∃ results s held l, run (asAlloc false 1 (fun _ => ⟨0, 0, none, none⟩) fun _ => 0)
        [.addseg 1 8192 4096] = some (results, s) ∧
      SpecRun ∅ [.addseg 1 8192 4096] results held ∧ Represents s held l ∧
      (l ≠ [] → ∃ answer s', asGap anyRange s 4096 0 16384 ahHi 0 = some (answer, s') ∧
        Represents s' held l ∧
        GapLaw (s.intervals l) ⟨anyRange, 4096, 0, 16384, ahHi, 0⟩ 0 16384 answer) := by
  have valid_run : ValidRun ∅ [.addseg 1 8192 4096] :=
    ⟨⟨fun _ impossible => impossible.elim, by decide, by decide⟩, fun _ _ _ => trivial⟩
  exact as_gap_finds_hole false 1 (fun _ => ⟨0, 0, none, none⟩) (fun _ => 0) valid_run anyRange
    shrinks_anyRange 4096 0 16384 ahHi 0 (by decide) (by decide)

/-- In every address space that a run leaves behind and that has a segment, a new segment can be
added wherever `as_gap` says. -/
theorem as_gap_holds_segment (kas : Bool) (thresh : ℕ) (seg : ℕ → Seg) (random : ℕ → ℕ)
    {ops : List Op} (valid_run : ValidRun ∅ ops) {valid : ValidVaRange} (shrinks : Shrinks valid)
    {minlen base len : ℕ} (positive : 0 < minlen) (range : base + len < 2 ^ 32) :
    ∃ results s held, run (asAlloc kas thresh seg random) ops = some (results, s) ∧
      SpecRun ∅ ops results held ∧ (held.Nonempty → ∀ flags addr b n s' p,
        asGap valid s minlen base len flags addr = some ((true, b, n), s') →
        (∀ a ∈ held, a.p ≠ p) → ∃ s'' l, step s' (.addseg p b n) = some (.success, s'') ∧
          Represents s'' (insert ⟨p, b, n⟩ held) l) := by
  have empty : (asAlloc kas thresh seg random).areas [] = ∅ :=
    Set.eq_empty_of_forall_notMem fun _ ⟨_, q_mem, _⟩ => by cases q_mem
  obtain ⟨results, s, l, runs, spec, held⟩ :=
    (held_asAlloc kas thresh seg random).run (show ValidRun _ ops by rwa [empty])
  rw [empty] at spec
  refine ⟨results, s, s.areas l, runs, spec, ?_⟩
  rintro ⟨_, q, q_mem, rfl⟩ flags addr b n s' p found fresh
  obtain ⟨answer, s₁, eq, held', same, law⟩ := @Held.asGap valid s l minlen base len addr flags held
    (ne_nil_of_mem q_mem) shrinks positive range fun p p_mem => Nat.le_of_lt
      (spec.bounded valid_run (fun _ impossible => impossible.elim) (s.area p) ⟨p, p_mem, rfl⟩)
  cases eq.symm.trans found
  have long := law.long rfl
  have inside := (law.inside rfl).2
  dsimp only at long inside
  rw [← same.areas l] at fresh ⊢
  obtain ⟨result, s'', l', adds, spec', held''⟩ := @Held.step_addseg _ _ held' p b n
    ⟨fresh, by omega, by omega⟩
  have represents := held''.represents
  generalize s''.areas l' = after at spec' represents
  cases spec' with
  | added _ => exact ⟨s'', l', adds, represents⟩
  | refused a_mem overlaps =>
    rw [same.areas] at a_mem
    obtain ⟨r, r_mem, rfl⟩ := a_mem
    have low : (s.seg r).base < b + n := overlaps.1
    have high : b < s.eaddr r := overlaps.2
    have clear := law.clear rfl _ (List.mem_map_of_mem r_mem) (max b (s.seg r).base)
      (Nat.le_max_left ..) (max_lt (by dsimp only; omega) low)
    exact absurd ⟨Nat.le_max_right .., max_lt high (base_lt_eaddr held.ordered r_mem)⟩ clear

/-- A segment goes into the hole above the one in the middle of a range. -/
theorem as_gap_holds_segment_one : ∃ s s' s'' b n,
    run (asAlloc false 1 (fun _ => ⟨0, 0, none, none⟩) fun _ => 0) [.addseg 1 8192 4096] =
      some ([.success], s) ∧ asGap anyRange s 4096 0 16384 ahHi 0 = some ((true, b, n), s') ∧
      step s' (.addseg 2 b n) = some (.success, s'') := by
  have valid_run : ValidRun ∅ [.addseg 1 8192 4096] :=
    ⟨⟨fun _ impossible => impossible.elim, by decide, by decide⟩, fun _ _ _ => trivial⟩
  obtain ⟨results, s, held, runs, spec, adds⟩ := as_gap_holds_segment false 1
    (fun _ => ⟨0, 0, none, none⟩) (fun _ => 0) valid_run shrinks_anyRange
    (by decide : 0 < 4096) (by decide : 0 + 16384 < 2 ^ 32)
  cases runs.symm.trans rfl
  cases spec with
  | cons first rest =>
    cases rest
    cases first with
    | added _ =>
      obtain ⟨s'', l, added, -⟩ := adds ⟨_, .inl rfl⟩ ahHi 0 _ _ _ 2 rfl
        (fun a mem => mem.elim (fun same => by rw [same]; decide) fun none => none.elim)
      exact ⟨_, _, s'', _, _, rfl, rfl, added⟩

end Sol25.Seglist
