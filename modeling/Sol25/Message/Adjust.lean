import Sol25.Message.Reshape

/-!
# Trimming messages

`adjmsg` trims bytes from the head or from the tail of the leading run of a message.
-/

namespace Sol25.Message
namespace Mem

open List Option

variable {mem : Mem} {bp mp : Mblk} {bps cont : List Mblk} {t : Fin 256} {len : ℤ}

/-! ### From the head -/

theorem trimHead_spec (nonneg : 0 ≤ len) :
    mem.pairs (trimHead bps len) = (mem.pairs bps).drop len.toNat := by
  induction bps generalizing len with
  | nil => rw [trimHead, pairs_nil, drop_nil]
  | cons bp bps ih =>
    rw [trimHead]
    by_cases done : len = 0
    · rw [if_pos done, done]
      rfl
    rw [if_neg done]
    dsimp only
    have pointer : (bp.rptr + min (bp.size : ℤ) len).toNat = bp.rptr + min bp.size len.toNat := by
      omega
    have left : (len - min (bp.size : ℤ) len).toNat = len.toNat - bp.size := by omega
    have dropped : (mem.bytes bp).drop (min bp.size len.toNat) =
        (mem.bytes bp).drop len.toNat := by
      rcases Nat.le_total bp.size len.toNat with all | part
      · rw [Nat.min_eq_left all, drop_eq_nil_of_le (Nat.le_of_eq (length_bytes ..)),
          drop_eq_nil_of_le ((length_bytes ..).trans_le all)]
      · rw [Nat.min_eq_right part]
    have type_eq : mem.type { bp with rptr := bp.rptr + min bp.size len.toNat } = mem.type bp :=
      rfl
    rw [pointer, pairs_cons, pairs_cons, ih (by omega), left, bytes_advance, dropped, type_eq,
      drop_append, length_map, length_bytes, map_drop]

/-! ### From the tail -/

theorem pairs_eq_nil (none_there : sizes bps = 0) : mem.pairs bps = [] :=
  eq_nil_of_length_eq_zero ((length_pairs mem bps).trans none_there)

theorem lastFull_none (absent : mem.lastFull t bps = none) : mem.runSize t bps = 0 := by
  induction bps with
  | nil => rfl
  | cons bp bps ih =>
    rw [lastFull] at absent
    by_cases same : mem.type bp = t
    · rw [if_pos same] at absent
      cases later : mem.lastFull t bps with
      | some i =>
        rw [later] at absent
        exact nomatch absent
      | none =>
        rw [later] at absent
        dsimp only at absent
        have empty : ¬ 0 < bp.size := fun full => by
          rw [if_pos full] at absent
          exact nomatch absent
        rw [runSize_cons_pos same, ih later]
        omega
    · exact runSize_cons_neg same bps

/-- The block that is found is of the leading run, and the blocks of the run behind it are empty. -/
theorem lastFull_some {i : ℕ} (found : mem.lastFull t bps = some i) :
    ∃ front bp back, bps = front ++ bp :: back ∧ front.length = i ∧ (∀ y ∈ front, mem.type y = t) ∧
      mem.type bp = t ∧ 0 < bp.size ∧ mem.runSize t back = 0 := by
  induction bps generalizing i with
  | nil => exact nomatch found
  | cons bp bps ih =>
    rw [lastFull] at found
    by_cases same : mem.type bp = t
    · rw [if_pos same] at found
      cases later : mem.lastFull t bps with
      | some j =>
        rw [later] at found
        obtain rfl := some.inj found
        obtain ⟨front, y, back, rfl, length, types, type_y, full, rest⟩ := ih later
        refine ⟨bp :: front, y, back, rfl, congrArg (· + 1) length, fun z member => ?_,
          type_y, full, rest⟩
        rcases mem_cons.1 member with rfl | member
        · exact same
        · exact types z member
      | none =>
        rw [later] at found
        dsimp only at found
        by_cases full : 0 < bp.size
        · rw [if_pos full] at found
          obtain rfl := some.inj found
          exact ⟨[], bp, bps, rfl, rfl, fun _ member => absurd member not_mem_nil, same, full,
            lastFull_none later⟩
        · rw [if_neg full] at found
          exact nomatch found
    · rw [if_neg same] at found
      exact nomatch found

variable {back front : List Mblk}

theorem run_split (types : ∀ y ∈ front, mem.type y = t) (same : mem.type bp = t) :
    mem.run t (front ++ bp :: back) = front ++ bp :: mem.run t back := by
  induction front with
  | nil => exact run_cons_pos same back
  | cons y ys ih =>
    rw [cons_append, run_cons_pos (types y mem_cons_self),
      ih fun z member => types z (mem_cons_of_mem y member), cons_append]

theorem rest_split (types : ∀ y ∈ front, mem.type y = t) (same : mem.type bp = t) :
    mem.rest t (front ++ bp :: back) = mem.rest t back := by
  have whole := run_append_rest mem t (front ++ bp :: back)
  rw [run_split types same, append_assoc, cons_append] at whole
  have behind := (cons.inj (append_cancel_left whole)).2
  exact append_cancel_left (behind.trans (run_append_rest mem t back).symm)

theorem size_shrink (bp : Mblk) (n : ℕ) :
    ({ bp with wptr := bp.wptr - n } : Mblk).size = bp.size - n := by
  rw [Mblk.size, Mblk.size]
  dsimp only
  omega

theorem bytes_shrink (mem : Mem) (bp : Mblk) (n : ℕ) :
    mem.bytes { bp with wptr := bp.wptr - n } = (mem.bytes bp).take (bp.size - n) := by
  refine ext_getElem ?_ fun i left right => ?_
  · rw [length_bytes, length_take, length_bytes, Mblk.size, Mblk.size]
    dsimp only
    omega
  · simp only [bytes, getElem_map, getElem_range, getElem_take]

/-- The blocks of the leading run with data in them. -/
def fulls (mem : Mem) (t : Fin 256) (bps : List Mblk) : ℕ :=
  ((mem.run t bps).filter fun bp => 0 < bp.size).length

theorem sizes_append (front back : List Mblk) :
    sizes (front ++ back) = sizes front + sizes back := by
  rw [sizes, sizes, sizes, map_append, sum_append]

theorem fulls_split (types : ∀ y ∈ front, mem.type y = t) (same : mem.type bp = t) :
    mem.fulls t (front ++ bp :: back) =
      (front.filter fun y => 0 < y.size).length + (if 0 < bp.size then 1 else 0) +
        mem.fulls t back := by
  rw [fulls, fulls, run_split types same, filter_append, length_append]
  by_cases full : 0 < bp.size
  · rw [filter_cons_of_pos (by simpa using full), if_pos full, length_cons]
    omega
  · rw [filter_cons_of_neg (by simpa using full), if_neg full, Nat.add_zero]

theorem modify_split {α : Type*} (front back : List α) (x : α) (change : α → α) :
    (front ++ x :: back).modify front.length change = front ++ change x :: back := by
  induction front with
  | nil => rfl
  | cons y ys ih => rw [cons_append, length_cons, modify_succ_cons, ih, cons_append]

/-- Bytes taken off the last block with data are taken off the end of the leading run. -/
theorem pairs_shrink (types : ∀ y ∈ front, mem.type y = t) (same : mem.type bp = t)
    (no_more : mem.runSize t back = 0) {n : ℕ} (within : n ≤ bp.size) :
    mem.runSize t (front ++ { bp with wptr := bp.wptr - n } :: back) = mem.runSize t
      (front ++ bp :: back) - n ∧
      mem.pairs (mem.run t (front ++ { bp with wptr := bp.wptr - n } :: back)) =
        (mem.pairs (mem.run t (front ++ bp :: back))).take
          (mem.runSize t (front ++ bp :: back) - n) := by
  have same' : mem.type { bp with wptr := bp.wptr - n } = t := same
  have size := size_shrink bp n
  have total : mem.runSize t (front ++ bp :: back) = sizes front + bp.size := by
    rw [runSize, run_split types same, sizes_append, sizes_cons, ← runSize, no_more, Nat.add_zero]
  have length := length_pairs mem front
  constructor
  · rw [total, runSize, run_split types same', sizes_append, sizes_cons, ← runSize, no_more, size]
    omega
  · have behind : mem.pairs (mem.run t back) = [] := pairs_eq_nil no_more
    rw [total, run_split types same, run_split types same', pairs_append, pairs_append, pairs_cons,
      pairs_cons, behind, append_nil, append_nil, bytes_shrink, same', same,
      take_append, map_take,
      take_of_length_le (show (mem.pairs front).length ≤ sizes front + bp.size - n by omega),
      length]
    have left : sizes front + bp.size - n - sizes front = bp.size - n := by omega
    rw [left]

/-- The loop of `adjmsg` takes bytes off the end of the leading run. -/
theorem trimTail_spec {fuel : ℕ} (nonneg : 0 ≤ len) (fits : len < 2 ^ 31)
    (within : len ≤ mem.runSize t bps)
    (enough : if len = 0 then 0 < fuel else mem.fulls t bps < fuel) :
    ∃ chain, mem.trimTail t fuel bps len = some chain ∧
      mem.pairs chain = (mem.pairs (mem.run t bps)).take (mem.runSize t bps - len.toNat) ++
        mem.pairs (mem.rest t bps) := by
  induction fuel generalizing bps len with
  | zero =>
    split_ifs at enough
    · exact absurd enough (Nat.lt_irrefl 0)
    · exact absurd enough (Nat.not_lt_zero _)
  | succ fuel ih =>
    rw [trimTail]
    by_cases done : len = 0
    · rw [if_pos done, done, Int.toNat_zero, Nat.sub_zero]
      refine ⟨bps, rfl, ?_⟩
      have whole : (mem.pairs (mem.run t bps)).length ≤ mem.runSize t bps :=
        Nat.le_of_eq (length_pairs ..)
      rw [take_of_length_le whole, ← pairs_run]
    rw [if_neg done] at enough ⊢
    cases found : mem.lastFull t bps with
    | none =>
      have empty := lastFull_none found
      omega
    | some i =>
      obtain ⟨front, bp, back, rfl, length, types, same, full, no_more⟩ := lastFull_some found
      have here : (front ++ bp :: back)[i]? = some bp := by
        rw [← length, getElem?_append_right (Nat.le_refl _), Nat.sub_self]
        rfl
      have pointer : (bp.wptr - min (bp.size : ℤ) len).toNat = bp.wptr - min bp.size len.toNat := by
        omega
      have modified : (front ++ bp :: back).modify i (fun bp' =>
          { bp' with wptr := (bp'.wptr - min (bp.size : ℤ) len).toNat }) =
          front ++ { bp with wptr := bp.wptr - min bp.size len.toNat } :: back := by
        rw [← length, modify_split, pointer]
      have wraps : toInt (len - min (bp.size : ℤ) len) = len - min (bp.size : ℤ) len :=
        toInt_eq (by omega) (by omega)
      obtain ⟨size_left, pairs_left⟩ :=
        pairs_shrink types same no_more (Nat.min_le_left bp.size len.toNat)
      have rest_left :
        mem.rest t (front ++ { bp with wptr := bp.wptr - min bp.size len.toNat } :: back) =
          mem.rest t (front ++ bp :: back) := by
        rw [rest_split types same]
        exact rest_split types same
      have in_run : bp.size ≤ mem.runSize t (front ++ bp :: back) := by
        rw [runSize, run_split types same, sizes_append, sizes_cons]
        omega
      have fewer : if len - min (bp.size : ℤ) len = 0 then 0 < fuel else
          mem.fulls t (front ++ { bp with wptr := bp.wptr - min bp.size len.toNat } :: back) <
              fuel := by
        rw [fulls_split types same, if_pos full] at enough
        split_ifs with last
        · omega
        · have emptied : ¬ 0 <
              ({ bp with wptr := bp.wptr - min bp.size len.toNat } : Mblk).size := by
            rw [size_shrink]
            omega
          have same' : mem.type { bp with wptr := bp.wptr - min bp.size len.toNat } = t := same
          rw [fulls_split types same', if_neg emptied]
          omega
      obtain ⟨chain, trims, result⟩ := ih (by omega) (by omega) (by
        rw [size_left]
        omega) fewer
      refine ⟨chain, ?_, ?_⟩
      · dsimp only
        rw [here, elim_some, modified, wraps, trims]
      · rw [result, pairs_left, size_left, rest_left, take_take]
        congr 2
        omega

/-! ### adjmsg -/

/-- What is expected of `adjmsg`: it fails exactly if there are more bytes to trim than the leading
run has, and otherwise takes them off the head or the tail of the run. -/
def AdjmsgLaw (mem : Mem) (mp : Mblk) (cont : List Mblk) (len : ℤ)
    (result : Option (Bool × List Mblk)) : Prop :=
  let t := mem.type mp
  let size := mem.runSize t (mp :: cont)
  ∃ ok chain, result = some (ok, chain) ∧
    if size < len.natAbs then ok = false ∧ chain = mp :: cont
    else ok = true ∧ mem.pairs chain =
      (if 0 ≤ len then (mem.pairs (mem.run t (mp :: cont))).drop len.natAbs
        else (mem.pairs (mem.run t (mp :: cont))).take (size - len.natAbs)) ++ mem.pairs
          (mem.rest t (mp :: cont))

theorem fulls_le (mem : Mem) (t : Fin 256) (bps : List Mblk) : mem.fulls t bps ≤ bps.length :=
  (length_filter_le ..).trans ( takeWhile_prefix _).length_le

/-- Where the size is right, `adjmsg` takes bytes off the run. -/
theorem adjmsg_trims (fits : len.natAbs < 2 ^ 31)
    (within : (len.natAbs : ℤ) ≤ toInt (mem.runSize (mem.type mp) (mp :: cont))) :
    AdjmsgLaw mem mp cont len (mem.adjmsg mp cont len) := by
  have total_le := toInt_le (mem.runSize (mem.type mp) (mp :: cont))
  have length := length_pairs mem (mem.run (mem.type mp) (mp :: cont))
  have enough : ¬ mem.runSize (mem.type mp) (mp :: cont) < len.natAbs := by omega
  rw [AdjmsgLaw, adjmsg]
  by_cases fromhead : 0 ≤ len
  · have checked : ¬ mem.xmsgsize mp cont < len := by
      rw [xmsgsize_eq]
      omega
    rw [if_neg (Int.not_lt.2 fromhead), if_neg checked, if_pos (decide_eq_true fromhead)]
    refine ⟨true, _, rfl, ?_⟩
    rw [if_neg enough, if_pos fromhead]
    refine ⟨rfl, ?_⟩
    have number : len.toNat = len.natAbs := by omega
    have left : len.natAbs - (mem.pairs (mem.run (mem.type mp) (mp :: cont))).length = 0 := by
      rw [length, ← runSize]
      omega
    rw [trimHead_spec fromhead, number, pairs_run mem (mem.type mp) (mp :: cont), drop_append,
      left, drop_zero]
  · have negated : toInt (-len) = -len := toInt_eq (by omega) (by omega)
    have checked : ¬ mem.xmsgsize mp cont < -len := by
      rw [xmsgsize_eq]
      omega
    have fulls := fulls_le mem (mem.type mp) (mp :: cont)
    rw [length_cons] at fulls
    obtain ⟨chain, trims, result⟩ :=
      @trimTail_spec mem (mp :: cont) (mem.type mp) (-len) (cont.length + 2) (by omega)
      (by omega) (by omega) (by
        split_ifs <;> omega)
    have number : (-len).toNat = len.natAbs := by omega
    rw [if_pos (Int.not_le.1 fromhead), negated, if_neg checked, if_neg (by simpa using fromhead),
      trims]
    refine ⟨true, chain, rfl, ?_⟩
    rw [if_neg enough, if_neg fromhead, result, number]
    exact ⟨rfl, rfl⟩

/-- The smallest `int` is its own negation, and a block grows by 2³¹ bytes. -/
theorem trimTail_least {fuel : ℕ} {chain : List Mblk}
    (trims : mem.trimTail t (fuel + 2) bps (-2 ^ 31) = some chain) :
    mem.runSize t bps = 0 ∨ sizes chain = sizes bps + 2 ^ 31 := by
  rw [trimTail, if_neg (by decide)] at trims
  cases found : mem.lastFull t bps with
  | none => exact .inl (lastFull_none found)
  | some i =>
    obtain ⟨front, bp, back, rfl, length, -, -, full, -⟩ := lastFull_some found
    have here : (front ++ bp :: back)[i]? = some bp := by
      rw [← length, getElem?_append_right (Nat.le_refl _), Nat.sub_self]
      rfl
    have least : min (bp.size : ℤ) (-2 ^ 31) = -2 ^ 31 := by omega
    have none_left : toInt (-2 ^ 31 - -2 ^ 31) = 0 := by decide
    rw [found] at trims
    dsimp only at trims
    rw [here, elim_some, least, none_left, ← length, modify_split, trimTail, if_pos rfl] at trims
    obtain rfl := some.inj trims
    refine .inr ?_
    rw [sizes_append, sizes_append, sizes_cons, sizes_cons, Mblk.size, Mblk.size]
    rw [Mblk.size] at full
    dsimp only
    omega

theorem adjmsg_least : ¬ AdjmsgLaw mem mp cont (-2 ^ 31) (mem.adjmsg mp cont (-2 ^ 31)) := by
  rintro ⟨ok, chain, result, law⟩
  have negated : (if (-2 ^ 31 : ℤ) < 0 then toInt (- -2 ^ 31) else -2 ^ 31) = -2 ^ 31 := by decide
  have checked : ¬ mem.xmsgsize mp cont < -2 ^ 31 := by
    rw [xmsgsize_eq]
    exact Int.not_lt.2 (toInt_ge _)
  rw [adjmsg, negated, if_neg checked, if_neg (by decide)] at result
  obtain ⟨trimmed, trims, same⟩ := map_eq_some_iff.1 result
  obtain ⟨rfl, rfl⟩ := Prod.mk.inj same
  have least : (-2 ^ 31 : ℤ).natAbs = 2 ^ 31 := by decide
  rw [least] at law
  by_cases more : mem.runSize (mem.type mp) (mp :: cont) < 2 ^ 31
  · rw [if_pos more] at law
    exact nomatch law.1
  rw [if_neg more, if_neg (by decide)] at law
  have lengths := congrArg List.length law.2
  rw [length_append, length_take, length_pairs, length_pairs, length_pairs] at lengths
  have parts := congrArg sizes (run_append_rest mem (mem.type mp) (mp :: cont))
  rw [sizes_append] at parts
  rcases trimTail_least trims with empty | grown
  · omega
  · omega

/-- `adjmsg` keeps to its law, but for the smallest `int` and for more bytes of a run that is too
large for an `int` than its size comes out as. -/
theorem adjmsg_law_iff (lower : -2 ^ 31 ≤ len) (upper : len < 2 ^ 31) :
    AdjmsgLaw mem mp cont len (mem.adjmsg mp cont len) ↔
      len ≠ -2 ^ 31 ∧ (mem.runSize (mem.type mp) (mp :: cont) < 2 ^ 31 ∨
        (len.natAbs : ℤ) ≤ toInt (mem.runSize (mem.type mp) (mp :: cont))) := by
  by_cases least : len = -2 ^ 31
  · rw [least]
    exact iff_of_false adjmsg_least fun both => both.1 rfl
  have total_small := @toInt_eq (mem.runSize (mem.type mp) (mp :: cont)) (by omega)
  by_cases within : (len.natAbs : ℤ) ≤ toInt (mem.runSize (mem.type mp) (mp :: cont))
  · exact iff_of_true (adjmsg_trims (by omega) within) ⟨least, .inr within⟩
  have number : (if len < 0 then toInt (-len) else len) = len.natAbs := by
    split_ifs
    · rw [toInt_eq (by omega) (by omega)]
      omega
    · omega
  have result : mem.adjmsg mp cont len = some (false, mp :: cont) := by
    rw [adjmsg, number, if_pos (by
      rw [xmsgsize_eq]
      omega)]
  rw [result, AdjmsgLaw]
  constructor
  · rintro ⟨ok, chain, same, law⟩
    obtain ⟨rfl, rfl⟩ := Prod.mk.inj (some.inj same)
    refine ⟨least, .inl ?_⟩
    by_cases more : mem.runSize (mem.type mp) (mp :: cont) < len.natAbs
    · omega
    · rw [if_neg more] at law
      exact nomatch law.1
  · rintro ⟨-, small | large⟩
    · refine ⟨false, _, rfl, ?_⟩
      rw [if_pos (by omega)]
      exact ⟨rfl, rfl⟩
    · exact absurd large within

/-! ### All three -/

/-- The laws of the three functions, with the memory that `pullupmsg` and `msgpullup` find and the
blocks that `dupmsg` is granted. -/
def ReshapeLaw (mem : Mem) (mp : Mblk) (cont : List Mblk) (len : ℤ) (pulled copied : Option Grant)
    (granted : List Bool) (refs : ℕ → ℕ) : Prop :=
  PullupLaw mem mp cont len (mem.pullupmsg pulled mp cont len) ∧
    MsgpullupLaw mem mp cont (mem.msgpullup copied granted refs mp cont len) ∧
    AdjmsgLaw mem mp cont len (mem.adjmsg mp cont len)

/-- The three functions keep to their laws exactly if no size is lost in an `int`, the smallest
`int` is not asked for, and the rest of the message that `msgpullup` duplicates is not lost. -/
theorem reshape_law_iff (chain : Chain mem (mp :: cont)) (lower : -2 ^ 31 ≤ len)
    (upper : len < 2 ^ 31) (pulled copied : Option Grant) (granted : List Bool) (refs : ℕ → ℕ) :
    ReshapeLaw mem mp cont len pulled copied granted refs ↔
      (len = -1 → pulled = none ∨ mem.runSize (mem.type mp) (mp :: cont) < 2 ^ 31) ∧
      (copied = none ∨ (0 < len ∧ toInt (mem.runSize (mem.type mp) (mp :: cont)) < len) ∨
        (mem.runSize (mem.type mp) (mp :: cont) < 2 ^ 31 ∧
          (mem.pairs (behind (mp :: cont) (mem.runSize (mem.type mp) (mp :: cont))) = [] ∨
            (dupmsg granted refs
              (behind (mp :: cont) (mem.runSize (mem.type mp) (mp :: cont)))).isSome))) ∧
      len ≠ -2 ^ 31 ∧ (mem.runSize (mem.type mp) (mp :: cont) < 2 ^ 31 ∨
        (len.natAbs : ℤ) ≤ toInt (mem.runSize (mem.type mp) (mp :: cont))) :=
  and_congr (pullupmsg_law_iff chain pulled len)
    (and_congr (msgpullup_law_iff chain copied granted refs len) (adjmsg_law_iff lower upper))

/-- A message of a block of type `M_PROTO` and one of type `M_DATA`. -/
def header : Mem := ⟨fun i => ⟨if i = 0 then 1 else 0, 0, fun j => if j = 0 then 7 else 9⟩, 2⟩

theorem header_chain : Chain header [⟨0, 0, 4, 0, 0⟩, ⟨1, 0, 4, 0, 0⟩] :=
  ⟨by decide, by decide, by decide⟩

theorem reshape_law_header :
    ReshapeLaw header ⟨0, 0, 4, 0, 0⟩ [⟨1, 0, 4, 0, 0⟩] 2 (some ⟨0, fun _ => 0⟩)
    (some ⟨0, fun _ => 0⟩) [true] fun _ => 1 :=
  (reshape_law_iff header_chain (by decide) (by decide) _ _ _ _).2
    ⟨fun all => absurd all (by decide),
      .inr (.inr ⟨by decide, .inr (by decide)⟩), by decide, .inl (by decide)⟩

/-- Where no block is granted to `dupmsg`, `msgpullup` loses the rest of the message. -/
theorem not_reshape_law :
    ¬ ∀ (mem : Mem) (mp : Mblk) (cont : List Mblk) (len : ℤ) (pulled copied : Option Grant)
    (granted : List Bool) (refs : ℕ → ℕ), Chain mem (mp :: cont) → -2 ^ 31 ≤ len → len < 2 ^ 31 →
      ReshapeLaw mem mp cont len pulled copied granted refs := by
  intro always
  obtain ⟨-, ⟨-, law⟩, -⟩ :=
    always header ⟨0, 0, 4, 0, 0⟩ [⟨1, 0, 4, 0, 0⟩] 2 none (some ⟨0, fun _ => 0⟩) []
    (fun _ => 1) header_chain (by decide) (by decide)
  rcases law with failed | ⟨mp', cont', result, same, -⟩
  · cases failed
  · have lengths := congrArg List.length same
    rw [length_pairs, length_pairs, ← some.inj result] at lengths
    exact absurd lengths (by decide)

end Mem
end Sol25.Message
