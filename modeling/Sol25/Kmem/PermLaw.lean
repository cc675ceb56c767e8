import Sol25.Kmem.Perm
import Mathlib.Data.List.Flatten
import Mathlib.Data.Nat.ModEq
import Mathlib.Tactic.Ring

/-!
# Permanent allocations lie apart

What the list, the buffers and the headers share out among themselves, in every run whose steps meet
the condition.
-/

namespace Sol25.Kmem

open Blocks Function List Option Nat

variable {pageshift size align k i : ℕ} {s s' : State} {pp qq : Perm} {list pre : List Perm}
  {limit : ℕ → ℕ} {best : Option ℕ} {bestAvail : ℤ}

/-! ### Rounding -/

theorem roundUp_spec (pos : 0 < align) {x : ℕ} (lt : x + (align - 1) < 2 ^ 32) :
    x ≤ roundUp x align ∧ align ∣ roundUp x align ∧ roundUp x align < x + align := by
  have word_eq : word ((x : ℤ) + align - 1) = x + (align - 1) := by
    rw [word]
    omega
  have division := div_add_mod (x + (align - 1)) align
  have rest := mod_lt (x + (align - 1)) pos
  rw [roundUp, word_eq, Nat.mul_comm]
  exact ⟨by omega, Nat.dvd_mul_right _ _, by omega⟩

/-- The padding leads to the next multiple. -/
theorem padding_spec (pp : Perm) (le : k ≤ 32) (current_lt : pp.current < 2 ^ 32) :
    2 ^ k ∣ pp.current + padding pp (2 ^ k) ∧ padding pp (2 ^ k) < 2 ^ k := by
  have pos : 0 < 2 ^ k := Nat.two_pow_pos k
  obtain ⟨t, whole⟩ : 2 ^ k ∣ 2 ^ 32 := Nat.pow_dvd_pow 2 le
  have division := div_add_mod (word (-pp.current)) (2 ^ k)
  have rest := mod_lt (word (-pp.current)) pos
  refine ⟨?_, rest⟩
  have total : 2 ^ k ∣ pp.current + word (-pp.current) := by
    rcases Nat.eq_zero_or_pos pp.current with zero | current_pos
    · rw [zero]
      exact dvd_zero _
    · have sum : pp.current + word (-pp.current) = 2 ^ 32 := by
        rw [word]
        omega
      rw [sum]
      exact ⟨t, whole⟩
  rw [padding]
  have split : pp.current + word (-pp.current) =
      pp.current + word (-pp.current) % 2 ^ k + 2 ^ k * (word (-pp.current) / 2 ^ k) := by
    omega
  rw [split] at total
  exact (Nat.dvd_add_left (Nat.dvd_mul_right _ _)).1 total

theorem roundUp_current (pp : Perm) (le : k ≤ 32) (current_lt : pp.current < 2 ^ 32)
    (lt : pp.current + padding pp (2 ^ k) < 2 ^ 32) :
    roundUp pp.current (2 ^ k) = pp.current + padding pp (2 ^ k) := by
  have pos : 0 < 2 ^ k := Nat.two_pow_pos k
  obtain ⟨t, whole⟩ : 2 ^ k ∣ 2 ^ 32 := Nat.pow_dvd_pow 2 le
  obtain ⟨⟨m, next⟩, small⟩ := padding_spec pp le current_lt
  have m_lt : m < t := by
    rw [next, whole] at lt
    exact lt_of_mul_lt_mul_left lt pos.le
  have room : 2 ^ k * m + 2 ^ k ≤ 2 ^ k * t := by
    rw [← mul_succ]
    exact mul_le_mul_left _ m_lt
  have word_eq : word ((pp.current : ℤ) + (2 ^ k : ℕ) - 1) = pp.current + (2 ^ k - 1) := by
    rw [word]
    omega
  have quotient : (pp.current + (2 ^ k - 1)) / 2 ^ k = m :=
    Nat.div_eq_of_lt_le (by rw [Nat.mul_comm]; omega) (by rw [succ_mul, Nat.mul_comm]; omega)
  rw [roundUp, word_eq, quotient, next, Nat.mul_comm]

/-! ### The search -/

/-- What the loop knows of the chunks that it has seen. -/
def Best (size align : ℕ) (pre : List Perm) (best : Option ℕ) (bestAvail : ℤ) : Prop :=
  (best = none ∧ bestAvail = intMax ∧ ∀ qq ∈ pre, fits size align qq → ¬qq.avail < intMax) ∨
    ∃ i pp, best = some i ∧ bestAvail = pp.avail ∧ Chosen size align pre i pp

theorem getElem?_concat {qq' : Perm} {j : ℕ} (at_j : (pre ++ [qq])[j]? = some qq') :
    pre[j]? = some qq' ∨ j = pre.length ∧ qq' = qq := by
  rcases Nat.lt_or_ge j pre.length with before | after
  · rw [getElem?_append_left before] at at_j
    exact .inl at_j
  · rw [getElem?_append_right after, getElem?_singleton] at at_j
    split_ifs at at_j with zero
    obtain ⟨⟩ := at_j
    exact .inr ⟨by omega, rfl⟩

theorem Best.concat (known : Best size align pre best bestAvail) (pp : Perm) :
    Best size align (pre ++ [pp])
      (if fits size align pp ∧ pp.avail < bestAvail then some pre.length else best)
      (if fits size align pp ∧ pp.avail < bestAvail then pp.avail else bestAvail) := by
  by_cases better : fits size align pp ∧ pp.avail < bestAvail
  · rw [if_pos better, if_pos better]
    refine .inr ⟨pre.length, pp, rfl, rfl, ?_, better.1, ?_, ?_⟩
    · rw [getElem?_append_right le_rfl, Nat.sub_self]
      rfl
    · rcases known with ⟨-, max_eq, -⟩ | ⟨i, qq, -, avail_eq, chosen⟩
      · exact max_eq ▸ better.2
      · exact (avail_eq ▸ better.2).trans chosen.lt_max
    · intro j qq at_j qq_fits qq_lt
      rcases getElem?_concat at_j with at_pre | ⟨rfl, rfl⟩
      · refine .inl ?_
        rcases known with ⟨-, -, none_fits⟩ | ⟨i, best_pp, -, avail_eq, chosen⟩
        · exact absurd qq_lt (none_fits qq (mem_of_getElem? at_pre) qq_fits)
        · rcases chosen.least j qq at_pre qq_fits qq_lt with lt | ⟨same, -⟩
          · omega
          · omega
      · exact .inr ⟨rfl, le_rfl⟩
  · rw [if_neg better, if_neg better]
    rcases known with ⟨none_eq, max_eq, none_fits⟩ | ⟨i, best_pp, best_eq, avail_eq, chosen⟩
    · refine .inl ⟨none_eq, max_eq, fun qq mem qq_fits qq_lt => ?_⟩
      rcases mem_append.1 mem with mem_pre | mem_last
      · exact none_fits qq mem_pre qq_fits qq_lt
      · obtain rfl := mem_singleton.1 mem_last
        exact better ⟨qq_fits, max_eq ▸ qq_lt⟩
    · refine .inr ⟨i, best_pp, best_eq, avail_eq, ?_, chosen.fits, chosen.lt_max, ?_⟩
      · have inside := (List.getElem?_eq_some_iff.1 chosen.here).1
        rw [getElem?_append_left inside, chosen.here]
      · intro j qq at_j qq_fits qq_lt
        rcases getElem?_concat at_j with at_pre | ⟨rfl, rfl⟩
        · exact chosen.least j qq at_pre qq_fits qq_lt
        · have inside := (List.getElem?_eq_some_iff.1 chosen.here).1
          have not_less : ¬qq.avail < best_pp.avail := fun less => better ⟨qq_fits, avail_eq ▸ less⟩
          omega

theorem Best.search (known : Best size align pre best bestAvail) :
    ∃ bestAvail', Best size align (pre ++ list) (search size align list pre.length best bestAvail)
      bestAvail' := by
  induction list generalizing pre best bestAvail with
  | nil =>
    rw [append_nil]
    exact ⟨bestAvail, known⟩
  | cons pp list ih =>
    have step := ih (known.concat pp)
    rw [length_append, length_singleton, append_assoc, singleton_append]
      at step
    rw [Kmem.search]
    split_ifs with better
    · rwa [if_pos better, if_pos better] at step
    · rwa [if_neg better, if_neg better] at step

theorem bestFit_best (size align : ℕ) (list : List Perm) :
    ∃ bestAvail, Best size align list (bestFit size align list) bestAvail := by
  have start : Best size align [] none intMax := .inl ⟨rfl, rfl, fun _ mem => (nomatch mem)⟩
  exact start.search

theorem bestFit_some (found : bestFit size align list = some i) :
    ∃ pp, Chosen size align list i pp := by
  obtain ⟨bestAvail, ⟨none_eq, -⟩ | ⟨j, pp, best_eq, -, chosen⟩⟩ := bestFit_best size align list
  · rw [found] at none_eq
    exact nomatch none_eq
  · obtain rfl : i = j := some.inj (found.symm.trans best_eq)
    exact ⟨pp, chosen⟩

theorem bestFit_none (not_found : bestFit size align list = none) :
    ¬∃ i pp, Chosen size align list i pp := by
  rintro ⟨i, pp, chosen⟩
  obtain ⟨bestAvail, ⟨-, -, none_fits⟩ | ⟨j, qq, best_eq, -⟩⟩ := bestFit_best size align list
  · exact none_fits pp (mem_of_getElem? chosen.here) chosen.fits chosen.lt_max
  · rw [not_found] at best_eq
    exact nomatch best_eq

/-! ### A buffer from a chunk -/

/-- What is left of a chunk behind a buffer. -/
def Perm.rest (pp : Perm) (size align stop : ℕ) : Perm :=
  { pp with
    avail := stop - (pp.current + padding pp align + size : ℕ)
    current := pp.current + padding pp align + size }

/-- A buffer from a chunk that has room for it and the padding. -/
theorem take_eq {stop : ℕ} (here : list[i]? = some pp) (le : k ≤ 32)
    (avail_eq : pp.avail = int (stop - pp.current)) (stop_lt : stop < 2 ^ 32)
    (room : pp.current + padding pp (2 ^ k) + size ≤ stop)
    (left_lt : stop - (pp.current + padding pp (2 ^ k) + size) < 2 ^ 31) :
    take size (2 ^ k) list i =
      some (if (pp.rest size (2 ^ k) stop).avail < kmemPermMinfree then list.eraseIdx i
        else list.set i (pp.rest size (2 ^ k) stop), pp.current + padding pp (2 ^ k)) := by
  have rounded := roundUp_current pp le (by omega) (by omega)
  have avail : int (pp.avail - ((pp.current + padding pp (2 ^ k) : ℕ) + size - pp.current)) =
      stop - (pp.current + padding pp (2 ^ k) + size : ℕ) := by
    rw [avail_eq, int, int]
    omega
  have current : word ((pp.current + padding pp (2 ^ k) : ℕ) + size) =
      pp.current + padding pp (2 ^ k) + size := by
    rw [word]
    omega
  rw [take, here]
  dsimp only
  rw [rounded, avail, current]
  rfl

/-! ### The layout -/

/-- The header of a chunk and its unused part. -/
def chunkBlocks (limit : ℕ → ℕ) (pp : Perm) : List (ℕ × ℕ) :=
  [span pp.header sizeofKmemPerm, (pp.current, limit pp.header)]

/-- The buffers, the headers and the unused parts. -/
def State.blocks (s : State) : List (ℕ × ℕ) := s.bufs ++ s.list.flatMap (chunkBlocks s.limit)

/-- The buffers, the headers and the unused parts lie apart from each other within the runs of
pages, and each chunk counts what is left of it. -/
structure Layout (s : State) : Prop where
  separate : Separate s.blocks
  left : ∀ pp ∈ s.list, pp.avail = (s.limit pp.header : ℤ) - pp.current ∧ kmemPermMinfree ≤ pp.avail
  inside : ∀ b ∈ s.blocks, ∃ run ∈ s.runs, Inside b run
  runs_lt : ∀ run ∈ s.runs, run.2 < 2 ^ 32

theorem mem_blocks_of_mem (mem : pp ∈ s.list) :
    span pp.header sizeofKmemPerm ∈ s.blocks ∧ (pp.current, s.limit pp.header) ∈ s.blocks := by
  have of_chunk : ∀ b ∈ chunkBlocks s.limit pp, b ∈ s.blocks := fun b b_mem =>
    mem_append_right _ (mem_flatMap.2 ⟨pp, mem, b_mem⟩)
  exact ⟨of_chunk _ mem_cons_self, of_chunk _ (mem_cons_of_mem _ mem_cons_self)⟩

/-- A buffer is cut from the unused part of a chunk, which stays in the list or goes from it. -/
theorem Separate.carve {bufs : List (ℕ × ℕ)} {buf : ℕ} {pp' : Perm}
    (separate : Separate (bufs ++ list.flatMap (chunkBlocks limit))) (here : list[i]? = some pp)
    (first : pp.current ≤ buf) (behind : buf + size ≤ pp'.current)
    (last : pp'.current ≤ limit pp.header) (same : pp'.header = pp.header) :
    Separate (span buf size :: bufs ++ (list.set i pp').flatMap (chunkBlocks limit)) ∧
    ∀ b ∈ span buf size :: bufs ++ (list.set i pp').flatMap (chunkBlocks limit),
      ∃ c ∈ bufs ++ list.flatMap (chunkBlocks limit), Inside b c := by
  obtain ⟨i_lt, rfl⟩ := List.getElem?_eq_some_iff.1 here
  set l1 := list.take i with l1_eq
  set l2 := list.drop (i + 1) with l2_eq
  have list_eq : list = l1 ++ list[i] :: l2 := by
    rw [l1_eq, l2_eq, getElem_cons_drop, take_append_drop]
  have set_eq : list.set i pp' = l1 ++ pp' :: l2 := set_eq_take_append_cons_drop .. |>.trans
    (if_pos i_lt)
  set unused : ℕ × ℕ := (list[i].current, limit list[i].header) with unused_eq
  set others := bufs ++ l1.flatMap (chunkBlocks limit) ++
    span list[i].header sizeofKmemPerm :: l2.flatMap (chunkBlocks limit) with others_eq
  have old_eq : bufs ++ list.flatMap (chunkBlocks limit) = bufs ++ l1.flatMap (chunkBlocks limit) ++
      (span list[i].header sizeofKmemPerm :: unused :: l2.flatMap (chunkBlocks limit)) := by
    conv_lhs => rw [list_eq]
    rw [flatMap_append, flatMap_cons, append_assoc]
    rfl
  have old_perm : (bufs ++ list.flatMap (chunkBlocks limit)).Perm (unused :: others) := by
    rw [old_eq, others_eq]
    refine List.Perm.trans (Perm.append_left _ (List.Perm.swap _ _ _)) ?_
    exact perm_middle
  have new_perm : ([span buf size, (pp'.current, limit list[i].header)] ++ others).Perm
      (span buf size :: bufs ++ (list.set i pp').flatMap (chunkBlocks limit)) := by
    rw [set_eq, flatMap_append, flatMap_cons, cons_append, cons_append,
      cons_append, nil_append, ← append_assoc]
    refine List.Perm.cons _ ?_
    rw [others_eq, chunkBlocks, same]
    refine List.Perm.trans perm_middle.symm ?_
    exact Perm.append_left _ (List.Perm.swap _ _ _)
  have pieces_inside : ∀ b ∈ [span buf size, (pp'.current, limit list[i].header)],
      Inside b unused := by
    intro b mem
    rcases mem_cons.1 mem with rfl | mem
    · exact ⟨first, behind.trans last⟩
    · obtain rfl := mem_singleton.1 mem
      exact ⟨first.trans ((Nat.le_add_right _ _).trans behind), le_rfl⟩
  have pieces : Separate [span buf size, (pp'.current, limit list[i].header)] :=
    pairwise_pair.2 (.inl behind)
  refine ⟨((separate.perm old_perm).cut pieces_inside pieces).perm new_perm, fun b mem => ?_⟩
  rcases mem_append.1 (new_perm.mem_iff.2 mem) with piece | other
  · exact ⟨unused, old_perm.mem_iff.2 mem_cons_self, pieces_inside b piece⟩
  · exact ⟨b, old_perm.mem_iff.2 (mem_cons_of_mem _ other), Inside.refl b⟩

theorem flatMap_eraseIdx_sublist (limit : ℕ → ℕ) (list : List Perm) (i : ℕ) (pp' : Perm) :
    ((list.eraseIdx i).flatMap (chunkBlocks limit)).Sublist
      ((list.set i pp').flatMap (chunkBlocks limit)) := by
  have erased : (list.set i pp').eraseIdx i = list.eraseIdx i := eraseIdx_set_eq
  rw [← erased]
  exact (eraseIdx_sublist _ _).flatMap _

variable {base rounded : ℕ}

/-- A buffer from a chunk of a layout; the chunk itself may be new. -/
theorem taken_layout {buf : ℕ} {list' : List Perm} (separate : Separate s.blocks)
    (inside : ∀ b ∈ s.blocks, ∃ run ∈ s.runs, Inside b run)
    (runs_lt : ∀ run ∈ s.runs, run.2 < 2 ^ 32) (here : s.list[i]? = some pp) (le : k ≤ 32)
    (left : ∀ j qq, j ≠ i → s.list[j]? = some qq →
      qq.avail = (s.limit qq.header : ℤ) - qq.current ∧ kmemPermMinfree ≤ qq.avail)
    (avail_eq : pp.avail = int (s.limit pp.header - pp.current)) (size_le : size ≤ rounded)
    (room : pp.current + padding pp (2 ^ k) + rounded ≤ s.limit pp.header)
    (left_lt : s.limit pp.header - (pp.current + padding pp (2 ^ k) + rounded) < 2 ^ 31)
    (taken : take rounded (2 ^ k) s.list i = some (list', buf)) :
    Layout (s.taken size list' buf) ∧ 2 ^ k ∣ buf ∧
      Inside (span buf size) (pp.current, s.limit pp.header) := by
  obtain ⟨run, run_mem, -, run_le⟩ := inside _ (mem_blocks_of_mem (mem_of_getElem? here)).2
  have stop_lt : s.limit pp.header < 2 ^ 32 := run_le.trans_lt (runs_lt run run_mem)
  rw [take_eq here le avail_eq stop_lt room left_lt] at taken
  obtain ⟨rfl, rfl⟩ := Prod.mk.inj (some.inj taken)
  obtain ⟨aligned, -⟩ := padding_spec pp le (by omega)
  set rest := pp.rest rounded (2 ^ k) (s.limit pp.header) with rest_eq
  have rest_current : rest.current = pp.current + padding pp (2 ^ k) + rounded := rfl
  have rest_avail : rest.avail = (s.limit pp.header : ℤ) - rest.current := rfl
  obtain ⟨carved, within⟩ := @Separate.carve size i pp s.list s.limit s.bufs
    (pp.current + padding pp (2 ^ k)) rest separate here (Nat.le_add_right _ _)
    (by rw [rest_current]; omega) (by rw [rest_current]; exact room) rfl
  have erase_sublist : (span (pp.current + padding pp (2 ^ k)) size :: s.bufs ++
      (s.list.eraseIdx i).flatMap (chunkBlocks s.limit)).Sublist
      (span (pp.current + padding pp (2 ^ k)) size :: s.bufs ++
        (s.list.set i rest).flatMap (chunkBlocks s.limit)) :=
    Sublist.append_left (flatMap_eraseIdx_sublist s.limit s.list i rest) _
  refine ⟨⟨?_, ?_, ?_, runs_lt⟩, aligned, Nat.le_add_right _ _, ?_⟩
  · simp only [State.taken, State.blocks]
    split_ifs
    · exact carved.sublist erase_sublist
    · exact carved
  · intro qq mem
    simp only [State.taken] at mem ⊢
    split_ifs at mem with little
    · obtain ⟨j, ne, at_j⟩ := mem_eraseIdx_iff_getElem?.1 mem
      exact left j qq ne at_j
    · obtain ⟨j, at_j⟩ := mem_iff_getElem?.1 mem
      by_cases same : j = i
      · rw [same, getElem?_set_self (List.getElem?_eq_some_iff.1 here).1] at at_j
        obtain rfl := some.inj at_j
        exact ⟨rest_avail, not_lt.1 little⟩
      · rw [getElem?_set_ne (Ne.symm same)] at at_j
        exact left j qq same at_j
  · intro b mem
    have old : ∃ c ∈ s.blocks, Inside b c := by
      simp only [State.taken, State.blocks] at mem
      split_ifs at mem
      · exact within b (erase_sublist.subset mem)
      · exact within b mem
    obtain ⟨c, c_mem, b_in⟩ := old
    obtain ⟨run, run_mem, c_in⟩ := inside c c_mem
    exact ⟨run, run_mem, b_in.trans c_in⟩
  · simp only [span]
    omega

/-! ### Steps -/

theorem align_cases (plain : ¬(leastAlign align &&& (leastAlign align - 1) ≠ 0 ∨
    2 ^ pageshift < leastAlign align)) :
    ∃ k, leastAlign align = 2 ^ k ∧ k ≤ pageshift ∧ 8 ≤ leastAlign align := by
  obtain ⟨power, le⟩ := not_or.1 plain
  have ge : 8 ≤ leastAlign align := by
    rw [leastAlign, kmemAlign]
    split_ifs
    · exact le_rfl
    · omega
  obtain ⟨k, k_eq⟩ := (and_sub_one_eq_zero_iff_isPowerOfTwo (by omega)).1 (not_not.1 power)
  refine ⟨k, k_eq, ?_, ge⟩
  rw [k_eq, not_lt] at le
  exact (Nat.pow_le_pow_iff_right (by decide)).1 le

theorem Layout.hit {buf : ℕ} {list' : List Perm} (layout : Layout s) (le : k ≤ 32)
    (chosen : Chosen rounded (2 ^ k) s.list i pp) (size_le : size ≤ rounded)
    (pad_le : (padding pp (2 ^ k) : ℤ) ≤ pp.avail)
    (taken : take rounded (2 ^ k) s.list i = some (list', buf)) :
    Layout (s.taken size list' buf) ∧ 2 ^ k ∣ buf ∧
      ∃ pp ∈ s.list, Inside (span buf size) (pp.current, s.limit pp.header) := by
  have mem := mem_of_getElem? chosen.here
  obtain ⟨avail_eq, -⟩ := layout.left pp mem
  have lt_max := chosen.lt_max
  rw [intMax] at lt_max
  have enough := chosen.fits
  rw [fits, word] at enough
  obtain ⟨layout', aligned, inside⟩ := taken_layout layout.separate layout.inside layout.runs_lt
    chosen.here le (fun j qq _ at_j => layout.left qq (mem_of_getElem? at_j))
    (by rw [int]; omega) size_le (by omega) (by omega) taken
  exact ⟨layout', aligned, pp, mem, inside⟩

theorem flatMap_update {stop : ℕ} (ne : ∀ pp ∈ list, pp.header ≠ base) :
    list.flatMap (chunkBlocks (update limit base stop)) = list.flatMap (chunkBlocks limit) := by
  refine flatMap_congr fun pp mem => ?_
  rw [chunkBlocks, chunkBlocks, update_of_ne (ne pp mem)]

theorem npages_spec (lt : rounded + sizeofKmemPerm + (2 ^ pageshift - 1) < 2 ^ 32) :
    rounded + sizeofKmemPerm ≤ npages pageshift rounded * 2 ^ pageshift ∧
      npages pageshift rounded * 2 ^ pageshift < rounded + sizeofKmemPerm + 2 ^ pageshift := by
  have pos : 0 < 2 ^ pageshift := Nat.two_pow_pos pageshift
  have inner : word ((rounded : ℤ) + sizeofKmemPerm) = rounded + sizeofKmemPerm := by
    rw [word]
    omega
  have outer : word ((rounded + sizeofKmemPerm : ℕ) + (2 : ℤ) ^ pageshift - 1) =
      rounded + sizeofKmemPerm + (2 ^ pageshift - 1) := by
    rw [show ((2 : ℤ) ^ pageshift) = ((2 ^ pageshift : ℕ) : ℤ) by push_cast; rfl, word]
    omega
  have division := div_add_mod (rounded + sizeofKmemPerm + (2 ^ pageshift - 1)) (2 ^ pageshift)
  have rest := mod_lt (rounded + sizeofKmemPerm + (2 ^ pageshift - 1)) pos
  rw [npages, inner, outer, Nat.mul_comm]
  omega

/-- A chunk of new pages in front of the list. -/
def State.pushed (s : State) (pageshift rounded base : ℕ) : State :=
  { list := ⟨base, word (base + sizeofKmemPerm),
      int (npages pageshift rounded * 2 ^ pageshift - sizeofKmemPerm)⟩ :: s.list
    limit := update s.limit base (base + npages pageshift rounded * 2 ^ pageshift)
    bufs := s.bufs
    runs := span base (npages pageshift rounded * 2 ^ pageshift) :: s.runs }

/-- New pages lie apart from everything, so the header of a chunk is no old one. -/
theorem Layout.pushed (layout : Layout s)
    (enough : sizeofKmemPerm ≤ npages pageshift rounded * 2 ^ pageshift)
    (fresh : Fresh pageshift s base (npages pageshift rounded)) :
    Separate (s.pushed pageshift rounded base).blocks ∧
      (∀ b ∈ (s.pushed pageshift rounded base).blocks,
        ∃ run ∈ (s.pushed pageshift rounded base).runs, Inside b run) ∧
      ∀ pp ∈ s.list, pp.header ≠ base := by
  set total := npages pageshift rounded * 2 ^ pageshift with total_eq
  have header_eq : word (base + sizeofKmemPerm) = base + sizeofKmemPerm := by
    have fits := fresh.fits
    rw [← total_eq] at fits
    rw [word]
    omega
  have apart : ∀ b ∈ s.blocks, Apart (span base total) b := by
    intro b mem
    obtain ⟨run, run_mem, inside⟩ := layout.inside b mem
    exact (inside.apart (fresh.apart run run_mem).symm).symm
  have ne : ∀ pp ∈ s.list, pp.header ≠ base := by
    rintro pp mem rfl
    have header_apart := apart _ (mem_blocks_of_mem mem).1
    simp only [Apart, span, sizeofKmemPerm] at header_apart enough
    omega
  have pieces_inside : ∀ a ∈ [span base sizeofKmemPerm, (base + sizeofKmemPerm, base + total)],
      Inside a (span base total) := by
    intro a mem
    rcases mem_cons.1 mem with rfl | mem
    · exact ⟨le_rfl, Nat.add_le_add_left enough base⟩
    · obtain rfl := mem_singleton.1 mem
      exact ⟨Nat.le_add_right _ _, le_rfl⟩
  have pieces : Separate [span base sizeofKmemPerm, (base + sizeofKmemPerm, base + total)] :=
    pairwise_pair.2 (.inl le_rfl)
  have perm : ([span base sizeofKmemPerm, (base + sizeofKmemPerm, base + total)] ++
      s.blocks).Perm (s.pushed pageshift rounded base).blocks := by
    rw [State.blocks, State.blocks, State.pushed]
    dsimp only
    rw [flatMap_cons, flatMap_update ne, chunkBlocks, update_self, header_eq]
    rw [← append_assoc, ← append_assoc]
    exact Perm.append_right _ perm_append_comm
  refine ⟨(layout.separate.append apart pieces_inside pieces).perm perm, fun b mem => ?_, ne⟩
  rcases mem_append.1 (perm.mem_iff.2 mem) with piece | old
  · exact ⟨span base total, mem_cons_self, pieces_inside b piece⟩
  · obtain ⟨run, run_mem, inside⟩ := layout.inside b old
    exact ⟨run, mem_cons_of_mem _ run_mem, inside⟩

/-- A buffer from new pages: the size is a multiple of the alignment, so the padding behind the
header does not cost more than the rounding of the pages gives. -/
theorem Layout.grown {buf : ℕ} {list' : List Perm} (layout : Layout s) (le : k ≤ pageshift)
    (multiple : 2 ^ k ∣ rounded) (size_le : size ≤ rounded)
    (lt : rounded + sizeofKmemPerm + (2 ^ pageshift - 1) < 2 ^ 32)
    (fresh : Fresh pageshift s base (npages pageshift rounded))
    (taken : grow pageshift rounded (2 ^ k) base s.list = some (list', buf)) :
    Layout (s.grown pageshift size rounded base list' buf) ∧ 2 ^ k ∣ buf ∧ Inside (span buf size)
        (base + sizeofKmemPerm, base + npages pageshift rounded * 2 ^ pageshift) := by
  obtain ⟨enough, total_lt⟩ := npages_spec lt
  obtain ⟨separate, inside, ne⟩ := layout.pushed (by omega) fresh
  have pageshift_lt : pageshift < 32 := by
    refine (Nat.pow_lt_pow_iff_right (by decide : 1 < 2)).1 ?_
    have pos : 0 < 2 ^ pageshift := Nat.two_pow_pos pageshift
    simp only [sizeofKmemPerm] at lt
    omega
  have page_le : 2 ^ pageshift ≤ 2 ^ 31 := Nat.pow_le_pow_right (by decide) (by omega)
  have fits := fresh.fits
  have header_eq : word (base + sizeofKmemPerm) = base + sizeofKmemPerm := by
    rw [word]
    omega
  set new : Perm := ⟨base, word (base + sizeofKmemPerm),
    int (npages pageshift rounded * 2 ^ pageshift - sizeofKmemPerm)⟩ with new_eq
  have current_eq : new.current = base + sizeofKmemPerm := header_eq
  have stop_eq : (s.pushed pageshift rounded base).limit new.header =
      base + npages pageshift rounded * 2 ^ pageshift := update_self ..
  obtain ⟨aligned, small⟩ := @padding_spec k new (by omega) (by omega)
  have room : new.current + padding new (2 ^ k) + rounded ≤
      base + npages pageshift rounded * 2 ^ pageshift := by
    obtain ⟨p, pages⟩ : 2 ^ k ∣ base + npages pageshift rounded * 2 ^ pageshift :=
      Nat.dvd_add ((Nat.pow_dvd_pow 2 le).trans fresh.aligned)
        (Dvd.dvd.mul_left (Nat.pow_dvd_pow 2 le) _)
    obtain ⟨m, next⟩ := Nat.dvd_add aligned multiple
    rw [next, pages]
    refine mul_le_mul_left _ (Nat.lt_succ_iff.1 ?_)
    refine lt_of_mul_lt_mul_left ?_ (zero_le (2 ^ k))
    rw [mul_succ, ← pages, ← next]
    omega
  have limit_eq : ∀ qq ∈ s.list, (s.pushed pageshift rounded base).limit qq.header =
      s.limit qq.header := fun qq mem => update_of_ne (ne qq mem) _ _
  obtain ⟨layout', aligned', inside'⟩ := @taken_layout size k 0
    (s.pushed pageshift rounded base) new rounded buf list' separate inside
    (fun run mem => by
      rcases mem_cons.1 mem with rfl | mem
      · exact fits
      · exact layout.runs_lt run mem)
    rfl (by omega)
    (fun j qq j_ne at_j => by
      obtain ⟨j, rfl⟩ := exists_eq_succ_of_ne_zero j_ne
      have mem : qq ∈ s.list := mem_of_getElem? at_j
      rw [limit_eq qq mem]
      exact layout.left qq mem)
    (by
      rw [stop_eq, current_eq]
      refine congrArg int ?_
      push_cast
      ring)
    size_le (by rw [stop_eq]; exact room) (by rw [stop_eq]; omega) taken
  rw [stop_eq, current_eq] at inside'
  exact ⟨layout', aligned', inside'⟩

/-- The rest of a cache is cut off and becomes a chunk. -/
theorem Layout.finish {cp cacheNcpus ncpus : ℕ} (layout : Layout s)
    (mem : span cp (kmemCacheSize cacheNcpus) ∈ s.bufs) (more : ncpus < cacheNcpus)
    (small : kmemCacheSize cacheNcpus < 2 ^ 31) :
    Layout { s with
      list := kmemCacheCreateFinish cp cacheNcpus ncpus s.list
      limit := update s.limit (cp + kmemCacheSize ncpus) (cp + kmemCacheSize cacheNcpus)
      bufs := span cp (kmemCacheSize ncpus) ::
        s.bufs.erase (span cp (kmemCacheSize cacheNcpus)) } := by
  set whole := span cp (kmemCacheSize cacheNcpus) with whole_eq
  set x := cp + kmemCacheSize ncpus with x_eq
  set stop := cp + kmemCacheSize cacheNcpus with stop_eq
  obtain ⟨run, run_mem, inside⟩ := layout.inside whole (mem_append_left _ mem)
  have stop_lt : stop < 2 ^ 32 := inside.2.trans_lt (layout.runs_lt run run_mem)
  simp only [kmemCacheSize] at small x_eq stop_eq
  have header_eq : word (cp + kmemCacheSize ncpus) = x := by
    rw [word, kmemCacheSize]
    omega
  have current_eq : word (x + sizeofKmemPerm) = x + sizeofKmemPerm := by
    rw [word, sizeofKmemPerm]
    omega
  have size_eq : int ((cacheNcpus - ncpus : ℕ) * 64) = ((cacheNcpus - ncpus : ℕ) : ℤ) * 64 := by
    rw [int]
    omega
  have enough : word (sizeofKmemPerm + kmemPermMinfree) ≤
      word (((cacheNcpus - ncpus : ℕ) : ℤ) * 64) := by
    simp only [word, sizeofKmemPerm, kmemPermMinfree]
    omega
  have avail_eq : int (((cacheNcpus - ncpus : ℕ) : ℤ) * 64 - sizeofKmemPerm) =
      (stop : ℤ) - (x + sizeofKmemPerm : ℕ) := by
    simp only [int, sizeofKmemPerm]
    omega
  have list_eq : kmemCacheCreateFinish cp cacheNcpus ncpus s.list =
      ⟨x, x + sizeofKmemPerm, (stop : ℤ) - (x + sizeofKmemPerm : ℕ)⟩ :: s.list := by
    rw [kmemCacheCreateFinish, if_pos more, size_eq]
    dsimp only
    rw [if_pos enough, header_eq, current_eq, avail_eq]
  have old_perm : s.blocks.Perm
      (whole :: (s.bufs.erase whole ++ s.list.flatMap (chunkBlocks s.limit))) :=
    Perm.append_right _ (perm_cons_erase mem)
  have separate := layout.separate.perm old_perm
  obtain ⟨apart, -⟩ := pairwise_cons.1 separate
  have ne : ∀ pp ∈ s.list, pp.header ≠ x := by
    intro pp pp_mem same
    have block_mem : span pp.header sizeofKmemPerm ∈ s.list.flatMap (chunkBlocks s.limit) :=
      mem_flatMap.2 ⟨pp, pp_mem, mem_cons_self⟩
    have header_apart := apart _ (mem_append_right _ block_mem)
    simp only [Apart, whole_eq, span, sizeofKmemPerm, kmemCacheSize, same] at header_apart
    omega
  set pieces := [span cp (kmemCacheSize ncpus), span x sizeofKmemPerm,
    (x + sizeofKmemPerm, stop)] with pieces_eq
  have pieces_inside : ∀ a ∈ pieces, Inside a whole := by
    intro a a_mem
    simp only [pieces_eq, mem_cons, not_mem_nil, or_false] at a_mem
    rcases a_mem with rfl | rfl | rfl
    · simp only [Inside, whole_eq, span, kmemCacheSize]
      omega
    · simp only [Inside, whole_eq, span, kmemCacheSize, sizeofKmemPerm]
      omega
    · simp only [Inside, whole_eq, span, kmemCacheSize, sizeofKmemPerm]
      omega
  have pieces_separate : Separate pieces := by
    simp only [Separate, pieces_eq, pairwise_cons, mem_cons, not_mem_nil, or_false,
      forall_eq_or_imp, forall_eq, Apart, span, kmemCacheSize, sizeofKmemPerm]
    refine ⟨⟨.inl (by omega), .inl (by omega)⟩, .inl le_rfl, fun _ h => (by cases h),
      List.Pairwise.nil⟩
  have new_perm : (pieces ++ (s.bufs.erase whole ++ s.list.flatMap (chunkBlocks s.limit))).Perm
      (span cp (kmemCacheSize ncpus) :: s.bufs.erase whole ++
        (⟨x, x + sizeofKmemPerm, (stop : ℤ) - (x + sizeofKmemPerm : ℕ)⟩ :: s.list).flatMap
          (chunkBlocks (update s.limit x stop))) := by
    have swapped := (@perm_append_comm _ [span x sizeofKmemPerm, (x + sizeofKmemPerm, stop)]
      (s.bufs.erase whole)).append_right (s.list.flatMap (chunkBlocks s.limit))
    rw [append_assoc (s.bufs.erase whole)] at swapped
    rw [flatMap_cons, flatMap_update ne, chunkBlocks, update_self]
    exact List.Perm.cons _ swapped
  refine ⟨?_, ?_, ?_, layout.runs_lt⟩
  · rw [State.blocks]
    dsimp only
    rw [list_eq]
    exact (separate.cut pieces_inside pieces_separate).perm new_perm
  · intro pp pp_mem
    dsimp only at pp_mem ⊢
    rw [list_eq] at pp_mem
    rcases mem_cons.1 pp_mem with rfl | old
    · dsimp only
      rw [update_self]
      refine ⟨rfl, ?_⟩
      simp only [kmemPermMinfree, sizeofKmemPerm]
      omega
    · rw [update_of_ne (ne pp old)]
      exact layout.left pp old
  · intro b b_mem
    rw [State.blocks] at b_mem
    dsimp only at b_mem
    rw [list_eq] at b_mem
    rcases mem_append.1 (new_perm.mem_iff.2 b_mem) with piece | old
    · exact ⟨run, run_mem, (pieces_inside b piece).trans inside⟩
    · exact layout.inside b (old_perm.mem_iff.2 (mem_cons_of_mem _ old))

/-- What a step returns: nothing, or a buffer with the alignment that was asked for, within the
unused part of one chunk, which may be a new one. -/
def Returned (pageshift : ℕ) (s s' : State) : Event → Prop
  | .call size align page => s' = s ∨ ∃ buf, s'.bufs = span buf size :: s.bufs ∧
      leastAlign align ∣ buf ∧
      ((∃ pp ∈ s.list, Inside (span buf size) (pp.current, s.limit pp.header)) ∨
        ∃ base, page = some base ∧ Inside (span buf size) (base + sizeofKmemPerm,
          base + npages pageshift (roundUp size (leastAlign align)) * 2 ^ pageshift))
  | .resume size align base => ∃ buf, s'.bufs = span buf size :: s.bufs ∧
      leastAlign align ∣ buf ∧ Inside (span buf size) (base + sizeofKmemPerm,
        base + npages pageshift (roundUp size (leastAlign align)) * 2 ^ pageshift)
  | .finish _ _ _ => True

/-- A step that meets the condition. -/
theorem Layout.step {e : Event} (layout : Layout s) (lawful : Lawful pageshift s e)
    (condition : Condition pageshift s e) (stepped : step pageshift s e = some s') :
    Layout s' ∧ Returned pageshift s s' e := by
  cases e with
  | call size align page =>
    obtain ⟨⟨list', buf'⟩, called, rfl⟩ := map_eq_some_iff.1 stepped
    obtain ⟨chosen_ok, grown_ok⟩ := condition
    rw [kmemPermAlloc] at called
    dsimp only at called
    by_cases bad : leastAlign align &&& (leastAlign align - 1) ≠ 0 ∨
        2 ^ pageshift < leastAlign align
    · rw [if_pos bad] at called
      cases called
    rw [if_neg bad] at called
    obtain ⟨k, k_eq, k_le, ge⟩ := align_cases bad
    have pos : 0 < 2 ^ k := Nat.two_pow_pos k
    rw [k_eq] at called chosen_ok grown_ok
    rw [k_eq, Returned, k_eq]
    cases found : bestFit (roundUp size (2 ^ k)) (2 ^ k) s.list with
    | some i =>
      rw [found] at called
      obtain ⟨⟨list'', buf⟩, taken, pair⟩ := map_eq_some_iff.1 called
      obtain ⟨rfl, rfl⟩ := Prod.mk.inj pair
      obtain ⟨pp, chosen⟩ := bestFit_some found
      obtain ⟨size_lt, pad_le⟩ := chosen_ok i pp chosen
      obtain ⟨size_le, -, -⟩ := roundUp_spec pos size_lt
      have k_le_32 : k ≤ 32 := (Nat.pow_le_pow_iff_right (by decide : 1 < 2)).1 (by omega)
      obtain ⟨layout', aligned, inside⟩ := layout.hit k_le_32 chosen size_le pad_le taken
      exact ⟨layout', .inr ⟨buf, rfl, aligned, .inl inside⟩⟩
    | none =>
      rw [found] at called
      cases page with
      | none =>
        obtain ⟨rfl, rfl⟩ := Prod.mk.inj (some.inj called)
        exact ⟨layout, .inl rfl⟩
      | some base =>
        obtain ⟨⟨list'', buf⟩, taken, pair⟩ := map_eq_some_iff.1 called
        obtain ⟨rfl, rfl⟩ := Prod.mk.inj pair
        obtain ⟨size_lt, pages_lt⟩ := grown_ok (bestFit_none found) (by simp)
        rw [k_eq] at size_lt pages_lt
        obtain ⟨size_le, multiple, -⟩ := roundUp_spec pos size_lt
        have fresh := lawful base rfl
        rw [k_eq] at fresh
        obtain ⟨layout', aligned, inside⟩ := layout.grown k_le multiple size_le pages_lt fresh taken
        exact ⟨layout', .inr ⟨buf, rfl, aligned, .inr ⟨base, rfl, inside⟩⟩⟩
  | resume size align base =>
    rw [Kmem.step] at stepped
    by_cases bad : leastAlign align &&& (leastAlign align - 1) ≠ 0 ∨
        2 ^ pageshift < leastAlign align
    · rw [if_pos bad] at stepped
      cases stepped
    rw [if_neg bad] at stepped
    obtain ⟨k, k_eq, k_le, ge⟩ := align_cases bad
    have pos : 0 < 2 ^ k := Nat.two_pow_pos k
    obtain ⟨⟨list', buf⟩, taken, rfl⟩ := map_eq_some_iff.1 stepped
    obtain ⟨size_lt, pages_lt⟩ := condition
    rw [Lawful, k_eq] at lawful
    rw [k_eq] at taken size_lt pages_lt ⊢
    rw [Returned, k_eq]
    obtain ⟨size_le, multiple, -⟩ := roundUp_spec pos size_lt
    obtain ⟨layout', aligned, inside⟩ := layout.grown k_le multiple size_le pages_lt lawful taken
    exact ⟨layout', buf, rfl, aligned, inside⟩
  | finish cp cacheNcpus ncpus =>
    rw [Kmem.step] at stepped
    split_ifs at stepped with known
    obtain rfl := some.inj stepped
    exact ⟨layout.finish known.1 known.2 lawful, trivial⟩

theorem Reach.layout (reach : Reach pageshift (Condition pageshift) s) : Layout s := by
  induction reach with
  | start limit =>
    exact ⟨List.Pairwise.nil, fun _ mem => (nomatch mem), fun _ mem => (nomatch mem),
      fun _ mem => (nomatch mem)⟩
  | next e _ lawful condition stepped layout => exact (layout.step lawful condition stepped).1

/-- In every run whose steps meet the condition, the buffers lie apart from each other and from the
headers and unused parts of the chunks on the list, each chunk counts what is left of it, and every
buffer that comes back is aligned and within the unused part of one chunk. -/
theorem perm_alloc_apart (pageshift : ℕ) (s : State)
    (reach : Reach pageshift (Condition pageshift) s) :
    Separate s.blocks ∧
    (∀ pp ∈ s.list, pp.avail = (s.limit pp.header : ℤ) - pp.current ∧ kmemPermMinfree ≤ pp.avail) ∧
    ∀ e s', Lawful pageshift s e → Condition pageshift s e → step pageshift s e = some s' →
      Returned pageshift s s' e :=
  ⟨reach.layout.separate, reach.layout.left, fun _ _ lawful condition stepped =>
    (reach.layout.step lawful condition stepped).2⟩

/-- A buffer of a hundred bytes from a new page, and one of fifty from what is left of it. -/
theorem perm_alloc_apart_page :
    ∃ s : State, s.bufs = [span 4216 50, span 4112 100] ∧ Separate s.blocks := by
  have fresh : Fresh 12 ⟨[], fun _ => 0, [], []⟩ 4096 (npages 12 (roundUp 100 (leastAlign 8))) :=
    ⟨by decide, by decide, fun _ mem => (nomatch mem)⟩
  have none_chosen : ∀ i pp, ¬Chosen (roundUp 100 (leastAlign 8)) (leastAlign 8) [] i pp :=
    fun i pp chosen => (nomatch chosen.here)
  have first := Reach.next (.call 100 8 (some 4096))
    (@Reach.start 12 (Condition 12) fun _ => 0)
    (by rintro base ⟨⟩; exact fresh)
    ⟨fun i pp chosen => absurd chosen (none_chosen i pp), fun _ _ => ⟨by decide, by decide⟩⟩ rfl
  have second := Reach.next (.call 50 8 none) first (fun _ given => nomatch given)
    ⟨fun i pp chosen => match i, pp, chosen.here with
      | 0, _, rfl => ⟨by decide, by decide⟩,
      fun _ given => absurd rfl given⟩ rfl
  exact ⟨_, rfl, (perm_alloc_apart 12 _ second).1⟩

/-! ### A chunk that is too short -/

/-- A cache for four processors in a new page. -/
def cacheState : State :=
  ⟨[⟨8192, 8768, 3520⟩], update (fun _ => 0) 8192 12288, [span 8256 512], [span 8192 4096]⟩

/-- The same with the place of the fourth processor given back: a chunk of 52 bytes. -/
def shortState : State :=
  ⟨[⟨8704, 8716, 52⟩, ⟨8192, 8768, 3520⟩], update cacheState.limit 8704 8768,
    [span 8256 448], [span 8192 4096]⟩

theorem shortState_reach : Reach 12 (fun _ _ => True) shortState := by
  have fresh : Fresh 12 ⟨[], fun _ => 0, [], []⟩ 8192 (npages 12 (roundUp 512 (leastAlign 64))) :=
    ⟨by decide, by decide, fun _ mem => (nomatch mem)⟩
  have first : Reach 12 (fun _ _ => True) cacheState :=
    Reach.next (.call 512 64 (some 8192)) (Reach.start fun _ => 0)
      (by rintro base ⟨⟩; exact fresh) trivial rfl
  have small : kmemCacheSize 4 < 2 ^ 31 := by decide
  exact Reach.next (.finish 8256 4 3) first small trivial rfl

/-- The short chunk passes the test for eight bytes at the beginning of a page, and the buffer lies
behind the end of all chunks. -/
theorem not_perm_alloc_inside :
    ¬∀ (pageshift : ℕ) (s : State), Reach pageshift (fun _ _ => True) s → ∀ e s',
      Lawful pageshift s e → step pageshift s e = some s' → Returned pageshift s s' e := by
  intro inside
  obtain same | ⟨buf, bufs_eq, -, ⟨pp, mem, -, last⟩ | ⟨base, page, -⟩⟩ :=
    inside 12 shortState shortState_reach (.call 8 4096 none)
      (shortState.taken 8 [⟨8192, 8768, 3520⟩] 12288) (fun _ page => nomatch page) rfl
  · exact absurd (congrArg (fun s : State => s.bufs.length) same) (by decide)
  · have buf_eq : 12288 = buf := congrArg Prod.fst (cons.inj bufs_eq).1
    have limits : ∀ pp ∈ shortState.list, shortState.limit pp.header ≤ 12288 := by decide
    have le := limits pp mem
    simp only [span] at last
    omega
  · exact nomatch page

end Sol25.Kmem
