import Mathlib.Data.Set.Card
import Sol25.Seglist.Memcntl

/-!
# When failed locking is undone

The loops over an address space, and what `memcntl` restores: the pages that `mem_unlock` looks for
are as many as those that have been locked, so it restores them all if each one is looked for.
-/

namespace Sol25.Seglist

open List Option

/-! ### The segments of an address space -/

section Lockas

variable {k : Kernel} {s s' : State} {l front back : List ℕ} {p q y i pos top bot : ℕ}
  {attr : BitVec 32} {drv drv' : Drv} {call call' : Piece × ℕ}

theorem lockasLoop_eq (chain : s.chain.Holds (front ++ back)) (fuel : ℕ) :
    lockasLoop k s attr (fuel + back.length + 1) back.head? pos drv =
      some (lockAll k attr (asPieces s back pos) drv) := by
  induction back generalizing front pos drv with
  | nil => rfl
  | cons p back ih =>
    have next : s.segp (s.seg p).next (some p) = back.head? := chain.neighbours.2
    have split : front ++ p :: back = (front ++ [p]) ++ back := by simp
    rw [split] at chain
    rw [head?_cons, show fuel + (p :: back).length + 1 = fuel + back.length + 1 + 1 from rfl,
      lockasLoop, asPieces, lockAll, next]
    dsimp only
    obtain ⟨err, drv⟩ := segvnLock k attr pos ⟨p, (s.seg p).base, (s.seg p).size⟩ drv
    dsimp only
    by_cases failed : err ≠ 0
    · rw [if_pos failed, if_pos failed]
    · rw [if_neg failed, if_neg failed]
      exact ih chain

theorem SameAreas.segPages (same : SameAreas s s') (p : ℕ) : s'.segPages p = s.segPages p := by
  rw [State.segPages, State.segPages, (same p).2]

theorem SameAreas.asPieces (same : SameAreas s s') (l : List ℕ) (pos : ℕ) :
    asPieces s' l pos = asPieces s l pos := by
  induction l generalizing pos with
  | nil => rfl
  | cons p l ih =>
    rw [Seglist.asPieces, Seglist.asPieces, (same p).1, (same p).2, same.segPages, ih]

theorem asPieces_mem (mem : call ∈ asPieces s l pos) :
    call.1.seg ∈ l ∧ call.1.addr = (s.seg call.1.seg).base ∧ call.1.size = (s.seg call.1.seg).size ∧
      pos ≤ call.2 := by
  induction l generalizing pos with
  | nil => exact nomatch mem
  | cons p l ih =>
    rcases mem_cons.1 mem with rfl | mem
    · exact ⟨mem_cons_self, rfl, rfl, Nat.le_refl _⟩
    · obtain ⟨seg_mem, addr_eq, size_eq, le⟩ := ih mem
      exact ⟨mem_cons_of_mem p seg_mem, addr_eq, size_eq, by omega⟩

/-- The number of pages of the segments in front of one. -/
def State.pagesBefore (s : State) (l : List ℕ) (p : ℕ) : ℕ :=
  ((l.takeWhile (· ≠ p)).map s.segPages).sum

theorem asPieces_place (distinct : l.Nodup) (mem : call ∈ asPieces s l pos) :
    call.2 = pos + s.pagesBefore l call.1.seg := by
  induction l generalizing pos with
  | nil => exact nomatch mem
  | cons p l ih =>
    obtain ⟨absent, distinct⟩ := nodup_cons.1 distinct
    rw [State.pagesBefore]
    rcases mem_cons.1 mem with rfl | mem
    · rw [takeWhile_cons_of_neg (by simp)]
      rfl
    · have differ : p ≠ call.1.seg := fun same => absent (same ▸ (asPieces_mem mem).1)
      rw [ih distinct mem, takeWhile_cons_of_pos (by simpa using differ), map_cons, sum_cons,
        State.pagesBefore, Nat.add_assoc]

theorem asPieces_segs (s : State) (l : List ℕ) (pos : ℕ) :
    (asPieces s l pos).map (fun call => call.1.seg) = l := by
  induction l generalizing pos with
  | nil => rfl
  | cons p l ih => rw [asPieces, map_cons, ih]

/-- No bit is in the places of two segments. -/
theorem asPieces_unique (mem : call ∈ asPieces s l pos) (mem' : call' ∈ asPieces s l pos)
    (le : call.2 ≤ i) (lt : i < call.2 + s.segPages call.1.seg) (le' : call'.2 ≤ i)
    (lt' : i < call'.2 + s.segPages call'.1.seg) : call = call' := by
  induction l generalizing pos with
  | nil => exact nomatch mem
  | cons p l ih =>
    rcases mem_cons.1 mem with rfl | mem
    · rcases mem_cons.1 mem' with rfl | mem'
      · rfl
      · have behind := (asPieces_mem mem').2.2.2
        dsimp only at lt
        omega
    · rcases mem_cons.1 mem' with rfl | mem'
      · have behind := (asPieces_mem mem).2.2.2
        dsimp only at lt'
        omega
      · exact ih mem mem'

/-- The segments have no more pages than the address space. -/
theorem sum_segPages_le (ordered : Ordered s l) (paged : s.Paged l) (le : bot ≤ top)
    (above : ∀ p ∈ l, bot * pageSize ≤ (s.seg p).base)
    (below : ∀ p ∈ l, s.eaddr p ≤ top * pageSize) :
    bot + (l.map s.segPages).sum ≤ top := by
  induction l generalizing bot with
  | nil => exact le
  | cons p l ih =>
    have behind := (pairwise_cons.1 ordered.order).1
    have p_above := above p mem_cons_self
    have p_below := below p mem_cons_self
    obtain ⟨⟨b, base_eq⟩, n, size_eq⟩ := paged p mem_cons_self
    have base_eq : (s.seg p).base = pageSize * b := base_eq
    have size_eq : (s.seg p).size = pageSize * n := size_eq
    have pages_eq : s.segPages p = n := by
      rw [State.segPages, size_eq, Nat.mul_div_cancel_left _ pageSize_pos]
    have end_eq : s.eaddr p = (b + n) * pageSize := by
      rw [State.eaddr, base_eq, size_eq, ← Nat.mul_add, Nat.mul_comm]
    rw [end_eq] at p_below
    rw [base_eq, Nat.mul_comm pageSize] at p_above
    have bot_le := Nat.le_of_mul_le_mul_right p_above pageSize_pos
    have rest := @ih (b + n) (ordered.sublist (sublist_cons_self p l))
      (fun q q_mem => paged q (mem_cons_of_mem p q_mem))
      (Nat.le_of_mul_le_mul_right p_below pageSize_pos)
      (fun q q_mem => by
        rw [← end_eq]
        exact behind q q_mem)
      fun q q_mem => below q (mem_cons_of_mem p q_mem)
    rw [map_cons, sum_cons, pages_eq]
    omega

/-- The bits in the places of the segments. -/
def Placed (s : State) (calls : List (Piece × ℕ)) (bitmap : ℕ → Bool) (y : ℕ) : Prop :=
  ∃ call ∈ calls, ∃ i, call.2 ≤ i ∧ i < call.2 + s.segPages call.1.seg ∧ bitmap i = true ∧
    y = (call.1.first + i) % 2 ^ 20

/-- The loop over the segments seeks the pages at the distance of the bits from each segment. -/
theorem Held.unlockasLoop (held : Held s (front ++ back)) (paged : s.Paged (front ++ back))
    (below : ∀ p ∈ front ++ back, s.eaddr p < 2 ^ 32)
    (room : pos + (back.map s.segPages).sum < 2 ^ 20) (fuel : ℕ) :
    ∃ drv' s', unlockasLoop attr (fuel + back.length + 1) s back.head? pos pos drv =
        some (drv', s') ∧ Held s' (front ++ back) ∧ SameAreas s s' ∧
      ∃ pages, Unlocked attr pages drv drv' ∧
        Seeks s (front ++ back) (Placed s (asPieces s back pos) drv.lockmap) pages := by
  induction back generalizing front s pos drv with
  | nil =>
    refine ⟨drv, s, rfl, held, fun _ => ⟨rfl, rfl⟩, fun _ _ => False,
      Unlocked.nothing fun _ _ => not_false, fun _ _ impossible => impossible.elim, ?_⟩
    rintro - p - y ⟨_, none_here, -⟩
    exact nomatch none_here
  | cons p back ih =>
    have split : front ++ p :: back = (front ++ [p]) ++ back := by simp
    have p_mem : p ∈ front ++ p :: back := by simp
    obtain ⟨b, base_eq⟩ := (paged p p_mem).1
    have base_eq : (s.seg p).base = b * pageSize := base_eq.trans (Nat.mul_comm ..)
    have mask_eq : pageMask (s.seg p).base = b * pageSize := by
      rw [base_eq, pageMask_of_dvd (Nat.dvd_mul_left ..)]
    have base_lt : b < 2 ^ 20 := by
      have lt := base_lt_eaddr held.ordered p_mem
      have p_below := below p p_mem
      rw [base_eq] at lt
      simp only [pageSize] at lt
      omega
    rw [map_cons, sum_cons] at room
    obtain ⟨drv₁, s₁, unlocks, held₁, same₁, pages₁, unlocked₁, seeks₁⟩ :=
      @Held.memUnlock s (front ++ p :: back) attr drv b (pos + s.segPages p) pos
        (pos + s.segPages p + 1) held paged below (by omega) (by omega) (by omega)
    have next : s₁.segp (s₁.seg p).next (some p) = back.head? := held₁.represents.chain.neighbours.2
    have paged₁ := same₁.paged paged
    have below₁ := same₁.below below
    have pages_eq : back.map s₁.segPages = back.map s.segPages :=
      map_congr_left fun q _ => same₁.segPages q
    rw [split] at held₁ paged₁ below₁
    obtain ⟨drv', s', rest, held', same', pages', unlocked', seeks'⟩ :=
      @ih s₁ (front ++ [p]) (pos + s.segPages p) drv₁ held₁ paged₁ below₁ (by rw [pages_eq]; omega)
    rw [← split] at held' seeks'
    rw [head?_cons, show fuel + (p :: back).length + 1 = fuel + back.length + 1 + 1 from rfl,
      Seglist.unlockasLoop]
    dsimp only
    rw [mask_eq, unlocks, bind_some]
    dsimp only
    rw [next, same₁.segPages, rest]
    refine ⟨drv', s', rfl, held', same₁.trans same', _, unlocked₁.trans unlocked', ?_⟩
    refine (seeks₁.or (same₁.seeks seeks')).congr fun y => ?_
    have first_eq : Piece.first ⟨p, (s.seg p).base, (s.seg p).size⟩ = b := by
      rw [Piece.first, base_eq, Nat.mul_div_cancel _ pageSize_pos]
    rw [unlocked₁.lockmap, Placed, Placed, same₁.asPieces, asPieces, exists_mem_cons_iff,
      first_eq]
    simp only [same₁.segPages]

end Lockas

/-! ### Whether locking is undone -/

section Undone

variable {k : Kernel} {s : State} {l : List ℕ} {p y : ℕ} {attr : BitVec 32} {out : ℕ → ℕ → Outcome}
  {drv drv₁ drv' : Drv} {calls : List (Piece × ℕ)} {sought : ℕ → ℕ → ℕ} {pages : ℕ → ℕ → Prop}

/-- The pages that are locked through each segment are the same. -/
def Undone (drv drv' : Drv) : Prop := ∀ p y, drv'.Holds p y ↔ drv.Holds p y

theorem State.HasPage.lt (has : s.HasPage p y) (below : s.eaddr p < 2 ^ 32) : y < 2 ^ 20 := by
  have lt := has.2
  simp only [pageSize] at lt
  omega

theorem image_subset_of_subset {N : Set ℕ} (finite : N.Finite) {f : ℕ → ℕ} (covers : N ⊆ f '' N) :
    f '' N ⊆ N := by
  have same := Set.eq_of_subset_of_ncard_le covers (Set.ncard_image_le finite) (finite.image f)
  exact same.symm.subset

/-- Unlocking restores what was locked if it looks for the pages where they are. -/
theorem undone_iff (held : Held s l) (below : ∀ p ∈ l, s.eaddr p < 2 ^ 32)
    (locked : AllLocked attr calls (Newly out calls) drv drv₁)
    (fresh : ∀ p y, Taken out calls p y → ¬ drv.Holds p y)
    (has : ∀ p y, Taken out calls p y → p ∈ l ∧ s.HasPage p y)
    (unlocked : Unlocked attr pages drv₁ drv')
    (seeks : Seeks s l (fun y => ∃ p z, Taken out calls p z ∧ y = sought p z) pages) :
    Undone drv drv' ↔ ∀ p y, Taken out calls p y → ∃ q z, Taken out calls q z ∧ y = sought q z := by
  have holds_iff (p y) : drv₁.Holds p y ↔ drv.Holds p y ∨ Taken out calls p y := by
    rw [locked.lock, exists_newly_iff]
  constructor
  · intro undone p y got
    have gone : ¬ drv'.Holds p y := fun holds => fresh p y got ((undone p y).1 holds)
    rw [unlocked.lock, and_iff_right ((holds_iff p y).2 (.inr got)), not_not] at gone
    exact (seeks.only p y gone.1).1
  · intro finds
    -- The pages that are sought are those that have been locked.
    have back : ∀ p z, Taken out calls p z → ∃ q, Taken out calls q (sought p z) := by
      obtain ⟨f, f_eq⟩ : ∃ f : ℕ → ℕ, ∀ p z, Taken out calls p z → f z = sought p z := by
        classical
        refine ⟨fun z => if got : ∃ p, Taken out calls p z then sought got.choose z else 0,
          fun p z got => ?_⟩
        have some_seg : ∃ p, Taken out calls p z := ⟨p, got⟩
        dsimp only
        rw [dif_pos some_seg]
        obtain ⟨p_mem, p_has⟩ := has p z got
        obtain ⟨q_mem, q_has⟩ := has _ z some_seg.choose_spec
        rw [held.ordered.contains_unique q_mem p_mem q_has p_has]
      have finite : { z | ∃ p, Taken out calls p z }.Finite := by
        refine (Set.finite_lt_nat (2 ^ 20)).subset ?_
        rintro z ⟨p, got⟩
        obtain ⟨p_mem, p_has⟩ := has p z got
        exact p_has.lt (below p p_mem)
      have subset := image_subset_of_subset finite (f := f) (by
        rintro y ⟨p, got⟩
        obtain ⟨q, z, got', y_eq⟩ := finds p y got
        exact ⟨z, ⟨q, got'⟩, (f_eq q z got').trans y_eq.symm⟩)
      intro p z got
      exact subset ⟨z, ⟨p, got⟩, f_eq p z got⟩
    have all := seeks.all (by
      rintro _ ⟨p, z, got, rfl⟩
      obtain ⟨q, got'⟩ := back p z got
      exact ⟨q, has q _ got'⟩)
    intro p y
    rw [unlocked.lock, holds_iff]
    by_cases got : Taken out calls p y
    · obtain ⟨p_mem, p_has⟩ := has p y got
      obtain ⟨i, newly⟩ := exists_newly_iff.2 got
      have gone := all p p_mem y (finds p y got) p_has
      exact iff_of_false (fun kept => kept.2 ⟨gone, locked.unlockable p y i newly⟩) (fresh p y got)
    · rw [or_iff_left got, and_iff_left]
      rintro ⟨there, -⟩
      obtain ⟨⟨q, z, got', rfl⟩, p_mem, p_has⟩ := seeks.only p y there
      obtain ⟨r, got''⟩ := back q z got'
      obtain ⟨r_mem, r_has⟩ := has r _ got''
      obtain rfl := held.ordered.contains_unique p_mem r_mem p_has r_has
      exact got got''

/-- A page that gets locked was not locked. -/
theorem Taken.fresh (got : Taken (drv.outcome k attr) calls p y) : ¬ drv.Holds p y := by
  obtain ⟨i, newly⟩ := exists_newly_iff.2 got
  clear got
  induction newly with
  | here gets =>
    rename_i piece pos y rest
    have locks := gets.2.2.1
    rw [Drv.outcome] at locks
    split_ifs at locks
    rw [Svd.outcome] at locks
    intro holds
    rw [if_pos] at locks
    · exact Outcome.noConfusion locks
    · rintro ⟨-, free⟩
      rw [Svd.page_prepared] at free
      exact Bool.false_ne_true (free.symm.trans holds)
  | later _ _ ih => exact ih

end Undone

/-! ### `memcntl` -/

section Memcntl

variable {k : Kernel} {s : State} {l : List ℕ} {p y i : ℕ} {c : Call} {drv : Drv}
  {out : ℕ → ℕ → Outcome}

/-- The pieces that a call locks, each with its place in the bit map. -/
def Call.pieces (c : Call) (s : State) (l : List ℕ) : List (Piece × ℕ) :=
  match c.cmd with
  | .lockas => if c.arg &&& mclCurrent = 0 then [] else asPieces s l 0
  | .lock =>
    let rlen := roundSize c.addr c.len
    if 0 < rlen ∧ c.addr + rlen < 2 ^ 32 then
      (rangePieces s (c.addr + rlen) (s.above l c.addr) c.addr).map fun piece => (piece, 0)
    else []

/-- The condition under which a call that fails restores what was locked.  For `MC_LOCK` only pages
of the segment at the start of the range get locked.  For `MC_LOCKAS`, where `mem_unlock` looks for
a page behind it by the number of pages in front of its segment, every page that gets locked lies
so far behind one that does. -/
def Call.Restores (c : Call) (s : State) (l : List ℕ) (out : ℕ → ℕ → Outcome) : Prop :=
  match c.cmd with
  | .lock => ∀ p y, Taken out (c.pieces s l) p y → s.Contains p c.addr
  | .lockas => ∀ p y, Taken out (c.pieces s l) p y →
      ∃ q z, Taken out (c.pieces s l) q z ∧ y = (z + s.pagesBefore l q) % 2 ^ 20

theorem dvd_roundSize {addr size : ℕ} (aligned : pageSize ∣ addr) :
    pageSize ∣ roundSize addr size := by
  obtain ⟨k, rfl⟩ := aligned
  refine ⟨roundSize (pageSize * k) size / pageSize, ?_⟩
  simp only [roundSize, pageMask, pageSize]
  omega

theorem Call.aligned_of_accepted (accepted : c.rejected = none) (is_lock : c.cmd = .lock) :
    pageSize ∣ c.addr := by
  refine Nat.dvd_of_mod_eq_zero ?_
  by_contra unaligned
  have bad : c.cmd = .lock ∧ c.addr % pageSize ≠ 0 := ⟨is_lock, unaligned⟩
  rw [rejected] at accepted
  split_ifs at accepted

/-- A state of the driver with the same data of the segments and an empty bit map. -/
structure Fresh (drv drv₀ : Drv) : Prop where
  svd : drv₀.svd = drv.svd
  lockmap : ∀ i, drv₀.lockmap i = false

namespace Fresh

variable {drv₀ drv' : Drv} {attr : BitVec 32}

theorem outcome (fresh : Fresh drv drv₀) : drv₀.outcome k attr = drv.outcome k attr := by
  funext seg x
  rw [Drv.outcome, Drv.outcome, fresh.svd]

theorem holds (fresh : Fresh drv drv₀) : drv₀.Holds p y ↔ drv.Holds p y := by
  rw [Drv.Holds, Drv.Holds, fresh.svd]

theorem undone_iff (fresh : Fresh drv drv₀) : Undone drv₀ drv' ↔ Undone drv drv' := by
  refine forall_congr' fun p => forall_congr' fun y => ?_
  rw [fresh.holds]

theorem lockmap_iff (fresh : Fresh drv drv₀) {calls : List (Piece × ℕ)} {newly : ℕ → ℕ → ℕ → Prop}
    (locked : AllLocked attr calls newly drv₀ drv') (i : ℕ) :
    drv'.lockmap i = true ↔ ∃ p y, newly p y i := by
  rw [locked.lockmap, fresh.lockmap, or_iff_right Bool.false_ne_true]

end Fresh

theorem asPieces_count (paged : s.Paged l) {call : Piece × ℕ} {pos : ℕ}
    (mem : call ∈ asPieces s l pos) : call.1.first = (s.seg call.1.seg).base / pageSize ∧
      call.1.count = s.segPages call.1.seg := by
  obtain ⟨seg_mem, addr_eq, size_eq, -⟩ := asPieces_mem mem
  obtain ⟨⟨b, base_eq⟩, n, pages_eq⟩ := paged _ seg_mem
  have base_eq : (s.seg call.1.seg).base = pageSize * b := base_eq
  have pages_eq : (s.seg call.1.seg).size = pageSize * n := pages_eq
  rw [Piece.first, Piece.count, State.segPages, addr_eq, size_eq]
  refine ⟨rfl, ?_⟩
  rw [base_eq, pages_eq, ← Nat.mul_add]
  simp only [Nat.mul_div_cancel_left _ pageSize_pos]
  omega

/-- The pages of the segments of an address space that get locked. -/
theorem newly_asPieces (paged : s.Paged l) {pos : ℕ} (got : Newly out (asPieces s l pos) p y i) :
    p ∈ l ∧ s.HasPage p y ∧ ∃ call ∈ asPieces s l pos, call.1.seg = p ∧ call.2 ≤ i ∧
      i < call.2 + s.segPages call.1.seg ∧ call.1.first + i = y + call.2 := by
  obtain ⟨call, mem, rfl, le, lt, i_eq⟩ := got.mem
  obtain ⟨seg_mem, addr_eq, size_eq, -⟩ := asPieces_mem mem
  obtain ⟨-, count_eq⟩ := asPieces_count paged mem
  have aligned := paged _ seg_mem
  have starts : pageSize ∣ call.1.addr := by
    rw [addr_eq]
    exact aligned.1
  have ends : pageSize ∣ call.1.addr + call.1.size := by
    rw [addr_eq, size_eq]
    exact aligned.eaddr
  have has := (hasPage_iff starts ends).1 ⟨rfl, le, lt⟩
  rw [addr_eq, size_eq] at has
  exact ⟨seg_mem, has.2, call, mem, rfl, by omega, by omega, by omega⟩

theorem taken_asPieces (paged : s.Paged l) (is_lockas : c.cmd = .lockas)
    (got : Taken out (c.pieces s l) p y) : p ∈ l ∧ s.HasPage p y := by
  rw [Call.pieces, is_lockas] at got
  dsimp only at got
  split_ifs at got
  · exact got.elim
  · obtain ⟨i, newly⟩ := exists_newly_iff.2 got
    obtain ⟨p_mem, has, -⟩ := newly_asPieces paged newly
    exact ⟨p_mem, has⟩

/-- Where no page lies so high that what `mem_unlock` looks for wraps around, only pages of the
first segment may get locked. -/
theorem Call.restores_lockas_iff (ordered : Ordered s l) (paged : s.Paged l)
    (is_lockas : c.cmd = .lockas)
    (room : ∀ p y, Taken out (c.pieces s l) p y → y + s.pagesBefore l p < 2 ^ 20) :
    c.Restores s l out ↔ ∀ p y, Taken out (c.pieces s l) p y → s.pagesBefore l p = 0 := by
  rw [Call.Restores, is_lockas]
  dsimp only
  constructor
  · intro found p y got
    -- From the first page up: a page is found at itself or at one in front of it.
    induction y using Nat.strong_induction_on generalizing p with
    | _ y ih =>
      obtain ⟨q, z, got', y_eq⟩ := found p y got
      rw [Nat.mod_eq_of_lt (room q z got')] at y_eq
      by_cases lt : z < y
      · have none_before := ih z lt q got'
        omega
      · obtain rfl : z = y := by omega
        obtain ⟨p_mem, p_has⟩ := taken_asPieces paged is_lockas got
        obtain ⟨q_mem, q_has⟩ := taken_asPieces paged is_lockas got'
        rw [ordered.contains_unique p_mem q_mem p_has q_has]
        omega
  · intro first p y got
    have fits := room p y got
    rw [first p y got] at fits
    exact ⟨p, y, got, by rw [first p y got, Nat.mod_eq_of_lt fits]; rfl⟩

/-- A call on an address space. -/
theorem Held.memcntl_lockas (held : Held s l) (paged : s.Paged l)
    (below : ∀ p ∈ l, s.eaddr p < 2 ^ 32) (accepted : c.rejected = none)
    (is_lockas : c.cmd = .lockas) :
    ∃ err drv' s', memcntl k s c drv = some (err, drv', s') ∧
      (err ≠ 0 → (Undone drv drv' ↔ c.Restores s l (drv.outcome k c.userAttr))) := by
  obtain ⟨-, ordered, chain, nsegs⟩ := held.represents
  have first : s.segp s.list none = l.head? := chain.first
  rw [memcntl, accepted]
  dsimp only
  rw [is_lockas, first]
  dsimp only
  by_cases empty : l = []
  · rw [empty]
    exact ⟨0, _, s, rfl, fun error => absurd rfl error⟩
  obtain ⟨p, back, l_eq⟩ := exists_cons_of_ne_nil empty
  have some_first : l.head? = some p := by rw [l_eq, head?_cons]
  rw [some_first, asCtlLockas]
  dsimp only
  generalize start : (if c.arg &&& mclFuture ≠ 0 then
    { svd := drv.svd, lockmap := fun _ => false, paglck := true : Drv }
    else { svd := drv.svd, lockmap := fun _ => false, paglck := drv.paglck }) = drv₀
  have fresh : Fresh drv drv₀ := by
    subst start
    split_ifs
    · exact ⟨rfl, fun _ => rfl⟩
    · exact ⟨rfl, fun _ => rfl⟩
  by_cases current : c.arg &&& mclCurrent = 0
  · rw [if_pos current]
    exact ⟨0, _, s, rfl, fun error => absurd rfl error⟩
  have loops := @lockasLoop_eq k s [] l 0 c.userAttr drv₀ chain 0
  rw [some_first] at first loops
  have pieces_eq : c.pieces s l = asPieces s l 0 := by
    rw [Call.pieces, is_lockas]
    exact if_neg current
  have distinct : ((asPieces s l 0).map fun call => call.1.seg).Nodup := by
    rw [asPieces_segs]
    exact ordered.nodup
  have locked := @lockAll_spec k c.userAttr drv₀ (asPieces s l 0) distinct
  rw [fresh.outcome] at locked
  rw [if_neg current, first, nsegs, ← Nat.zero_add l.length, loops, bind_some]
  generalize lockAll k c.userAttr (asPieces s l 0) drv₀ = result at locked
  obtain ⟨err, drv₁⟩ := result
  dsimp only at locked ⊢
  by_cases failed : err ≠ 0
  · have room := sum_segPages_le ordered paged (Nat.zero_le (2 ^ 20 - 1))
      (fun q _ => by rw [Nat.zero_mul]; exact Nat.zero_le _) fun q mem => by
        obtain ⟨n, end_eq⟩ := paged.ends mem
        have q_below := below q mem
        rw [end_eq] at q_below ⊢
        simp only [pageSize] at q_below ⊢
        omega
    obtain ⟨drv', s', unlocks, -, -, pages, unlocked, seeks⟩ := @Held.unlockasLoop s [] l 0
      c.userAttr drv₁ held paged below (by omega) 0
    rw [some_first] at unlocks
    rw [if_pos failed, unlocks]
    refine ⟨err, drv', s', rfl, fun _ => ?_⟩
    have placed_iff (y : ℕ) : Placed s (asPieces s l 0) drv₁.lockmap y ↔
        ∃ p z, Taken (drv.outcome k c.userAttr) (asPieces s l 0) p z ∧
          y = (z + s.pagesBefore l p) % 2 ^ 20 := by
      constructor
      · rintro ⟨call, mem, i, le, lt, noted, rfl⟩
        obtain ⟨p, z, got⟩ := (fresh.lockmap_iff locked i).1 noted
        obtain ⟨-, -, call', mem', rfl, le', lt', place⟩ := newly_asPieces paged got
        obtain rfl := asPieces_unique mem mem' le lt le' lt'
        refine ⟨call.1.seg, z, exists_newly_iff.1 ⟨i, got⟩, ?_⟩
        rw [place, asPieces_place ordered.nodup mem, Nat.zero_add]
      · rintro ⟨p, z, got, rfl⟩
        obtain ⟨i, got⟩ := exists_newly_iff.2 got
        obtain ⟨-, -, call, mem, rfl, le, lt, place⟩ := newly_asPieces paged got
        refine ⟨call, mem, i, le, lt, (fresh.lockmap_iff locked i).2 ⟨_, z, got⟩, ?_⟩
        rw [place, asPieces_place ordered.nodup mem, Nat.zero_add]
    have seeks := seeks.congr placed_iff
    rw [Call.Restores, is_lockas, ← fresh.undone_iff]
    dsimp only
    rw [pieces_eq]
    exact undone_iff held below locked (fun p y got holds => got.fresh (fresh.holds.1 holds))
      (fun p y got => taken_asPieces paged is_lockas (pieces_eq ▸ got)) unlocked seeks
  · rw [if_neg failed]
    exact ⟨0, drv₁, s, rfl, fun error => absurd rfl error⟩

theorem Held.rangePieces_spec (held : Held s l) (paged : s.Paged l) {addr rlen : ℕ}
    (aligned : pageSize ∣ addr) (rlen_aligned : pageSize ∣ rlen) :
    ∀ piece ∈ rangePieces s (addr + rlen) (s.above l addr) addr,
      RangePiece s l addr (addr + rlen) piece := by
  obtain ⟨front, back, rfl, splits⟩ := held.ordered.exists_splits addr
  have back_mem : ∀ p ∈ back, p ∈ front ++ back := fun p mem => mem_append_right front mem
  rw [splits.above_eq]
  exact Seglist.rangePieces_spec (held.ordered.sublist (sublist_append_right ..))
    (fun p mem => paged p (back_mem p mem)) back_mem splits.above (Nat.le_add_right ..) aligned
    (Nat.dvd_add aligned rlen_aligned)

/-- A page of a segment in a range. -/
structure RangePage (s : State) (l : List ℕ) (a n p y : ℕ) : Prop where
  mem : p ∈ l
  has : s.HasPage p y
  le : a ≤ y
  lt : y < a + n

/-- The bit of a page of a range. -/
def State.rangeBit (s : State) (a p y : ℕ) : ℕ := y - max ((s.seg p).base / pageSize) a

theorem newly_rangePieces (held : Held s l) (paged : s.Paged l) {a n : ℕ}
    (got : Newly out ((rangePieces s (a * pageSize + n * pageSize) (s.above l (a * pageSize))
      (a * pageSize)).map fun piece => (piece, 0)) p y i) :
    RangePage s l a n p y ∧ i = s.rangeBit a p y := by
  obtain ⟨call, mem, rfl, le, lt, i_eq⟩ := got.mem
  obtain ⟨piece, piece_mem, rfl⟩ := List.mem_map.1 mem
  have spec := held.rangePieces_spec paged (Nat.dvd_mul_left ..)
    (Nat.dvd_mul_left ..) piece piece_mem
  have has := (hasPage_iff spec.starts spec.ends).1 ⟨rfl, le, lt⟩
  obtain ⟨seg_mem, base_le, le_end⟩ := spec.inside
  obtain ⟨b, base_eq⟩ := (paged _ seg_mem).1
  have base_eq : (s.seg piece.seg).base = pageSize * b := base_eq
  have first_eq : piece.first = max b a := by
    rw [Piece.first, spec.start, base_eq, Nat.mul_comm pageSize, Nat.mul_max_mul_right,
      Nat.mul_div_cancel _ pageSize_pos]
  have start_le := spec.start_le
  have le_last := spec.le_last
  dsimp only at le lt i_eq ⊢
  refine ⟨⟨seg_mem, ⟨by omega, by omega⟩, ?_, ?_⟩, ?_⟩
  · exact Nat.le_of_mul_le_mul_right (by omega) pageSize_pos
  · have bound : y * pageSize < (a + n) * pageSize := by
      rw [Nat.add_mul]
      omega
    exact Nat.lt_of_mul_lt_mul_right bound
  · rw [State.rangeBit, base_eq, Nat.mul_div_cancel_left _ pageSize_pos, ← first_eq]
    omega

/-- The bits of a range, all of them counted from its start, name the pages only if they lie in the
segment at the start. -/
theorem found_iff (held : Held s l) {a n : ℕ} {taken : ℕ → ℕ → Prop}
    (below : ∀ p ∈ l, s.eaddr p < 2 ^ 32) (paged : s.Paged l)
    (page : ∀ p y, taken p y → RangePage s l a n p y) :
    (∀ p y, taken p y → ∃ q z, taken q z ∧ y = (a + s.rangeBit a q z) % 2 ^ 20) ↔
      ∀ p y, taken p y → s.Contains p (a * pageSize) := by
  have contains_iff (p y) (got : taken p y) :
      s.Contains p (a * pageSize) ↔ (s.seg p).base / pageSize ≤ a := by
    have spec := page p y got
    have above := Nat.lt_of_le_of_lt (Nat.mul_le_mul_right pageSize spec.le) spec.has.2
    obtain ⟨b, base_eq⟩ := (paged p spec.mem).1
    have base_eq : (s.seg p).base = pageSize * b := base_eq
    rw [State.Contains, and_iff_left above, base_eq, Nat.mul_comm pageSize,
      Nat.mul_div_cancel _ pageSize_pos]
    exact Nat.mul_le_mul_right_iff pageSize_pos
  have starts (p y) (got : taken p y) : (s.seg p).base / pageSize ≤ y ∧ a ≤ y ∧ y < 2 ^ 20 := by
    have spec := page p y got
    refine ⟨Nat.div_le_of_le_mul ?_, spec.le, spec.has.lt (below p spec.mem)⟩
    rw [Nat.mul_comm]
    exact spec.has.1
  constructor
  · intro found
    -- From the last page down: the page at whose bit one is found does not lie below it.
    have down : ∀ m p y, taken p y → 2 ^ 20 - y ≤ m → s.Contains p (a * pageSize) := by
      intro m
      induction m with
      | zero =>
        intro p y got close
        have page_starts := starts p y got
        omega
      | succ m ih =>
        intro p y got close
        obtain ⟨q, z, got', y_eq⟩ := found p y got
        have page_starts := starts q z got'
        rw [State.rangeBit, Nat.mod_eq_of_lt (by omega)] at y_eq
        by_cases same : z = y
        · subst same
          obtain rfl := held.ordered.contains_unique (page p z got).mem (page q z got').mem
            (page p z got).has (page q z got').has
          rw [contains_iff p z got]
          omega
        · have at_start := ih q z got' (by omega)
          rw [contains_iff q z got'] at at_start
          omega
    exact fun p y got => down _ p y got (Nat.le_refl _)
  · intro start p y got
    have at_start := (contains_iff p y got).1 (start p y got)
    have page_starts := starts p y got
    exact ⟨p, y, got, by rw [State.rangeBit, Nat.mod_eq_of_lt (by omega)]; omega⟩

/-- A call on a range. -/
theorem Held.memcntl_lock (held : Held s l) (paged : s.Paged l)
    (below : ∀ p ∈ l, s.eaddr p < 2 ^ 32) (accepted : c.rejected = none) (is_lock : c.cmd = .lock)
    (addr_lt : c.addr < 2 ^ 32) :
    ∃ err drv' s', memcntl k s c drv = some (err, drv', s') ∧
      (err ≠ 0 → (Undone drv drv' ↔ c.Restores s l (drv.outcome k c.userAttr))) := by
  have aligned := Call.aligned_of_accepted accepted is_lock
  have rlen_aligned := @dvd_roundSize c.addr c.len aligned
  obtain ⟨a, addr_eq⟩ : ∃ a, c.addr = a * pageSize := ⟨_, (Nat.div_mul_cancel aligned).symm⟩
  obtain ⟨n, rlen_eq⟩ : ∃ n, roundSize c.addr c.len = n * pageSize :=
    ⟨_, (Nat.div_mul_cancel rlen_aligned).symm⟩
  have rlen_lt : roundSize c.addr c.len < 2 ^ 32 := Nat.mod_lt _ (by decide)
  have n_lt : n < 2 ^ 20 := by
    rw [rlen_eq] at rlen_lt
    simp only [pageSize] at rlen_lt
    omega
  have fresh : Fresh drv { drv with lockmap := fun _ => false } := ⟨rfl, fun _ => rfl⟩
  obtain ⟨walk, s', ctl, held', same, none_done, done⟩ := @Held.asCtl_spec Drv s l c.addr c.len
    (segvnLock k c.userAttr 0) .lock held aligned addr_lt { drv with lockmap := fun _ => false }
  -- What has been locked, and where the pages are.
  have pieces : ((c.pieces s l).map fun call => call.1.seg).Nodup ∧
      walk.drv = (lockAll k c.userAttr (c.pieces s l) { drv with lockmap := fun _ => false }).2 ∧
      ∀ out p y i, Newly out (c.pieces s l) p y i →
        RangePage s l a n p y ∧ i = s.rangeBit a p y := by
    by_cases hit : 0 < roundSize c.addr c.len ∧ c.addr + roundSize c.addr c.len < 2 ^ 32
    · have pieces_eq : c.pieces s l = (rangePieces s (c.addr + roundSize c.addr c.len)
          (s.above l c.addr) c.addr).map fun piece => (piece, 0) := by
        rw [Call.pieces, is_lock]
        exact if_pos hit
      rw [pieces_eq]
      refine ⟨?_, ?_, fun out p y i got => ?_⟩
      · rw [List.map_map]
        exact (rangePieces_segs.trans (dropWhile_sublist _)).nodup held.ordered.nodup
      · rw [done hit.1 hit.2, ← same.rangePieces]
        exact walkOn_lock
      · rw [rlen_eq, addr_eq] at got
        exact newly_rangePieces held paged got
    · have pieces_eq : c.pieces s l = [] := by
        rw [Call.pieces, is_lock]
        exact if_neg hit
      rw [pieces_eq]
      refine ⟨nodup_nil, none_done ?_, fun _ _ _ _ got => by cases got⟩
      by_contra neither
      rw [not_or, Nat.not_le] at neither
      exact hit ⟨Nat.pos_of_ne_zero neither.1, neither.2⟩
  obtain ⟨distinct, walk_drv, page⟩ := pieces
  have locked := @lockAll_spec k c.userAttr { drv with lockmap := fun _ => false } (c.pieces s l)
    distinct
  rw [← walk_drv, fresh.outcome] at locked
  rw [memcntl, accepted]
  dsimp only
  rw [is_lock]
  dsimp only
  rw [ctl, bind_some, pageMask_of_dvd aligned, rlen_eq, Nat.mul_div_cancel _ pageSize_pos]
  dsimp only
  by_cases failed : walk.res ≠ 0
  · obtain ⟨drv', s'', unlocks, -, -, pages, unlocked, seeks⟩ := @Held.memUnlock s' l c.userAttr
      walk.drv a n 0 (n + 1) held' (same.paged paged) (same.below below) (Nat.zero_le n) n_lt
      (by omega)
    rw [if_pos failed, addr_eq, unlocks]
    refine ⟨walk.res, drv', s'', rfl, fun _ => ?_⟩
    have taken_page (p y) (got : Taken (drv.outcome k c.userAttr) (c.pieces s l) p y) :
        RangePage s l a n p y := by
      obtain ⟨i, got⟩ := exists_newly_iff.2 got
      exact (page _ p y i got).1
    have noted_iff (y : ℕ) :
        (∃ i, 0 ≤ i ∧ i < n ∧ walk.drv.lockmap i = true ∧ y = (a + i) % 2 ^ 20) ↔
          ∃ p z, Taken (drv.outcome k c.userAttr) (c.pieces s l) p z ∧
            y = (a + s.rangeBit a p z) % 2 ^ 20 := by
      constructor
      · rintro ⟨i, -, -, noted, rfl⟩
        obtain ⟨p, z, got⟩ := (fresh.lockmap_iff locked i).1 noted
        exact ⟨p, z, exists_newly_iff.1 ⟨i, got⟩, by rw [(page _ p z i got).2]⟩
      · rintro ⟨p, z, got, rfl⟩
        obtain ⟨i, got⟩ := exists_newly_iff.2 got
        obtain ⟨range, rfl⟩ := page _ p z i got
        have le := range.le
        have lt := range.lt
        refine ⟨_, Nat.zero_le _, ?_, (fresh.lockmap_iff locked _).2 ⟨p, z, got⟩, rfl⟩
        rw [State.rangeBit]
        omega
    have seeks := (same.seeks seeks).congr noted_iff
    rw [Call.Restores, is_lock, ← fresh.undone_iff]
    dsimp only
    rw [addr_eq, ← found_iff held below paged taken_page]
    exact undone_iff held below locked (fun p y got holds => got.fresh (fresh.holds.1 holds))
      (fun p y got => ⟨(taken_page p y got).mem, (taken_page p y got).has⟩) unlocked seeks
  · rw [if_neg failed]
    exact ⟨0, walk.drv, s', rfl, fun error => absurd rfl error⟩

end Memcntl

/-- In every address space that a run leaves behind, whatever pages are locked and whatever the
kernel answers for each page, a `memcntl` that locks pages and fails restores what was locked
exactly if only pages of the segment at the start of the range get locked, or those of an address
space that lie where `mem_unlock` looks for one of them. -/
theorem memcntl_undone_iff (kas : Bool) (thresh : ℕ) (seg : ℕ → Seg) (random : ℕ → ℕ)
    {ops : List Op} (valid_run : ValidRun ∅ ops) (aligned_run : ∀ op ∈ ops, op.Aligned) (k : Kernel)
    (c : Call) (addr_lt : c.addr < 2 ^ 32) (drv : Drv) :
    ∃ results s held l, run (asAlloc kas thresh seg random) ops = some (results, s) ∧
      SpecRun ∅ ops results held ∧ Represents s held l ∧
      ∃ err drv' s', memcntl k s c drv = some (err, drv', s') ∧
        (err ≠ 0 → (Undone drv drv' ↔ (c.rejected = none →
          c.Restores s l (drv.outcome k c.userAttr)))) := by
  have empty : (asAlloc kas thresh seg random).areas [] = ∅ := by
    refine Set.eq_empty_of_forall_notMem ?_
    rintro _ ⟨q, q_mem, -⟩
    exact nomatch q_mem
  obtain ⟨results, s, l, runs, spec, held⟩ :=
    (held_asAlloc kas thresh seg random).run (show ValidRun _ ops by rwa [empty])
  rw [empty] at spec
  have below : ∀ p ∈ l, s.eaddr p < 2 ^ 32 := fun p p_mem =>
    spec.bounded valid_run (fun _ impossible => impossible.elim) (s.area p) ⟨p, p_mem, rfl⟩
  have paged : s.Paged l := fun p p_mem =>
    spec.aligned aligned_run (fun _ impossible => impossible.elim) (s.area p) ⟨p, p_mem, rfl⟩
  refine ⟨results, s, s.areas l, l, runs, spec, held.represents, ?_⟩
  cases rejected : c.rejected with
  | some err =>
    refine ⟨err, drv, s, ?_, fun _ => iff_of_true (fun _ _ => Iff.rfl) nofun⟩
    rw [memcntl, rejected]
  | none =>
    obtain ⟨err, drv', s', eq, undone⟩ : ∃ err drv' s', memcntl k s c drv = some (err, drv', s') ∧
        (err ≠ 0 → (Undone drv drv' ↔
          c.Restores s l (drv.outcome k c.userAttr))) := by
      cases cmd : c.cmd with
      | lock => exact held.memcntl_lock paged below rejected cmd addr_lt
      | lockas => exact held.memcntl_lockas paged below rejected cmd
    exact ⟨err, drv', s', eq, fun failed => (undone failed).trans
      ⟨fun restores _ => restores, fun restores => restores rfl⟩⟩

/-- Segments of files, no page of which is locked. -/
def noneLocked : Drv := ⟨fun _ => ⟨true, 0, false, none, true, false, none⟩, fun _ => false, false⟩

/-- A kernel that has all pages in memory and cannot lock page 4. -/
def refusing : Kernel :=
  ⟨fun _ _ => true, fun _ _ => true, fun _ _ => true, fun _ _ => true, fun _ x => x ≠ 4⟩

/-- One segment of pages 3 and 4, the last of which cannot be locked: either command unlocks page 3
again. -/
theorem memcntl_undone_iff_pages :
    ∃ results s, run (asAlloc false 1 (fun _ => ⟨0, 0, none, none⟩) fun _ => 0)
        [.addseg 1 12288 8192] = some (results, s) ∧
      (∃ drv' s', memcntl refusing s ⟨12288, 8192, .lock, 0, 0, 0, true, true⟩ noneLocked =
          some (eagain, drv', s') ∧ Undone noneLocked drv') ∧
      ∃ drv' s', memcntl refusing s ⟨0, 0, .lockas, 1, 0, 0, true, true⟩ noneLocked =
          some (eagain, drv', s') ∧ Undone noneLocked drv' := by
  have runs : ∃ results s, run (asAlloc false 1 (fun _ => ⟨0, 0, none, none⟩) fun _ => 0)
      [.addseg 1 12288 8192] = some (results, s) := by
    refine isSome_iff_exists.1 ?_ |>.imp' Prod.fst fun result eq => ⟨result.2, eq⟩
    decide +kernel
  obtain ⟨results, s, run_eq⟩ := runs
  have valid_run : ValidRun ∅ [.addseg 1 12288 8192] :=
    ⟨⟨fun _ impossible => impossible.elim, by decide, by decide⟩, fun _ _ _ => trivial⟩
  have aligned_run : ∀ op ∈ [Op.addseg 1 12288 8192], op.Aligned := fun op op_mem => by
    obtain rfl := mem_singleton.1 op_mem
    exact ⟨by decide, by decide⟩
  have undoes (c : Call) (addr_lt : c.addr < 2 ^ 32)
      (error : ((run (asAlloc false 1 (fun _ => ⟨0, 0, none, none⟩) fun _ => 0)
          [.addseg 1 12288 8192]).bind fun result =>
        (memcntl refusing result.2 c noneLocked).map Prod.fst) = some eagain)
      (restores : ∀ l, Ordered s l → (∀ p ∈ l, s.area p = ⟨1, 12288, 8192⟩) →
        c.Restores s l (noneLocked.outcome refusing c.userAttr)) :
      ∃ drv' s', memcntl refusing s c noneLocked = some (eagain, drv', s') ∧
        Undone noneLocked drv' := by
    obtain ⟨results', s', held, l, run_eq', spec, represents, err, drv', s'', eq, undone⟩ :=
      memcntl_undone_iff false 1 (fun _ => ⟨0, 0, none, none⟩) (fun _ => 0) valid_run aligned_run
        refusing c addr_lt noneLocked
    cases run_eq.symm.trans run_eq'
    rw [run_eq, bind_some, eq] at error
    cases error
    refine ⟨drv', s'', eq, (undone (by decide)).2 fun _ => restores l represents.ordered ?_⟩
    intro p p_mem
    have in_held := (represents.mem _).2 ⟨p, p_mem, rfl⟩
    cases spec with
    | cons first rest =>
      cases rest
      cases first with
      | added _ => exact in_held.resolve_right not_false
      | refused impossible _ => exact impossible.elim
  refine ⟨results, s, run_eq, undoes _ (by decide) (by decide +kernel) fun l _ only p y got => ?_,
    undoes _ (by decide) (by decide +kernel) fun l ordered only => ?_⟩
  · obtain ⟨i, newly⟩ := exists_newly_iff.2 got
    obtain ⟨call, mem, rfl, -⟩ := newly.mem
    obtain ⟨piece, piece_mem, rfl⟩ := List.mem_map.1 mem
    have area_eq := only piece.seg ((dropWhile_sublist _).subset
      (rangePieces_segs.subset (List.mem_map_of_mem piece_mem)))
    have base_eq : (s.seg piece.seg).base = 12288 := congrArg Area.base area_eq
    have eaddr_eq : s.eaddr piece.seg = 20480 := congrArg Area.eaddr area_eq
    rw [State.Contains, base_eq, eaddr_eq]
    decide
  · have paged : s.Paged l := fun p p_mem => by
      rw [only p p_mem]
      exact ⟨by decide, by decide⟩
    have first (p) (p_mem : p ∈ l) : s.pagesBefore l p = 0 := by
      have is_one (q) (q_mem : q ∈ l) : q = 1 := congrArg Area.p (only q q_mem)
      cases l with
      | nil => rfl
      | cons q l =>
        rw [State.pagesBefore, is_one p p_mem, is_one q mem_cons_self, takeWhile_cons_of_neg]
        · rfl
        · decide
    refine (Call.restores_lockas_iff ordered paged rfl fun p y got => ?_).2 fun p y got =>
      first p (taken_asPieces paged rfl got).1
    obtain ⟨p_mem, has⟩ := taken_asPieces paged rfl got
    have eaddr_eq : s.eaddr p = 20480 := congrArg Area.eaddr (only p p_mem)
    rw [first p p_mem]
    exact has.lt (by rw [eaddr_eq]; decide)

/-- A segment of page 2 and one of pages 3 and 4, the last of which cannot be locked: with either
command page 3 stays locked. -/
theorem not_memcntl_undone :
    ∃ results s, run (asAlloc false 225 (fun _ => ⟨0, 0, none, none⟩) fun _ => 0)
        [.addseg 1 8192 4096, .addseg 2 12288 8192] = some (results, s) ∧
      (∃ err drv' s', memcntl refusing s ⟨8192, 12288, .lock, 0, 0, 0, true, true⟩ noneLocked =
          some (err, drv', s') ∧ err = eagain ∧ ¬ Undone noneLocked drv') ∧
      ∃ err drv' s', memcntl refusing s ⟨0, 0, .lockas, 1, 0, 0, true, true⟩ noneLocked =
          some (err, drv', s') ∧ err = eagain ∧ ¬ Undone noneLocked drv' := by
  have runs : ∃ results s, run (asAlloc false 225 (fun _ => ⟨0, 0, none, none⟩) fun _ => 0)
      [.addseg 1 8192 4096, .addseg 2 12288 8192] = some (results, s) := by
    refine isSome_iff_exists.1 ?_ |>.imp' Prod.fst fun result eq => ⟨result.2, eq⟩
    decide +kernel
  -- The error of a call, and whether page 3 is locked behind it.
  have locked : ∀ c : Call,
      ((run (asAlloc false 225 (fun _ => ⟨0, 0, none, none⟩) fun _ => 0)
          [.addseg 1 8192 4096, .addseg 2 12288 8192]).bind fun result =>
        (memcntl refusing result.2 c noneLocked).map fun answer =>
          (answer.1, ((answer.2.1.svd 2).page 3).pplock)) = some (eagain, true) →
      ∀ {results s}, run (asAlloc false 225 (fun _ => ⟨0, 0, none, none⟩) fun _ => 0)
        [.addseg 1 8192 4096, .addseg 2 12288 8192] = some (results, s) →
      ∃ err drv' s', memcntl refusing s c noneLocked = some (err, drv', s') ∧ err = eagain ∧
        ¬ Undone noneLocked drv' := by
    intro c eq results s run_eq
    rw [run_eq, bind_some] at eq
    obtain ⟨⟨err, drv', s'⟩, answers, eq⟩ := map_eq_some_iff.1 eq
    obtain ⟨err_eq, holds⟩ := Prod.mk.inj eq
    exact ⟨err, drv', s', answers, err_eq, fun undone => Bool.false_ne_true ((undone 2 3).1 holds)⟩
  obtain ⟨results, s, run_eq⟩ := runs
  exact ⟨results, s, run_eq, locked _ (by decide +kernel) run_eq,
    locked _ (by decide +kernel) run_eq⟩

end Sol25.Seglist
