import Sol25.Seglist.Range

/-!
# What operations on ranges do to address spaces

Each of the six functions calls the driver on pieces that lie in their segments and cover the range,
unless the range is so long that its rounded size does not fit in 32 bits; `as_fault` also needs
that the range does not wrap around.
-/

namespace Sol25.Seglist

open List Option Nat

/-- The size of a range in whole pages, without a bound. -/
def roundUp (size : ℕ) : ℕ := (size + (pageSize - 1)) / pageSize * pageSize

def InPages (addr size x : ℕ) : Prop := ∃ y, addr ≤ y ∧ y < addr + size ∧ pageMask y = pageMask x

def State.Contains (s : State) (p x : ℕ) : Prop := (s.seg p).base ≤ x ∧ x < s.eaddr p

instance (s : State) (p x : ℕ) : Decidable (s.Contains p x) := inferInstanceAs (Decidable (_ ∧ _))

section Rounding

variable {addr size x : ℕ}

theorem pageSize_pos : 0 < pageSize := by decide

theorem pageMask_of_dvd (aligned : pageSize ∣ addr) : pageMask addr = addr :=
  Nat.div_mul_cancel aligned

/-- The size in 32 bits: a range of the last page less than everything is left out. -/
theorem roundSize_eq (aligned : pageSize ∣ addr) (addr_lt : addr < 2 ^ 32)
    (size_lt : size < 2 ^ 32) :
    roundSize addr size = if size ≤ 2 ^ 32 - pageSize then roundUp size else 0 := by
  obtain ⟨k, rfl⟩ := aligned
  by_cases short : size ≤ 2 ^ 32 - pageSize
  · rw [if_pos short]
    simp only [roundSize, roundUp, pageMask, pageSize] at addr_lt short ⊢
    omega
  · rw [if_neg short]
    simp only [roundSize, pageMask, pageSize] at addr_lt short ⊢
    omega

theorem roundUp_bounds (size : ℕ) : size ≤ roundUp size ∧ roundUp size < size + pageSize := by
  simp only [roundUp, pageSize]
  omega

theorem inPages_iff (aligned : pageSize ∣ addr) (positive : 0 < size) :
    InPages addr size x ↔ addr ≤ x ∧ x < addr + roundUp size := by
  obtain ⟨k, rfl⟩ := aligned
  simp only [InPages, roundUp, pageMask, pageSize]
  constructor
  · rintro ⟨y, le, lt, same⟩
    omega
  · rintro ⟨le, lt⟩
    by_cases early : x < 4096 * k + size
    · exact ⟨x, le, early, rfl⟩
    · exact ⟨4096 * k + size - 1, by omega, by omega, by omega⟩

end Rounding

/-- What an operation on a range has to do. -/
structure RangeLaw {σ : Type} (s : State) (l : List ℕ) (addr size : ℕ) (walk : Walk σ) : Prop where
  inside : ∀ piece ∈ walk.pieces, Inside s l piece
  rising : walk.pieces.Pairwise fun piece piece' => piece.addr + piece.size ≤ piece'.addr
  covers : walk.res = 0 → ∀ x, Covers walk.pieces x ↔ InPages addr size x
  hole : ∀ x, addr ≤ x → x < addr + size → (∀ p ∈ l, ¬ s.Contains p x) → walk.res ≠ 0

section Laws

variable {σ : Type} {s s' : State} {l : List ℕ} {addr size : ℕ} {walk : Walk σ} {op : SegOp σ}
  {drv : σ}

/-- A walk over the pages of a range does what it has to do. -/
theorem Walked.law (aligned : pageSize ∣ addr) (positive : 0 < size)
    (walked : Walked s l addr (addr + roundUp size) walk) : RangeLaw s l addr size walk := by
  obtain ⟨e, tiles⟩ := walked.tiles
  have covers : walk.res = 0 → ∀ x, Covers walk.pieces x ↔ InPages addr size x := by
    intro no_error x
    obtain ⟨all, ends⟩ := walked.all_done no_error
    have done := walked.done
    rw [all, ends] at done
    rw [inPages_iff aligned positive]
    exact done.covers_iff x
  refine ⟨walked.inside, tiles.pairwise, covers, fun x le lt unmapped no_error => ?_⟩
  obtain ⟨piece, mem, piece_le, lt_piece⟩ := (covers no_error x).2 ⟨x, le, lt, rfl⟩
  obtain ⟨seg_mem, base_le, le_eaddr⟩ := walked.inside piece mem
  exact unmapped piece.seg seg_mem
    ⟨Nat.le_trans base_le piece_le, Nat.lt_of_lt_of_le lt_piece le_eaddr⟩

theorem not_law_of_nothing (positive : 0 < size) {stop : ℕ} :
    ¬ RangeLaw s l addr size (⟨0, [], stop, drv⟩ : Walk σ) := by
  intro law
  obtain ⟨piece, none_here, -⟩ :=
    (law.covers rfl addr).2 ⟨addr, Nat.le_refl _, Nat.lt_add_of_pos_right positive, rfl⟩
  exact nomatch none_here

theorem SameAreas.contains (same : SameAreas s s') (p x : ℕ) :
    s'.Contains p x ↔ s.Contains p x := by
  rw [State.Contains, State.Contains, same.eaddr, (same p).1]

theorem SameAreas.law (same : SameAreas s s') (law : RangeLaw s' l addr size walk) :
    RangeLaw s l addr size walk := by
  refine ⟨fun piece mem => ?_, law.rising, law.covers, fun x le lt unmapped => ?_⟩
  · have inside := law.inside piece mem
    rwa [Inside, same.eaddr, (same _).1] at inside
  · exact law.hole x le lt fun p p_mem => fun contains =>
      unmapped p p_mem ((same.contains p x).1 contains)

theorem Ordered.contains_unique (ordered : Ordered s l) {p q x : ℕ} (p_mem : p ∈ l) (q_mem : q ∈ l)
    (p_contains : s.Contains p x) (q_contains : s.Contains q x) : p = q := by
  by_contra differ
  obtain ⟨front, back, rfl⟩ := append_of_mem p_mem
  obtain ⟨-, back_order, apart⟩ := pairwise_append.1 ordered.order
  obtain ⟨p_le, lt_p⟩ := p_contains
  obtain ⟨q_le, lt_q⟩ := q_contains
  rcases mem_append.1 q_mem with early | late
  · have before := apart q early p mem_cons_self
    omega
  · have behind := (pairwise_cons.1 back_order).1 q
      ((mem_cons.1 late).resolve_left fun same => differ same.symm)
    omega

/-- `as_segat` finds the segment that contains an address. -/
theorem Held.asSegat (held : Held s l) (addr : ℕ) :
    ∃ seg s', asSegat s addr = some (seg, s') ∧ Held s' l ∧ SameAreas s s' ∧
      ∀ p, seg = some p ↔ p ∈ l ∧ s.Contains p addr := by
  obtain ⟨front, back, s', rfl, splits, finds, held', same⟩ := held.asFindseg addr false
  have is_found : found (front ++ back) back false = back.head? := by
    rw [found]
    exact if_neg Bool.false_ne_true
  refine ⟨back.head?.filter fun seg => s'.Contains seg addr, s', ?_, held', same, fun p => ?_⟩
  · rw [Seglist.asSegat, finds, is_found]
    rfl
  rw [filter_eq_some_iff, decide_eq_true_eq, same.contains]
  refine and_congr_left fun contains => ⟨fun is_head => ?_, fun mem => ?_⟩
  · exact mem_append_right front (mem_of_head? is_head)
  · rcases mem_append.1 mem with early | late
    · exact absurd contains.2 (Nat.not_lt.2 (splits.below p early))
    obtain ⟨b, back, rfl⟩ := exists_cons_of_ne_nil (ne_nil_of_mem late)
    rcases mem_cons.1 late with rfl | behind
    · rfl
    · have order := (pairwise_append.1 held.ordered.order).2.1
      have apart := (pairwise_cons.1 order).1 p behind
      have b_above := splits.above b mem_cons_self
      exact absurd contains.1 (Nat.not_le.2 (Nat.lt_of_lt_of_le b_above apart))

/-- The operation does what it has to do, whatever it leaves the address space like. -/
def Lawful (s : State) (l : List ℕ) (addr size : ℕ) (result : Option (Walk σ × State)) : Prop :=
  ∃ walk s', result = some (walk, s') ∧ RangeLaw s l addr size walk

theorem lawful_iff {result : Option (Walk σ × State)} (eq : result = some (walk, s')) :
    Lawful s l addr size result ↔ RangeLaw s l addr size walk := by
  constructor
  · rintro ⟨walk', s'', eq', law⟩
    obtain ⟨rfl, rfl⟩ := Prod.mk.inj (some.inj (eq'.symm.trans eq))
    exact law
  · exact fun law => ⟨walk, s', eq, law⟩

/-- The loop from the segment that contains the start of the range. -/
theorem Held.rangeLoop_walked {front back : List ℕ} {p : ℕ} {nomap : ℤ}
    (held : Held s (front ++ p :: back)) (contains : s.Contains p addr) (positive : 0 < size)
    (range : addr + roundUp size < 2 ^ 32) (nomap_ne : nomap ≠ 0) :
    ∃ walk, rangeLoop s op nomap (s.nsegs + 1) p addr (roundUp size) drv = some walk ∧
      Walked s (front ++ p :: back) addr (addr + roundUp size) walk ∧
      unlockLoop s walk.stop (s.nsegs + 1) p addr = some walk.done := by
  obtain ⟨-, ordered, chain, nsegs⟩ := held.represents
  have le_roundUp := (roundUp_bounds size).1
  have some_left : addr < addr + roundUp size := by omega
  have enough : s.nsegs + 1 = front.length + back.length + 2 := by
    rw [nsegs, length_append, length_cons]
    omega
  have back_ordered : Ordered s (p :: back) := ordered.sublist (sublist_append_right ..)
  have from_here : ∀ q ∈ p :: back, addr < s.eaddr q := by
    intro q q_mem
    rcases mem_cons.1 q_mem with rfl | q_mem
    · exact contains.2
    · have behind := (pairwise_cons.1 back_ordered.order).1 q q_mem
      have q_lt := base_lt_eaddr back_ordered (mem_cons_of_mem p q_mem)
      have p_lt := contains.2
      omega
  have size_eq : addr + roundUp size - addr = roundUp size := Nat.add_sub_cancel_left ..
  refine ⟨walkOn s op nomap (addr + roundUp size) (p :: back) addr drv, ?_, ?_, ?_⟩
  · have loops := @rangeLoop_eq σ s front back op nomap front.length p addr
      (addr + roundUp size) drv
      chain ordered contains.1 contains.2 some_left range
    rwa [size_eq, ← enough] at loops
  · exact walkOn_walked back_ordered (fun q q_mem => mem_append_right front q_mem) from_here
      some_left nomap_ne
  · rw [enough]
    exact unlockLoop_eq chain ordered contains.1 contains.2 some_left nomap_ne

/-- A range that is checked for wraparound. -/
theorem Held.checkedWalk_lawful_iff {wrapped unmapped : ℤ} (held : Held s l)
    (aligned : pageSize ∣ addr) (addr_lt : addr < 2 ^ 32) (positive : 0 < size)
    (size_lt : size < 2 ^ 32) (wrapped_ne : wrapped ≠ 0) (unmapped_ne : unmapped ≠ 0) :
    Lawful s l addr size (checkedWalk s addr size op wrapped unmapped drv) ↔
      ((∃ p ∈ l, s.Contains p addr) → size ≤ 2 ^ 32 - pageSize) := by
  rw [checkedWalk, pageMask_of_dvd aligned, roundSize_eq aligned addr_lt size_lt]
  have bounds := roundUp_bounds size
  obtain ⟨seg, s', segat, held', same, found_iff⟩ := held.asSegat addr
  by_cases short : size ≤ 2 ^ 32 - pageSize
  · rw [if_pos short]
    refine iff_of_true ?_ fun _ => short
    by_cases wraps : (addr + roundUp size) % 2 ^ 32 < addr
    · rw [if_pos wraps]
      exact (lawful_iff rfl).2 ((Walked.stopped (by omega) wrapped_ne).law aligned positive)
    have range : addr + roundUp size < 2 ^ 32 := by
      simp only [pageSize] at short bounds
      omega
    rw [if_neg wraps, segat, bind_some]
    cases seg with
    | none =>
      exact (lawful_iff rfl).2 ((Walked.stopped (by omega) unmapped_ne).law aligned positive)
    | some p =>
      obtain ⟨p_mem, p_contains⟩ := (found_iff p).1 rfl
      obtain ⟨front, back, rfl⟩ := append_of_mem p_mem
      obtain ⟨walk, loops, walked, -⟩ := @Held.rangeLoop_walked σ s' addr size op drv front back p
        unmapped held' ((same.contains p addr).2 p_contains) positive range unmapped_ne
      exact (lawful_iff (congrArg (Option.map fun walk => (walk, s')) loops)).2
        (same.law (walked.law aligned positive))
  · have no_wrap : ¬ (addr + 0) % 2 ^ 32 < addr := by
      rw [Nat.add_zero, mod_eq_of_lt addr_lt]
      exact Nat.lt_irrefl addr
    rw [if_neg short, if_neg no_wrap, segat, bind_some]
    cases seg with
    | none =>
      refine iff_of_true ?_ fun some_segment => ?_
      · exact (lawful_iff rfl).2
          ((Walked.stopped (Nat.le_add_right ..) unmapped_ne).law aligned positive)
      · obtain ⟨p, p_mem, p_contains⟩ := some_segment
        exact nomatch (found_iff p).2 ⟨p_mem, p_contains⟩
    | some p =>
      obtain ⟨p_mem, p_contains⟩ := (found_iff p).1 rfl
      refine iff_of_false ?_ fun would => ?_
      · exact fun lawful => not_law_of_nothing positive ((lawful_iff
          (congrArg (Option.map fun walk => (walk, s')) rangeLoop_done)).1 lawful)
      · exact short (would ⟨p, p_mem, p_contains⟩)

/-! ### Page by page -/

theorem faultaLoop_done {fuel p raddr : ℕ} :
    faultaLoop s addr op (fuel + 1) p raddr 0 drv = some ⟨0, [], raddr, drv⟩ := if_pos rfl

/-- The pages of a range in one segment; the next segment begins behind the address of the range,
and is never taken. -/
theorem faultaLoop_walked {front back : List ℕ} {p raddr : ℕ}
    (chain : s.chain.Holds (front ++ p :: back)) (ordered : Ordered s (front ++ p :: back))
    (below : s.eaddr p < 2 ^ 32) (ends : pageSize ∣ s.eaddr p) (start : addr < s.eaddr p)
    (aligned : pageSize ∣ raddr) (base_le : (s.seg p).base ≤ raddr) (le : raddr ≤ s.eaddr p)
    (n : ℕ) :
    ∃ walk, faultaLoop s addr op (n + 1) p raddr (n * pageSize) drv = some walk ∧
      Walked s (front ++ p :: back) raddr (raddr + n * pageSize) walk := by
  induction n generalizing raddr drv with
  | zero =>
    refine ⟨⟨0, [], raddr, drv⟩, ?_, fun _ none_here => (nomatch none_here), ⟨raddr, rfl⟩, rfl,
      Nat.le_add_right .., fun _ => ⟨rfl, ?_⟩⟩
    · rw [Nat.zero_mul, faultaLoop_done]
    · rw [Nat.zero_mul, Nat.add_zero]
  | succ n ih =>
    have some_left : (n + 1) * pageSize ≠ 0 := by simp [pageSize]
    rw [faultaLoop, if_neg some_left]
    by_cases past : s.eaddr p ≤ raddr
    · have none_here : (s.segp (s.seg p).next (some p)).filter
          (fun seg => decide (addr = (s.seg seg).base)) = none := by
        have next : s.segp (s.seg p).next (some p) = back.head? := chain.neighbours.2
        rw [next]
        cases back with
        | nil => rfl
        | cons q back =>
          have behind := (pairwise_cons.1 (pairwise_append.1 ordered.order).2.1).1 q
            mem_cons_self
          refine if_neg fun eq => ?_
          have same : addr = (s.seg q).base := of_decide_eq_true eq
          omega
      rw [if_pos past, none_here]
      exact ⟨_, rfl, Walked.stopped (Nat.le_add_right ..) (by decide)⟩
    · have inside : raddr + pageSize ≤ s.eaddr p := by
        obtain ⟨k, rfl⟩ := aligned
        obtain ⟨m, eaddr_eq⟩ := ends
        simp only [pageSize] at eaddr_eq past ⊢
        omega
      have here : Inside s (front ++ p :: back) ⟨p, raddr, pageSize⟩ := ⟨by simp, base_le, inside⟩
      have no_wrap : (raddr + pageSize) % 2 ^ 32 = raddr + pageSize := mod_eq_of_lt (by omega)
      have left_eq : (n + 1) * pageSize - pageSize = n * pageSize := by
        rw [succ_mul, Nat.add_sub_cancel]
      have last_eq : raddr + (n + 1) * pageSize = raddr + pageSize + n * pageSize := by
        rw [succ_mul, Nat.add_comm (n * pageSize), Nat.add_assoc]
      rw [if_neg past]
      dsimp only
      rw [no_wrap, left_eq, last_eq]
      obtain ⟨res, drv⟩ := op ⟨p, raddr, pageSize⟩ drv
      dsimp only
      by_cases failed : res ≠ 0
      · rw [if_pos failed]
        exact ⟨_, rfl, Walked.failed here rfl pageSize_pos
          (Nat.le_trans (Nat.le_add_right ..) (Nat.le_add_right ..)) failed⟩
      obtain rfl : res = 0 := not_not.1 failed
      obtain ⟨walk, loops, walked⟩ := @ih drv (raddr + pageSize)
        ((Nat.dvd_add_right aligned).2 (Nat.dvd_refl pageSize)) (by omega) inside
      rw [if_neg failed, loops]
      exact ⟨_, rfl, Walked.cons here rfl pageSize_pos walked⟩

/-- `as_faulta` -/
theorem Held.asFaulta_lawful_iff (held : Held s l) (below : ∀ p ∈ l, s.eaddr p < 2 ^ 32)
    (ends : ∀ p ∈ l, pageSize ∣ s.eaddr p) (aligned : pageSize ∣ addr) (addr_lt : addr < 2 ^ 32)
    (positive : 0 < size) (size_lt : size < 2 ^ 32) :
    Lawful s l addr size (asFaulta s addr size op drv) ↔
      ((∃ p ∈ l, s.Contains p addr) → size ≤ 2 ^ 32 - pageSize) := by
  rw [asFaulta, pageMask_of_dvd aligned, roundSize_eq aligned addr_lt size_lt]
  obtain ⟨seg, s', segat, held', same, found_iff⟩ := held.asSegat addr
  rw [segat, bind_some]
  cases seg with
  | none =>
    refine iff_of_true ?_ fun some_segment => ?_
    · exact (lawful_iff rfl).2
        ((Walked.stopped (Nat.le_add_right ..) (by decide)).law aligned positive)
    · obtain ⟨p, p_mem, p_contains⟩ := some_segment
      exact nomatch (found_iff p).2 ⟨p_mem, p_contains⟩
  | some p =>
    obtain ⟨p_mem, p_contains⟩ := (found_iff p).1 rfl
    obtain ⟨front, back, rfl⟩ := append_of_mem p_mem
    obtain ⟨-, ordered, chain, -⟩ := held'.represents
    by_cases short : size ≤ 2 ^ 32 - pageSize
    · have pages : roundUp size / pageSize = (size + (pageSize - 1)) / pageSize :=
        Nat.mul_div_cancel _ (by decide)
      have p_contains' := (same.contains p addr).2 p_contains
      obtain ⟨walk, loops, walked⟩ := @faultaLoop_walked σ s' addr op drv front back p addr chain
        ordered (by rw [same.eaddr]; exact below p p_mem) (by rw [same.eaddr]; exact ends p p_mem)
        p_contains'.2 aligned p_contains'.1 (Nat.le_of_lt p_contains'.2)
        ((size + (pageSize - 1)) / pageSize)
      rw [if_pos short, pages]
      refine iff_of_true ?_ fun _ => short
      exact (lawful_iff (congrArg (Option.map fun walk => (walk, s')) loops)).2
        (same.law (walked.law aligned positive))
    · rw [if_neg short]
      refine iff_of_false ?_ fun would => short (would ⟨p, p_mem, p_contains⟩)
      exact fun lawful => not_law_of_nothing positive ((lawful_iff
        (congrArg (Option.map fun walk => (walk, s')) faultaLoop_done)).1 lawful)

/-! ### Faults -/

/-- `as_fault` takes `segkmap` for the segment of the address. -/
def Bypass (s : State) (segkmap : Option ℕ) (addr size k : ℕ) : Prop :=
  s.kas = true ∧ segkmap = some k ∧ (s.seg k).base ≤ addr ∧ (addr + size) % 2 ^ 32 < s.eaddr k

/-- The segment that `as_fault` begins with. -/
def Begins (s : State) (l : List ℕ) (segkmap : Option ℕ) (addr size p : ℕ) : Prop :=
  Bypass s segkmap addr size p ∨ (∀ k, ¬ Bypass s segkmap addr size k) ∧ p ∈ l ∧ s.Contains p addr

/-- `as_fault` does what it has to do, and has unlocked what it had locked if it fails. -/
def FaultLawful (s : State) (l : List ℕ) (addr size : ℕ) (softlock : Bool)
    (result : Option (Walk σ × List Piece × State)) : Prop :=
  ∃ walk unlocked s', result = some (walk, unlocked, s') ∧ RangeLaw s l addr size walk ∧
    (walk.res ≠ 0 → softlock = true → unlocked = walk.done)

theorem faultLawful_iff {result : Option (Walk σ × List Piece × State)} {softlock : Bool}
    {unlocked : List Piece} (eq : result = some (walk, unlocked, s')) :
    FaultLawful s l addr size softlock result ↔
      RangeLaw s l addr size walk ∧ (walk.res ≠ 0 → softlock = true → unlocked = walk.done) := by
  constructor
  · rintro ⟨walk', unlocked', s'', eq', law⟩
    cases eq'.symm.trans eq
    exact law
  · exact fun ⟨law, undone⟩ => ⟨walk, unlocked, s', eq, law, undone⟩

variable {segkmap : Option ℕ} {softlock : Bool} {fault : SegOp σ}

theorem Held.faultSeg (held : Held s l) :
    ∃ seg s', faultSeg s segkmap addr size = some (seg, s') ∧ Held s' l ∧ SameAreas s s' ∧
      ∀ p, seg = some p ↔ Begins s l segkmap addr size p := by
  obtain ⟨seg, s', segat, held', same, found_iff⟩ := held.asSegat addr
  by_cases bypass : ∃ k, Bypass s segkmap addr size k
  · obtain ⟨k, kas, rfl, within⟩ := bypass
    refine ⟨some k, s, ?_, held, fun _ => ⟨rfl, rfl⟩, fun p => ⟨?_, ?_⟩⟩
    · rw [Seglist.faultSeg, if_pos kas]
      exact if_pos within
    · rintro ⟨⟩
      exact .inl ⟨kas, rfl, within⟩
    · rintro (⟨-, is_k, -⟩ | ⟨no_bypass, -⟩)
      · exact is_k
      · exact absurd ⟨kas, rfl, within⟩ (no_bypass k)
  · have no_bypass := not_exists.1 bypass
    refine ⟨seg, s', ?_, held', same, fun p => ?_⟩
    · rw [Seglist.faultSeg]
      by_cases kas : s.kas = true
      · rw [if_pos kas]
        cases segkmap with
        | none => exact segat
        | some k =>
          dsimp only
          rw [if_neg fun within => no_bypass k ⟨kas, rfl, within⟩]
          exact segat
      · rw [if_neg kas]
        exact segat
    · rw [found_iff, Begins]
      constructor
      · exact fun here => .inr ⟨no_bypass, here⟩
      · rintro (is_bypass | ⟨-, here⟩)
        · exact absurd is_bypass (no_bypass p)
        · exact here

theorem wrapped_le {raddr rsize : ℕ} (rsize_lt : rsize < 2 ^ 32) (wraps : 2 ^ 32 ≤ raddr + rsize) :
    (raddr + rsize) % 2 ^ 32 ≤ raddr := by
  rw [mod_eq_sub_mod wraps]
  exact Nat.le_trans (mod_le ..) (by omega)

/-- A range that wraps around is handed to the driver as one piece. -/
theorem rangeLoop_wraps {fuel p raddr rsize : ℕ} {nomap : ℤ} (inside : raddr < s.eaddr p)
    (below : s.eaddr p < 2 ^ 32) (rsize_lt : rsize < 2 ^ 32) (wraps : 2 ^ 32 ≤ raddr + rsize)
    (loops : rangeLoop s op nomap (fuel + 1) p raddr rsize drv = some walk) :
    ⟨p, raddr, rsize⟩ ∈ walk.pieces := by
  have whole : ¬ s.eaddr p < (raddr + rsize) % 2 ^ 32 :=
    Nat.not_lt.2 (Nat.le_trans (wrapped_le rsize_lt wraps) (Nat.le_of_lt inside))
  have some_left : rsize ≠ 0 := by omega
  rw [rangeLoop, if_neg some_left, if_neg (Nat.not_le.2 inside)] at loops
  dsimp only at loops
  rw [if_neg whole] at loops
  revert loops
  obtain ⟨res, drv⟩ := op ⟨p, raddr, rsize⟩ drv
  dsimp only
  by_cases failed : res ≠ 0
  · rw [if_pos failed]
    intro loops
    rw [← some.inj loops]
    exact mem_singleton_self _
  · rw [if_neg failed]
    intro loops
    obtain ⟨rest, -, rfl⟩ := map_eq_some_iff.1 loops
    exact mem_cons_self

/-- The loop of `as_fault` with what it unlocks. -/
def faultFrom (s : State) (seg raddr rsize : ℕ) (softlock : Bool) (fault : SegOp σ) (drv : σ) :
    Option (Walk σ × List Piece × State) :=
  (rangeLoop s fault fcNomap (s.nsegs + 1) seg raddr rsize drv).bind fun walk =>
    if walk.res ≠ 0 ∧ softlock then
      (unlockLoop s walk.stop (s.nsegs + 1) seg raddr).map fun unlocked => (walk, unlocked, s)
    else some (walk, [], s)

theorem asFault_eq (aligned : pageSize ∣ addr) {p : ℕ}
    (begins : Seglist.faultSeg s segkmap addr size = some (some p, s')) :
    asFault s segkmap addr size softlock fault drv =
      faultFrom s' p addr (roundSize addr size) softlock fault drv := by
  rw [asFault, pageMask_of_dvd aligned, begins, bind_some, faultFrom]

theorem faultFrom_lawful {p rsize : ℕ} (positive : 0 < size) (aligned : pageSize ∣ addr)
    (loops : rangeLoop s fault fcNomap (s.nsegs + 1) p addr rsize drv = some walk)
    (walked : Walked s l addr (addr + roundUp size) walk)
    (unlocks : unlockLoop s walk.stop (s.nsegs + 1) p addr = some walk.done) :
    FaultLawful s l addr size softlock (faultFrom s p addr rsize softlock fault drv) := by
  have law := walked.law aligned positive
  rw [faultFrom, loops, bind_some, unlocks]
  by_cases undone : walk.res ≠ 0 ∧ softlock = true
  · rw [if_pos undone]
    exact (faultLawful_iff rfl).2 ⟨law, fun _ _ => rfl⟩
  · rw [if_neg undone]
    exact (faultLawful_iff rfl).2 ⟨law, fun failed locks => absurd ⟨failed, locks⟩ undone⟩

theorem not_faultFrom_lawful {p rsize : ℕ}
    (unlawful : ∀ walk, rangeLoop s fault fcNomap (s.nsegs + 1) p addr rsize drv = some walk →
      ¬ RangeLaw s l addr size walk) :
    ¬ FaultLawful s l addr size softlock (faultFrom s p addr rsize softlock fault drv) := by
  rintro ⟨walk, unlocked, s', eq, law, -⟩
  obtain ⟨walk', loops, eq⟩ := bind_eq_some_iff.1 eq
  have same : walk' = walk := by
    by_cases undone : walk'.res ≠ 0 ∧ softlock = true
    · rw [if_pos undone] at eq
      obtain ⟨_, -, eq⟩ := map_eq_some_iff.1 eq
      exact (Prod.mk.inj eq).1
    · rw [if_neg undone] at eq
      exact (Prod.mk.inj (some.inj eq)).1
  exact unlawful walk (same ▸ loops) law

theorem SameAreas.faultLawful (same : SameAreas s s')
    {result : Option (Walk σ × List Piece × State)} :
    FaultLawful s' l addr size softlock result ↔ FaultLawful s l addr size softlock result := by
  constructor
  · rintro ⟨walk, unlocked, s'', eq, law, undone⟩
    exact ⟨walk, unlocked, s'', eq, same.law law, undone⟩
  · rintro ⟨walk, unlocked, s'', eq, law, undone⟩
    exact ⟨walk, unlocked, s'', eq, same.symm.law law, undone⟩

theorem not_faultFrom_lawful_of_wraps {fuel p q rsize : ℕ} (below : s.eaddr q < 2 ^ 32)
    (contains : s.Contains q addr) (rsize_lt : rsize < 2 ^ 32) (wraps : 2 ^ 32 ≤ addr + rsize)
    (enough : s.nsegs + 1 = fuel + 1)
    (same : rangeLoop s fault fcNomap (fuel + 1) p addr rsize drv =
      rangeLoop s fault fcNomap (fuel + 1) q addr rsize drv) :
    ¬ FaultLawful s l addr size softlock (faultFrom s p addr rsize softlock fault drv) := by
  refine not_faultFrom_lawful fun walk loops law => ?_
  rw [enough, same] at loops
  have mem := rangeLoop_wraps contains.2 below rsize_lt wraps loops
  have within := (law.inside _ mem).2.2
  dsimp only at within
  omega

/-- The loop of `as_fault` from the segment that it begins with. -/
theorem Held.faultFrom_lawful_iff {p : ℕ} (held : Held s l) (below : ∀ p ∈ l, s.eaddr p < 2 ^ 32)
    (p_mem : p ∈ l) (aligned : pageSize ∣ addr) (positive : 0 < size)
    (short : size ≤ 2 ^ 32 - pageSize)
    (begins : s.Contains p addr ∨ (s.seg p).base ≤ addr ∧ (addr + size) % 2 ^ 32 < s.eaddr p) :
    FaultLawful s l addr size softlock (faultFrom s p addr (roundUp size) softlock fault drv) ↔
      addr + size ≤ 2 ^ 32 - pageSize ∨
        s.eaddr p ≤ addr ∧ ∀ q, s.chain.next p = some q → (s.seg q).base ≠ addr := by
  obtain ⟨front, back, rfl⟩ := append_of_mem p_mem
  obtain ⟨-, ordered, chain, nsegs⟩ := held.represents
  have next : s.chain.next p = back.head? := chain.neighbours.2
  have bounds := roundUp_bounds size
  have p_below := below p p_mem
  have fits : addr + size ≤ 2 ^ 32 - pageSize ↔ addr + roundUp size < 2 ^ 32 := by
    obtain ⟨k, rfl⟩ := aligned
    simp only [roundUp, pageSize] at bounds ⊢
    omega
  have rsize_lt : roundUp size < 2 ^ 32 := by
    simp only [roundUp, pageSize] at short ⊢
    omega
  by_cases inside : addr < s.eaddr p
  · have contains : s.Contains p addr := ⟨begins.elim And.left And.left, inside⟩
    have not_past : ¬ (s.eaddr p ≤ addr ∧
        ∀ q, s.chain.next p = some q → (s.seg q).base ≠ addr) := fun past =>
      Nat.not_lt.2 past.1 inside
    rw [or_iff_left not_past, fits]
    by_cases range : addr + roundUp size < 2 ^ 32
    · obtain ⟨walk, loops, walked, unlocks⟩ := @Held.rangeLoop_walked σ s addr size fault drv front
        back p fcNomap held contains positive range (by decide)
      exact iff_of_true (faultFrom_lawful positive aligned loops walked unlocks) range
    · exact iff_of_false (not_faultFrom_lawful_of_wraps p_below contains rsize_lt
        (Nat.not_lt.1 range) rfl rfl) range
  · have past : s.eaddr p ≤ addr := Nat.not_lt.1 inside
    have wrapped : (addr + size) % 2 ^ 32 < s.eaddr p :=
      begins.elim (fun contains => absurd contains.2 inside) And.right
    have not_fits : ¬ addr + size ≤ 2 ^ 32 - pageSize := by
      simp only [pageSize]
      omega
    rw [or_iff_right not_fits, and_iff_right past]
    by_cases abuts : ∃ q, s.chain.next p = some q ∧ (s.seg q).base = addr
    · obtain ⟨q, is_next, base_eq⟩ := abuts
      have q_mem : q ∈ front ++ p :: back := by
        refine mem_append_right _ (mem_cons_of_mem p (mem_of_head? ?_))
        rw [← next, is_next]
      have q_lt := base_lt_eaddr ordered q_mem
      have q_contains : s.Contains q addr := ⟨Nat.le_of_eq base_eq, by omega⟩
      have wraps : 2 ^ 32 ≤ addr + roundUp size := by omega
      refine iff_of_false ?_ fun apart => apart q is_next base_eq
      exact not_faultFrom_lawful_of_wraps (below q q_mem) q_contains rsize_lt wraps rfl
        (rangeLoop_next past is_next base_eq.symm q_contains.2)
    · have apart : ∀ q, s.chain.next p = some q → (s.seg q).base ≠ addr :=
        fun q is_next base_eq => abuts ⟨q, is_next, base_eq⟩
      have loops : rangeLoop s fault fcNomap (s.nsegs + 1) p addr (roundUp size) drv =
          some ⟨fcNomap, [], addr, drv⟩ :=
        rangeLoop_hole past (by omega) fun q is_next base_eq => apart q is_next base_eq.symm
      refine iff_of_true ?_ apart
      exact faultFrom_lawful positive aligned loops (Walked.stopped (by omega) (by decide))
        (unlockLoop_end (Nat.lt_irrefl addr))

/-- `as_fault`: a range that wraps around is only found out if no segment begins it. -/
theorem Held.asFault_lawful_iff (held : Held s l) (below : ∀ p ∈ l, s.eaddr p < 2 ^ 32)
    (kmap_mem : s.kas = true → ∀ k, segkmap = some k → k ∈ l) (aligned : pageSize ∣ addr)
    (addr_lt : addr < 2 ^ 32) (positive : 0 < size) (size_lt : size < 2 ^ 32) :
    FaultLawful s l addr size softlock (asFault s segkmap addr size softlock fault drv) ↔
      ∀ p, Begins s l segkmap addr size p → size ≤ 2 ^ 32 - pageSize ∧
        (addr + size ≤ 2 ^ 32 - pageSize ∨
          s.eaddr p ≤ addr ∧ ∀ q, s.chain.next p = some q → (s.seg q).base ≠ addr) := by
  obtain ⟨seg, s', faultSeg, held', same, begins_iff⟩ := @Held.faultSeg s l addr size segkmap held
  cases seg with
  | none =>
    refine iff_of_true ?_ fun p begins => nomatch (begins_iff p).2 begins
    rw [asFault, pageMask_of_dvd aligned, faultSeg, bind_some]
    refine (faultLawful_iff rfl).2 ⟨?_, fun _ _ => rfl⟩
    exact (Walked.stopped (Nat.le_add_right ..) (by decide)).law aligned positive
  | some p =>
    have begins := (begins_iff p).1 rfl
    have only : ∀ q, Begins s l segkmap addr size q → q = p := fun q q_begins =>
      (some.inj ((begins_iff q).2 q_begins)).symm
    have p_mem : p ∈ l := by
      rcases begins with ⟨kas, is_kmap, -⟩ | ⟨-, p_mem, -⟩
      · exact kmap_mem kas p is_kmap
      · exact p_mem
    have start : s'.Contains p addr ∨
        (s'.seg p).base ≤ addr ∧ (addr + size) % 2 ^ 32 < s'.eaddr p := by
      rw [same.contains, same.eaddr, (same p).1]
      exact begins.elim (fun bypass => .inr bypass.2.2) fun found => .inl found.2.2
    rw [asFault_eq aligned faultSeg, roundSize_eq aligned addr_lt size_lt, ← same.faultLawful]
    by_cases short : size ≤ 2 ^ 32 - pageSize
    · obtain ⟨front, back, rfl⟩ := append_of_mem p_mem
      have next : s'.chain.next p = s.chain.next p :=
        held'.represents.chain.neighbours.2.trans held.represents.chain.neighbours.2.symm
      rw [if_pos short, held'.faultFrom_lawful_iff (fun q q_mem => by
        rw [same.eaddr]
        exact below q q_mem) p_mem aligned positive short start, next, same.eaddr]
      simp only [fun q => (same q).1]
      constructor
      · intro either q q_begins
        obtain rfl := only q q_begins
        exact ⟨short, either⟩
      · exact fun each => (each p begins).2
    · rw [if_neg short]
      refine iff_of_false ?_ fun each => short (each p begins).1
      refine not_faultFrom_lawful fun walk loops => ?_
      cases rangeLoop_done.symm.trans loops
      exact not_law_of_nothing positive

/-- When each of the functions does what it has to do. -/
structure LawfulWhen (s : State) (l : List ℕ) (addr size : ℕ) (op : SegOp σ) (drv : σ) : Prop where
  setprot : Lawful s l addr size (asSetprot s addr size op drv) ↔
    ((∃ p ∈ l, s.Contains p addr) → size ≤ 2 ^ 32 - pageSize)
  checkprot : Lawful s l addr size (asCheckprot s addr size op drv) ↔
    ((∃ p ∈ l, s.Contains p addr) → size ≤ 2 ^ 32 - pageSize)
  incore : ∀ incore : Piece → σ → ℕ × σ, Lawful s l addr size (asIncore s addr size incore drv) ↔
    ((∃ p ∈ l, s.Contains p addr) → size ≤ 2 ^ 32 - pageSize)
  ctl : ∀ func, Lawful s l addr size (asCtl s addr size func op drv) ↔
    ((∃ p ∈ l, s.Contains p addr) → size ≤ 2 ^ 32 - pageSize)
  faulta : Lawful s l addr size (asFaulta s addr size op drv) ↔
    ((∃ p ∈ l, s.Contains p addr) → size ≤ 2 ^ 32 - pageSize)
  fault : ∀ segkmap softlock, (s.kas = true → ∀ k, segkmap = some k → k ∈ l) →
    (FaultLawful s l addr size softlock (asFault s segkmap addr size softlock op drv) ↔
      ∀ p, Begins s l segkmap addr size p → size ≤ 2 ^ 32 - pageSize ∧
        (addr + size ≤ 2 ^ 32 - pageSize ∨
          s.eaddr p ≤ addr ∧ ∀ q, s.chain.next p = some q → (s.seg q).base ≠ addr))

theorem Held.lawfulWhen (held : Held s l) (below : ∀ p ∈ l, s.eaddr p < 2 ^ 32)
    (ends : ∀ p ∈ l, pageSize ∣ s.eaddr p) (aligned : pageSize ∣ addr) (addr_lt : addr < 2 ^ 32)
    (positive : 0 < size) (size_lt : size < 2 ^ 32) : LawfulWhen s l addr size op drv where
  setprot := held.checkedWalk_lawful_iff aligned addr_lt positive size_lt (by decide) (by decide)
  checkprot := held.checkedWalk_lawful_iff aligned addr_lt positive size_lt (by decide) (by decide)
  incore incore := by
    have checked := @Held.checkedWalk_lawful_iff (ℕ × σ) s l addr size (incoreOp incore) (0, drv)
      enomem (-1) held aligned addr_lt positive size_lt (by decide) (by decide)
    exact checked
  ctl func := held.checkedWalk_lawful_iff aligned addr_lt positive size_lt (by decide) (by decide)
  faulta := held.asFaulta_lawful_iff below ends aligned addr_lt positive size_lt
  fault _ _ kmap_mem := held.asFault_lawful_iff below kmap_mem aligned addr_lt positive size_lt

end Laws

/-! ### Runs -/

/-- The caller adds whole pages. -/
def Op.Aligned : Op → Prop
  | .addseg _ base size => pageSize ∣ base ∧ pageSize ∣ size
  | _ => True

/-- The segment consists of whole pages. -/
def Area.Aligned (a : Area) : Prop := pageSize ∣ a.base ∧ pageSize ∣ a.size

theorem Area.Aligned.eaddr {a : Area} (aligned : a.Aligned) : pageSize ∣ a.eaddr :=
  Nat.dvd_add aligned.1 aligned.2

theorem SpecRun.aligned {held held' : Set Area} {ops : List Op} {results : List Result}
    (spec : SpecRun held ops results held') (ops_aligned : ∀ op ∈ ops, op.Aligned)
    (aligned : ∀ a ∈ held, a.Aligned) : ∀ a ∈ held', a.Aligned := by
  induction spec with
  | nil _ => exact aligned
  | cons first _ ih =>
    refine ih (fun op op_mem => ops_aligned op (mem_cons_of_mem _ op_mem))
      (first.keeps ?_ aligned)
    rintro p base size rfl
    exact ops_aligned _ mem_cons_self

/-- In every address space that a run leaves behind, the six functions do what they have to do with
a range exactly as long as its size in whole pages fits in 32 bits, and `as_fault` as long as it
does not wrap around either, unless no segment begins the range. -/
theorem as_range_lawful_iff (kas : Bool) (thresh : ℕ) (seg : ℕ → Seg) (random : ℕ → ℕ)
    {ops : List Op} (valid_run : ValidRun ∅ ops) (aligned_run : ∀ op ∈ ops, op.Aligned)
    {addr size : ℕ} (aligned : pageSize ∣ addr) (addr_lt : addr < 2 ^ 32) (positive : 0 < size)
    (size_lt : size < 2 ^ 32) :
    ∃ results s held l, run (asAlloc kas thresh seg random) ops = some (results, s) ∧
      SpecRun ∅ ops results held ∧ Represents s held l ∧
      ∀ (σ : Type) (op : SegOp σ) (drv : σ), LawfulWhen s l addr size op drv := by
  have empty : (asAlloc kas thresh seg random).areas [] = ∅ := by
    refine Set.eq_empty_of_forall_notMem ?_
    rintro _ ⟨q, q_mem, -⟩
    exact nomatch q_mem
  obtain ⟨results, s, l, runs, spec, held⟩ :=
    (held_asAlloc kas thresh seg random).run (show ValidRun _ ops by rwa [empty])
  rw [empty] at spec
  have below : ∀ p ∈ l, s.eaddr p < 2 ^ 32 := fun p p_mem =>
    spec.bounded valid_run (fun _ impossible => impossible.elim) (s.area p) ⟨p, p_mem, rfl⟩
  have ends : ∀ p ∈ l, pageSize ∣ s.eaddr p := fun p p_mem =>
    (spec.aligned aligned_run (fun _ impossible => impossible.elim) (s.area p)
      ⟨p, p_mem, rfl⟩).eaddr
  refine ⟨results, s, s.areas l, l, runs, spec, held.represents, fun σ op drv => ?_⟩
  exact held.lawfulWhen below ends aligned addr_lt positive size_lt

/-- One page, in a segment of its own. -/
theorem as_range_lawful_iff_page :
    ∃ results s held l, run (asAlloc false 1 (fun _ => ⟨0, 0, none, none⟩) fun _ => 0)
        [.addseg 1 8192 4096] = some (results, s) ∧
      SpecRun ∅ [.addseg 1 8192 4096] results held ∧ Represents s held l ∧
      ∀ (σ : Type) (op : SegOp σ) (drv : σ), LawfulWhen s l 8192 1 op drv := by
  have valid_run : ValidRun ∅ [.addseg 1 8192 4096] :=
    ⟨⟨fun _ impossible => impossible.elim, by decide, by decide⟩, fun _ _ _ => trivial⟩
  refine as_range_lawful_iff false 1 (fun _ => ⟨0, 0, none, none⟩) (fun _ => 0) valid_run ?_
    (by decide) (by decide) (by decide) (by decide)
  intro op op_mem
  obtain rfl := mem_singleton.1 op_mem
  exact ⟨by decide, by decide⟩

/-- With one segment of a page, a range of all but 4095 bytes gets a protection without a call of
the driver, and a fault on a range that wraps around is handed to the driver as a whole. -/
theorem not_as_range_lawful :
    ∃ results s held l, run (asAlloc false 1 (fun _ => ⟨0, 0, none, none⟩) fun _ => 0)
        [.addseg 1 8192 4096] = some (results, s) ∧ Represents s held l ∧
      ¬ Lawful s l 8192 0xfffff001 (asSetprot s 8192 0xfffff001 (fun _ drv => (0, drv)) ()) ∧
      ¬ FaultLawful s l 8192 0xfffff000 true
        (asFault s none 8192 0xfffff000 true (fun _ drv => (0, drv)) ()) := by
  have valid_run : ValidRun ∅ [.addseg 1 8192 4096] :=
    ⟨⟨fun _ impossible => impossible.elim, by decide, by decide⟩, fun _ _ _ => trivial⟩
  have empty : (asAlloc false 1 (fun _ => ⟨0, 0, none, none⟩) fun _ => 0).areas [] = ∅ := by
    refine Set.eq_empty_of_forall_notMem ?_
    rintro _ ⟨q, q_mem, -⟩
    exact nomatch q_mem
  obtain ⟨results, s, l, runs, spec, held⟩ :=
    (held_asAlloc false 1 (fun _ => ⟨0, 0, none, none⟩) fun _ => 0).run
      (show ValidRun _ [.addseg 1 8192 4096] by rwa [empty])
  rw [empty] at spec
  have below : ∀ p ∈ l, s.eaddr p < 2 ^ 32 := fun p p_mem =>
    spec.bounded valid_run (fun _ impossible => impossible.elim) (s.area p) ⟨p, p_mem, rfl⟩
  have added : ∀ held, SpecRun ∅ [.addseg 1 8192 4096] results held →
      (⟨1, 8192, 4096⟩ : Area) ∈ held := by
    intro held spec
    cases spec with
    | cons first rest =>
      cases rest with
      | nil =>
        cases first with
        | added _ => exact Set.mem_insert ..
        | refused impossible _ => exact impossible.elim
  obtain ⟨p, p_mem, area_eq⟩ := added _ spec
  have contains : s.Contains p 8192 := by
    have base_eq : (s.seg p).base = 8192 := congrArg Area.base area_eq
    have eaddr_eq : s.eaddr p = 12288 := congrArg Area.eaddr area_eq
    rw [State.Contains, base_eq, eaddr_eq]
    decide
  refine ⟨results, s, s.areas l, l, runs, held.represents, fun lawful => ?_, fun lawful => ?_⟩
  · have fits := (held.checkedWalk_lawful_iff (by decide) (by decide) (by decide) (by decide)
      (by decide) (by decide)).1 lawful ⟨p, p_mem, contains⟩
    exact absurd fits (by decide)
  · have no_kmap : s.kas = true → ∀ k, none = some k → k ∈ l :=
      fun _ _ none_here => nomatch none_here
    have no_bypass : ∀ k, ¬ Bypass s none 8192 0xfffff000 k := fun k bypass => nomatch bypass.2.1
    obtain ⟨-, fits | past⟩ := (held.asFault_lawful_iff below no_kmap (by decide)
      (by decide) (by decide) (by decide)).1 lawful p
      (.inr ⟨no_bypass, p_mem, contains⟩)
    · exact absurd fits (by decide)
    · exact Nat.not_lt.2 past.1 contains.2

end Sol25.Seglist
