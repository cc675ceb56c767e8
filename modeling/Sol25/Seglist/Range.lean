import Sol25.Seglist.Gap

/-!
# Operations on ranges of an address space

Six functions of `vm/vm_as.c` walk over the segments under a range and call an operation of the
segment driver on each piece.  They round the range to pages in 32 bits and differ in what they make
of a range that wraps around, and of one that goes on in the next segment.
-/

namespace Sol25.Seglist

open List Nat

/-- A call of the driver: the segment, and the piece of the range. -/
structure Piece where
  seg : ℕ
  addr : ℕ
  size : ℕ
deriving DecidableEq

/-- An operation of the driver: what it returns, and what becomes of the driver's own state. -/
abbrev SegOp (σ : Type) := Piece → σ → ℤ × σ

def pageSize : ℕ := 4096

/-- `x & PAGEMASK` -/
def pageMask (x : ℕ) : ℕ := x / pageSize * pageSize

def roundSize (addr size : ℕ) : ℕ :=
  (pageMask ((addr + size + (pageSize - 1)) % 2 ^ 32) + 2 ^ 32 - pageMask addr) % 2 ^ 32

def asSegat (s : State) (addr : ℕ) : Option (Option ℕ × State) :=
  (asFindseg s addr false).map fun (seg, s) =>
    (seg.filter fun seg => (s.seg seg).base ≤ addr ∧ addr < s.eaddr seg, s)

/-- What a walk returns, the pieces it has called the driver for and what the driver said, where it
stops, and the driver's state. -/
structure Walk (σ : Type) where
  res : ℤ
  calls : List (Piece × ℤ)
  stop : ℕ
  drv : σ

section Model

variable {σ : Type}

/-- A call in front of a walk. -/
def Walk.cons (call : Piece × ℤ) (walk : Walk σ) : Walk σ :=
  { walk with calls := call :: walk.calls }

/-- The loop over a range, where `nomap` is the error for a hole. -/
def rangeLoop (s : State) (op : SegOp σ) (nomap : ℤ) : ℕ → ℕ → ℕ → ℕ → σ → Option (Walk σ)
  | 0, _, _, _, _ => none
  | fuel + 1, seg, raddr, rsize, drv =>
    if rsize = 0 then some ⟨0, [], raddr, drv⟩
    else
      let next :=
        if s.eaddr seg ≤ raddr then
          (s.segp (s.seg seg).next (some seg)).filter fun seg => raddr = (s.seg seg).base
        else some seg
      match next with
      | none => some ⟨nomap, [], raddr, drv⟩
      | some seg =>
        let ssize := if s.eaddr seg < (raddr + rsize) % 2 ^ 32 then
          s.eaddr seg - raddr else rsize
        let (res, drv) := op ⟨seg, raddr, ssize⟩ drv
        if res ≠ 0 then some ⟨res, [(⟨seg, raddr, ssize⟩, res)], raddr, drv⟩
        else
          (rangeLoop s op nomap fuel seg ((raddr + ssize) % 2 ^ 32) (rsize - ssize) drv).map
            (Walk.cons (⟨seg, raddr, ssize⟩, res))

/-- A walk over a range, with a check for wraparound before it. -/
def checkedWalk (s : State) (addr size : ℕ) (op : SegOp σ) (wrapped unmapped : ℤ) (drv : σ) :
    Option (Walk σ × State) :=
  let raddr := pageMask addr
  let rsize := roundSize addr size
  if (raddr + rsize) % 2 ^ 32 < raddr then some (⟨wrapped, [], raddr, drv⟩, s)
  else
    (asSegat s raddr).bind fun
      | (none, s) => some (⟨unmapped, [], raddr, drv⟩, s)
      | (some seg, s) =>
        (rangeLoop s op unmapped (s.nsegs + 1) seg raddr rsize drv).map fun walk => (walk, s)

def enomem : ℤ := 12

def fcNomap : ℤ := 3

/-- `as_setprot`; `setprot` is `SEGOP_SETPROT` with the protection. -/
def asSetprot (s : State) (addr size : ℕ) (setprot : SegOp σ) (drv : σ) : Option (Walk σ × State) :=
  checkedWalk s addr size setprot enomem enomem drv

def asCheckprot (s : State) (addr size : ℕ) (checkprot : SegOp σ) (drv : σ) :
    Option (Walk σ × State) :=
  checkedWalk s addr size checkprot enomem enomem drv

/-- The body of the loop of `as_incore`: `SEGOP_INCORE` returns the bytes in memory, which are added
to `*sizep`, and a piece that is not in memory as a whole is an error. -/
def incoreOp (incore : Piece → σ → ℕ × σ) : SegOp (ℕ × σ) := fun piece (sizep, drv) =>
  let (isize, drv) := incore piece drv
  (if isize ≠ piece.size then -1 else 0, sizep + isize, drv)

/-- `as_incore`, with `*sizep` -/
def asIncore (s : State) (addr size : ℕ) (incore : Piece → σ → ℕ × σ) (drv : σ) :
    Option (Walk (ℕ × σ) × State) :=
  checkedWalk s addr size (incoreOp incore) enomem (-1) (0, drv)

/-- The functions of `as_ctl` on a range. -/
inductive Func
  | sync
  | lock
  | unlock
  | advise
deriving DecidableEq

/-- An operation whose answer is ignored. -/
def ignored (op : SegOp σ) : SegOp σ := fun piece drv => (0, (op piece drv).2)

/-- The `switch` of `as_ctl`: what the driver returns for `MC_UNLOCK` and `MC_ADVISE` is ignored. -/
def ctlOp (func : Func) (op : SegOp σ) : SegOp σ :=
  match func with
  | .sync => op
  | .lock => op
  | .unlock => ignored op
  | .advise => ignored op

/-- `as_ctl` on a range -/
def asCtl (s : State) (addr size : ℕ) (func : Func) (op : SegOp σ) (drv : σ) :
    Option (Walk σ × State) :=
  checkedWalk s addr size (ctlOp func op) enomem enomem drv

/-- The loop of `as_faulta` over the pages of a range, which compares the next segment with the
address it was given. -/
def faultaLoop (s : State) (addr : ℕ) (op : SegOp σ) : ℕ → ℕ → ℕ → ℕ → σ → Option (Walk σ)
  | 0, _, _, _, _ => none
  | fuel + 1, seg, raddr, rsize, drv =>
    if rsize = 0 then some ⟨0, [], raddr, drv⟩
    else
      let next :=
        if s.eaddr seg ≤ raddr then
          (s.segp (s.seg seg).next (some seg)).filter fun seg => addr = (s.seg seg).base
        else some seg
      match next with
      | none => some ⟨fcNomap, [], raddr, drv⟩
      | some seg =>
        let (res, drv) := op ⟨seg, raddr, pageSize⟩ drv
        if res ≠ 0 then some ⟨res, [(⟨seg, raddr, pageSize⟩, res)], raddr, drv⟩
        else
          (faultaLoop s addr op fuel seg ((raddr + pageSize) % 2 ^ 32) (rsize - pageSize)
            drv).map (Walk.cons (⟨seg, raddr, pageSize⟩, res))

def asFaulta (s : State) (addr size : ℕ) (faulta : SegOp σ) (drv : σ) : Option (Walk σ × State) :=
  let raddr := pageMask addr
  let rsize := roundSize addr size
  (asSegat s raddr).bind fun
    | (none, s) => some (⟨fcNomap, [], raddr, drv⟩, s)
    | (some seg, s) =>
      (faultaLoop s addr faulta (rsize / pageSize + 1) seg raddr rsize drv).map
        fun walk => (walk, s)

/-- The loop of `as_fault` that unlocks what was locked. -/
def unlockLoop (s : State) (raddr : ℕ) : ℕ → ℕ → ℕ → Option (List Piece)
  | 0, _, _ => none
  | fuel + 1, seg, addrsav =>
    if addrsav < raddr then
      (if s.eaddr seg ≤ addrsav then s.segp (s.seg seg).next (some seg) else some seg).bind
        fun seg =>
          let ssize := if s.eaddr seg < raddr then s.eaddr seg - addrsav else raddr - addrsav
          (unlockLoop s raddr fuel seg (addrsav + ssize)).map (⟨seg, addrsav, ssize⟩ :: ·)
    else some []

/-- The segment that `as_fault` begins with: `segkmap` for some addresses of the kernel. -/
def faultSeg (s : State) (segkmap : Option ℕ) (raddr size : ℕ) : Option (Option ℕ × State) :=
  match if s.kas then segkmap else none with
  | none => asSegat s raddr
  | some k =>
    if (s.seg k).base ≤ raddr ∧ (raddr + size) % 2 ^ 32 < s.eaddr k then some (some k, s)
    else asSegat s raddr

/-- `as_fault`, with the pieces that it unlocks; `softlock` says that the type is `F_SOFTLOCK`. -/
def asFault (s : State) (segkmap : Option ℕ) (addr size : ℕ) (softlock : Bool) (fault : SegOp σ)
    (drv : σ) : Option (Walk σ × List Piece × State) :=
  let raddr := pageMask addr
  let rsize := roundSize addr size
  (faultSeg s segkmap raddr size).bind fun
    | (none, s) => some (⟨fcNomap, [], raddr, drv⟩, [], s)
    | (some seg, s) =>
      (rangeLoop s fault fcNomap (s.nsegs + 1) seg raddr rsize drv).bind fun walk =>
        if walk.res ≠ 0 ∧ softlock then
          (unlockLoop s walk.stop (s.nsegs + 1) seg raddr).map fun unlocked => (walk, unlocked, s)
        else some (walk, [], s)

end Model

/-! ### A walk along the list of segments -/

section Walks

variable {σ : Type} {s : State} {l front back : List ℕ} {op : SegOp σ} {nomap : ℤ}
  {fuel seg p q raddr rsize stop last : ℕ} {drv : σ}

/-- A walk from an address to another over a list of segments. -/
def walkOn (s : State) (op : SegOp σ) (nomap : ℤ) (last : ℕ) : List ℕ → ℕ → σ → Walk σ
  | [], raddr, drv => ⟨nomap, [], raddr, drv⟩
  | p :: back, raddr, drv =>
    if raddr < (s.seg p).base then ⟨nomap, [], raddr, drv⟩
    else
      let piece : Piece := ⟨p, raddr, min (s.eaddr p) last - raddr⟩
      let (res, drv) := op piece drv
      if res ≠ 0 then ⟨res, [(piece, res)], raddr, drv⟩
      else if last ≤ s.eaddr p then ⟨0, [(piece, 0)], last, drv⟩
      else (walkOn s op nomap last back (s.eaddr p) drv).cons (piece, 0)

theorem rangeLoop_done : rangeLoop s op nomap (fuel + 1) p raddr 0 drv = some ⟨0, [], raddr, drv⟩ :=
  if_pos rfl

theorem rangeLoop_next (past : s.eaddr p ≤ raddr) (next : s.chain.next p = some q)
    (base : raddr = (s.seg q).base) (inside : raddr < s.eaddr q) :
    rangeLoop s op nomap (fuel + 1) p raddr rsize drv =
      rangeLoop s op nomap (fuel + 1) q raddr rsize drv := by
  have next : s.segp (s.seg p).next (some p) = some q := next
  have kept : (some q).filter (fun seg => decide (raddr = (s.seg seg).base)) = some q :=
    if_pos (decide_eq_true base)
  rw [rangeLoop, rangeLoop, if_pos past, if_neg (Nat.not_le.2 inside), next, kept]

theorem rangeLoop_hole (past : s.eaddr p ≤ raddr) (some_left : rsize ≠ 0)
    (apart : ∀ q, s.chain.next p = some q → raddr ≠ (s.seg q).base) :
    rangeLoop s op nomap (fuel + 1) p raddr rsize drv = some ⟨nomap, [], raddr, drv⟩ := by
  have none_here : (s.segp (s.seg p).next (some p)).filter
      (fun seg => decide (raddr = (s.seg seg).base)) = none := by
    cases next : s.segp (s.seg p).next (some p) with
    | none => rfl
    | some q => exact if_neg fun eq => apart q next (of_decide_eq_true eq)
  rw [rangeLoop, if_neg some_left, if_pos past, none_here]

/-- The piece of a range that lies in the segment at hand. -/
theorem rangeLoop_piece (inside : raddr < s.eaddr p) (some_left : raddr < last)
    (range : last < 2 ^ 32) :
    rangeLoop s op nomap (fuel + 1) p raddr (last - raddr) drv =
      let piece : Piece := ⟨p, raddr, min (s.eaddr p) last - raddr⟩
      let (res, drv) := op piece drv
      if res ≠ 0 then some ⟨res, [(piece, res)], raddr, drv⟩
      else
        (rangeLoop s op nomap fuel p (min (s.eaddr p) last) (last - min (s.eaddr p) last) drv).map
          (Walk.cons (piece, res)) := by
  have end_eq : (raddr + (last - raddr)) % 2 ^ 32 = last := by
    rw [add_sub_of_le (Nat.le_of_lt some_left), mod_eq_of_lt range]
  have size_eq : (if s.eaddr p < last then s.eaddr p - raddr else last - raddr) =
      min (s.eaddr p) last - raddr := by
    split_ifs <;> omega
  have next_eq : (raddr + (min (s.eaddr p) last - raddr)) % 2 ^ 32 = min (s.eaddr p) last := by
    rw [add_sub_of_le (by omega), mod_eq_of_lt (by omega)]
  have left_eq : last - raddr - (min (s.eaddr p) last - raddr) = last - min (s.eaddr p) last := by
    omega
  rw [rangeLoop, if_neg (by omega), if_neg (Nat.not_le.2 inside)]
  dsimp only
  rw [end_eq, size_eq, next_eq, left_eq]

/-- The loop over a range that does not wrap around is a walk along the list. -/
theorem rangeLoop_eq (chain : s.chain.Holds (front ++ p :: back))
    (ordered : Ordered s (front ++ p :: back)) (base_le : (s.seg p).base ≤ raddr)
    (inside : raddr < s.eaddr p) (some_left : raddr < last) (range : last < 2 ^ 32) :
    rangeLoop s op nomap (fuel + back.length + 2) p raddr (last - raddr) drv =
      some (walkOn s op nomap last (p :: back) raddr drv) := by
  induction back generalizing front p raddr drv with
  | nil =>
    have next : s.chain.next p = none := chain.neighbours.2
    rw [rangeLoop_piece inside some_left range, walkOn, if_neg (Nat.not_lt.2 base_le)]
    dsimp only
    obtain ⟨res, drv⟩ := op ⟨p, raddr, min (s.eaddr p) last - raddr⟩ drv
    dsimp only
    by_cases failed : res ≠ 0
    · rw [if_pos failed, if_pos failed]
    obtain rfl : res = 0 := not_not.1 failed
    rw [if_neg failed, if_neg failed]
    by_cases ends : last ≤ s.eaddr p
    · rw [if_pos ends, Nat.min_eq_right ends, Nat.sub_self, rangeLoop_done]
      exact rfl
    · have beyond : s.eaddr p < last := Nat.not_le.1 ends
      rw [if_neg ends, Nat.min_eq_left (Nat.le_of_lt beyond),
        rangeLoop_hole (Nat.le_refl _) (sub_ne_zero_of_lt beyond)
          fun q is_next => nomatch next.symm.trans is_next]
      exact rfl
  | cons q back ih =>
    have next : s.chain.next p = some q := chain.neighbours.2
    have behind : s.eaddr p ≤ (s.seg q).base :=
      (pairwise_cons.1 (pairwise_append.1 ordered.order).2.1).1 q mem_cons_self
    have q_lt : (s.seg q).base < s.eaddr q := base_lt_eaddr ordered (by simp)
    rw [show fuel + (q :: back).length + 2 = fuel + back.length + 2 + 1 from rfl,
      rangeLoop_piece inside some_left range, walkOn, if_neg (Nat.not_lt.2 base_le)]
    dsimp only
    obtain ⟨res, drv⟩ := op ⟨p, raddr, min (s.eaddr p) last - raddr⟩ drv
    dsimp only
    by_cases failed : res ≠ 0
    · rw [if_pos failed, if_pos failed]
    obtain rfl : res = 0 := not_not.1 failed
    rw [if_neg failed, if_neg failed]
    by_cases ends : last ≤ s.eaddr p
    · rw [if_pos ends, Nat.min_eq_right ends, Nat.sub_self, rangeLoop_done]
      exact rfl
    have beyond : s.eaddr p < last := Nat.not_le.1 ends
    rw [if_neg ends, Nat.min_eq_left (Nat.le_of_lt beyond)]
    by_cases abuts : s.eaddr p = (s.seg q).base
    · have split : front ++ p :: q :: back = (front ++ [p]) ++ q :: back := by simp
      rw [split] at chain ordered
      rw [rangeLoop_next (Nat.le_refl _) next abuts (by omega),
        ih chain ordered (Nat.le_of_eq abuts.symm) (by omega) beyond]
      exact rfl
    · have hole : walkOn s op nomap last (q :: back) (s.eaddr p) drv =
          ⟨nomap, [], s.eaddr p, drv⟩ := if_pos (by omega)
      rw [rangeLoop_hole (Nat.le_refl _) (sub_ne_zero_of_lt beyond), hole]
      · exact rfl
      · intro r is_next eq
        obtain rfl : q = r := Option.some.inj (next.symm.trans is_next)
        exact abuts eq

/-- The pieces lie one behind the other, from an address to another. -/
def Tiles : ℕ → List Piece → ℕ → Prop
  | a, [], b => a = b
  | a, piece :: pieces, b => piece.addr = a ∧ 0 < piece.size ∧ Tiles (a + piece.size) pieces b

/-- The address lies in one of the pieces. -/
def Covers (pieces : List Piece) (x : ℕ) : Prop :=
  ∃ piece ∈ pieces, piece.addr ≤ x ∧ x < piece.addr + piece.size

namespace Tiles

variable {pieces : List Piece} {a b : ℕ}

theorem le (tiles : Tiles a pieces b) : a ≤ b := by
  induction pieces generalizing a with
  | nil => exact Nat.le_of_eq tiles
  | cons piece pieces ih => exact Nat.le_trans (Nat.le_add_right ..) (ih tiles.2.2)

theorem le_addr (tiles : Tiles a pieces b) : ∀ piece ∈ pieces, a ≤ piece.addr := by
  induction pieces generalizing a with
  | nil => exact fun _ none_here => nomatch none_here
  | cons first pieces ih =>
    intro piece mem
    rcases mem_cons.1 mem with rfl | mem
    · exact Nat.le_of_eq tiles.1.symm
    · exact Nat.le_trans (Nat.le_add_right ..) (ih tiles.2.2 piece mem)

theorem pairwise (tiles : Tiles a pieces b) :
    pieces.Pairwise fun piece piece' => piece.addr + piece.size ≤ piece'.addr := by
  induction pieces generalizing a with
  | nil => exact List.Pairwise.nil
  | cons first pieces ih =>
    refine pairwise_cons.2 ⟨fun piece mem => ?_, ih tiles.2.2⟩
    rw [tiles.1]
    exact tiles.2.2.le_addr piece mem

theorem covers_iff (tiles : Tiles a pieces b) (x : ℕ) : Covers pieces x ↔ a ≤ x ∧ x < b := by
  induction pieces generalizing a with
  | nil =>
    obtain rfl : a = b := tiles
    constructor
    · rintro ⟨_, none_here, -⟩
      exact nomatch none_here
    · omega
  | cons first pieces ih =>
    obtain ⟨rfl, positive, rest⟩ := tiles
    have le := rest.le
    rw [Covers, exists_mem_cons_iff]
    change _ ∨ Covers pieces x ↔ _
    rw [ih rest]
    omega

end Tiles

/-- The piece lies in the segment it is given to. -/
def Inside (s : State) (l : List ℕ) (piece : Piece) : Prop :=
  piece.seg ∈ l ∧ (s.seg piece.seg).base ≤ piece.addr ∧ piece.addr + piece.size ≤ s.eaddr piece.seg

namespace Walk

/-- The pieces that the driver has been called for. -/
def pieces (walk : Walk σ) : List Piece := walk.calls.map Prod.fst

/-- The pieces on which the driver has succeeded. -/
def done (walk : Walk σ) : List Piece := (walk.calls.filter fun call => call.2 = 0).map Prod.fst

theorem pieces_cons (call : Piece × ℤ) (walk : Walk σ) :
    (walk.cons call).pieces = call.1 :: walk.pieces := rfl

theorem done_cons (piece : Piece) (walk : Walk σ) :
    (walk.cons (piece, 0)).done = piece :: walk.done := rfl

variable {piece : Piece} {res : ℤ}

theorem done_failed (failed : res ≠ 0) : (⟨res, [(piece, res)], stop, drv⟩ : Walk σ).done = [] := by
  rw [done, filter_cons_of_neg (by simpa using failed)]
  rfl

end Walk

/-- What a walk has done: the driver has succeeded on the pieces from the start of the range to
where the walk stops, and that is the end of the range if there is no error. -/
structure Walked (s : State) (l : List ℕ) (raddr last : ℕ) (walk : Walk σ) : Prop where
  inside : ∀ piece ∈ walk.pieces, Inside s l piece
  tiles : ∃ e, Tiles raddr walk.pieces e
  done : Tiles raddr walk.done walk.stop
  stop_le : walk.stop ≤ last
  all_done : walk.res = 0 → walk.done = walk.pieces ∧ walk.stop = last

theorem Walked.stopped (le : raddr ≤ last) (error : res ≠ 0) :
    Walked s l raddr last (⟨res, [], raddr, drv⟩ : Walk σ) :=
  ⟨fun _ none_here => (nomatch none_here), ⟨raddr, rfl⟩, rfl, le,
    fun no_error => absurd no_error error⟩

theorem Walked.failed (inside : Inside s l piece) (addr : piece.addr = raddr)
    (positive : 0 < piece.size) (le : raddr ≤ last) (error : res ≠ 0) :
    Walked s l raddr last (⟨res, [(piece, res)], raddr, drv⟩ : Walk σ) := by
  refine ⟨fun other mem => ?_, ⟨raddr + piece.size, addr, positive, rfl⟩, ?_, le,
    fun no_error => absurd no_error error⟩
  · obtain rfl : other = piece := mem_singleton.1 mem
    exact inside
  · rw [Walk.done_failed error]
    rfl

theorem Walked.cons {walk : Walk σ} (inside : Inside s l piece) (addr : piece.addr = raddr)
    (positive : 0 < piece.size) (walked : Walked s l (raddr + piece.size) last walk) :
    Walked s l raddr last (walk.cons (piece, 0)) := by
  obtain ⟨e, tiles⟩ := walked.tiles
  refine ⟨fun other mem => ?_, ⟨e, addr, positive, tiles⟩, ⟨addr, positive, walked.done⟩,
    walked.stop_le, fun no_error => ?_⟩
  · rcases mem_cons.1 mem with rfl | mem
    · exact inside
    · exact walked.inside other mem
  · obtain ⟨all, ends⟩ := walked.all_done no_error
    refine ⟨?_, ends⟩
    rw [Walk.done_cons, Walk.pieces_cons, all]

theorem walkOn_walked (ordered : Ordered s back) (mem : ∀ p ∈ back, p ∈ l)
    (inside : ∀ p ∈ back, raddr < s.eaddr p) (some_left : raddr < last) (nomap_ne : nomap ≠ 0) :
    Walked s l raddr last (walkOn s op nomap last back raddr drv) := by
  induction back generalizing raddr drv with
  | nil => exact Walked.stopped (Nat.le_of_lt some_left) nomap_ne
  | cons p back ih =>
    have raddr_lt := inside p mem_cons_self
    have behind := (pairwise_cons.1 ordered.order).1
    have ordered_back := ordered.sublist (sublist_cons_self p back)
    rw [walkOn]
    by_cases hole : raddr < (s.seg p).base
    · rw [if_pos hole]
      exact Walked.stopped (Nat.le_of_lt some_left) nomap_ne
    have here : Inside s l ⟨p, raddr, min (s.eaddr p) last - raddr⟩ := by
      refine ⟨mem p mem_cons_self, Nat.not_lt.1 hole, ?_⟩
      dsimp only
      omega
    have positive : 0 < min (s.eaddr p) last - raddr := by omega
    rw [if_neg hole]
    dsimp only
    obtain ⟨res, drv⟩ := op ⟨p, raddr, min (s.eaddr p) last - raddr⟩ drv
    dsimp only
    by_cases failed : res ≠ 0
    · rw [if_pos failed]
      exact Walked.failed here rfl positive (Nat.le_of_lt some_left) failed
    obtain rfl : res = 0 := not_not.1 failed
    rw [if_neg failed]
    by_cases ends : last ≤ s.eaddr p
    · rw [if_pos ends]
      refine @Walked.cons σ s l raddr last _ ⟨0, [], last, drv⟩ here rfl positive ?_
      have stop_eq : raddr + (min (s.eaddr p) last - raddr) = last := by omega
      dsimp only
      rw [stop_eq]
      exact ⟨fun _ none_here => (nomatch none_here), ⟨last, rfl⟩, rfl, Nat.le_refl _,
        fun _ => ⟨rfl, rfl⟩⟩
    · have stop_eq : raddr + (min (s.eaddr p) last - raddr) = s.eaddr p := by omega
      rw [if_neg ends]
      refine Walked.cons here rfl positive ?_
      dsimp only
      rw [stop_eq]
      refine ih ordered_back (fun q q_mem => mem q (mem_cons_of_mem p q_mem)) ?_
        (Nat.not_le.1 ends)
      intro q q_mem
      exact Nat.lt_of_le_of_lt (behind q q_mem)
        (base_lt_eaddr ordered (mem_cons_of_mem p q_mem))

/-! ### Unlocking again -/

theorem unlockLoop_next (past : s.eaddr p ≤ raddr) (next : s.chain.next p = some q)
    (inside : raddr < s.eaddr q) :
    unlockLoop s stop (fuel + 1) p raddr = unlockLoop s stop (fuel + 1) q raddr := by
  have next : s.segp (s.seg p).next (some p) = some q := next
  rw [unlockLoop, unlockLoop, if_pos past, if_neg (Nat.not_le.2 inside), next]

/-- Unlocking a piece that reaches the end of its segment or the place where the walk has
stopped. -/
theorem unlockLoop_piece (inside : raddr < s.eaddr p) (before : raddr < stop) :
    unlockLoop s stop (fuel + 1) p raddr =
      (unlockLoop s stop fuel p (min (s.eaddr p) stop)).map
        (⟨p, raddr, min (s.eaddr p) stop - raddr⟩ :: ·) := by
  have size_eq : (if s.eaddr p < stop then s.eaddr p - raddr else stop - raddr) =
      min (s.eaddr p) stop - raddr := by
    split_ifs <;> omega
  rw [unlockLoop, if_pos before, if_neg (Nat.not_le.2 inside), Option.bind_some, size_eq]
  dsimp only
  rw [add_sub_of_le (by omega)]

theorem unlockLoop_end (done : ¬ raddr < stop) :
    unlockLoop s stop (fuel + 1) p raddr = some [] := if_neg done

theorem Ordered.end_le (ordered : Ordered s ((front ++ [p]) ++ back)) :
    ∀ q ∈ back, s.eaddr p ≤ (s.seg q).base := by
  have apart := (pairwise_append.1 ordered.order).2.2
  exact apart p (mem_append_right _ (mem_singleton_self p))

/-- The loop unlocks the pieces on which the driver has succeeded. -/
theorem unlockLoop_eq (chain : s.chain.Holds (front ++ p :: back))
    (ordered : Ordered s (front ++ p :: back)) (base_le : (s.seg p).base ≤ raddr)
    (inside : raddr < s.eaddr p) (some_left : raddr < last) (nomap_ne : nomap ≠ 0) :
    unlockLoop s (walkOn s op nomap last (p :: back) raddr drv).stop
      (fuel + back.length + 2) p raddr =
      some (walkOn s op nomap last (p :: back) raddr drv).done := by
  induction back generalizing front p raddr drv with
  | nil =>
    rw [walkOn, if_neg (Nat.not_lt.2 base_le)]
    dsimp only
    obtain ⟨res, drv⟩ := op ⟨p, raddr, min (s.eaddr p) last - raddr⟩ drv
    dsimp only
    by_cases failed : res ≠ 0
    · rw [if_pos failed, Walk.done_failed failed]
      exact unlockLoop_end (Nat.lt_irrefl raddr)
    obtain rfl : res = 0 := not_not.1 failed
    rw [if_neg failed]
    by_cases ends : last ≤ s.eaddr p
    · rw [if_pos ends]
      change unlockLoop s last (fuel + 2) p raddr = _
      rw [unlockLoop_piece inside some_left, Nat.min_eq_right ends,
        unlockLoop_end (Nat.lt_irrefl last)]
      exact rfl
    · rw [if_neg ends]
      change unlockLoop s (s.eaddr p) (fuel + 2) p raddr = _
      rw [unlockLoop_piece inside inside, Nat.min_self, unlockLoop_end (Nat.lt_irrefl _),
        Nat.min_eq_left (Nat.le_of_lt (Nat.not_le.1 ends))]
      exact rfl
  | cons q back ih =>
    have next : s.chain.next p = some q := chain.neighbours.2
    have behind : s.eaddr p ≤ (s.seg q).base :=
      (pairwise_cons.1 (pairwise_append.1 ordered.order).2.1).1 q mem_cons_self
    have q_lt : (s.seg q).base < s.eaddr q := base_lt_eaddr ordered (by simp)
    rw [show fuel + (q :: back).length + 2 = fuel + back.length + 2 + 1 from rfl,
      walkOn, if_neg (Nat.not_lt.2 base_le)]
    dsimp only
    obtain ⟨res, drv⟩ := op ⟨p, raddr, min (s.eaddr p) last - raddr⟩ drv
    dsimp only
    by_cases failed : res ≠ 0
    · rw [if_pos failed, Walk.done_failed failed]
      exact unlockLoop_end (Nat.lt_irrefl raddr)
    obtain rfl : res = 0 := not_not.1 failed
    rw [if_neg failed]
    by_cases ends : last ≤ s.eaddr p
    · rw [if_pos ends]
      change unlockLoop s last (fuel + back.length + 2 + 1) p raddr = _
      rw [unlockLoop_piece inside some_left, Nat.min_eq_right ends,
        unlockLoop_end (Nat.lt_irrefl last)]
      exact rfl
    have beyond : s.eaddr p < last := Nat.not_le.1 ends
    rw [if_neg ends, Walk.done_cons]
    change unlockLoop s (walkOn s op nomap last (q :: back) (s.eaddr p) drv).stop _ p raddr = _
    by_cases abuts : s.eaddr p = (s.seg q).base
    · have split : front ++ p :: q :: back = (front ++ [p]) ++ q :: back := by simp
      rw [split] at chain ordered
      have later := @ih (front ++ [p]) q (s.eaddr p) drv chain ordered (Nat.le_of_eq abuts.symm)
        (by omega) beyond
      have ordered_back : Ordered s (q :: back) := ordered.sublist (sublist_append_right ..)
      have from_here : ∀ r ∈ q :: back, s.eaddr p < s.eaddr r := fun r r_mem =>
        Nat.lt_of_le_of_lt (ordered.end_le r r_mem) (base_lt_eaddr ordered_back r_mem)
      have walked := @walkOn_walked σ s (q :: back) (q :: back) op nomap (s.eaddr p) last drv
        ordered_back (fun _ mem => mem) from_here beyond nomap_ne
      have le_stop := walked.done.le
      rw [unlockLoop_piece inside (by omega), Nat.min_eq_left le_stop,
        unlockLoop_next (Nat.le_refl _) next (by omega), later, Nat.min_eq_left (by omega)]
      exact rfl
    · have hole : walkOn s op nomap last (q :: back) (s.eaddr p) drv =
          ⟨nomap, [], s.eaddr p, drv⟩ := if_pos (by omega)
      rw [hole]
      change unlockLoop s (s.eaddr p) (fuel + back.length + 2 + 1) p raddr = _
      rw [unlockLoop_piece inside inside, Nat.min_self, unlockLoop_end (Nat.lt_irrefl _),
        Nat.min_eq_left (Nat.le_of_lt beyond)]
      exact rfl

end Walks

end Sol25.Seglist
