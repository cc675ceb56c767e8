import Sol25.Seglist.Lockop

/-!
# Locking and unlocking again

`memcntl` of `syscall/memcntl.c` locks the pages of a range or of an address space, and if that
fails unlocks those that the bit map names.  In the bit map of a range every segment begins at the
first bit; in that of an address space each one begins behind the one before it, and `mem_unlock`
takes the number of a bit for the distance from the segment.
-/

namespace Sol25.Seglist

open List Bool Nat

def einval : ℤ := 22

def eperm : ℤ := 1

def protUser : BitVec 32 := 8

def validAttr : BitVec 32 := 0x37

def mclCurrent : BitVec 32 := 1

def mclFuture : BitVec 32 := 2

def State.segPages (s : State) (seg : ℕ) : ℕ := (s.seg seg).size / pageSize

/-- The loop of `as_ctl` over the segments of an address space. -/
def lockasLoop (k : Kernel) (s : State) (attr : BitVec 32) :
    ℕ → Option ℕ → ℕ → Drv → Option (ℤ × Drv)
  | 0, _, _, _ => none
  | _ + 1, none, _, drv => some (0, drv)
  | fuel + 1, some seg, pos, drv =>
    let (err, drv) := segvnLock k attr pos ⟨seg, (s.seg seg).base, (s.seg seg).size⟩ drv
    if err ≠ 0 then some (err, drv)
    else
      lockasLoop k s attr fuel (s.segp (s.seg seg).next (some seg)) (pos + s.segPages seg) drv

/-- `as_ctl` with `MC_LOCKAS` -/
def asCtlLockas (k : Kernel) (s : State) (attr arg : BitVec 32) (drv : Drv) : Option (ℤ × Drv) :=
  let drv := if arg &&& mclFuture ≠ 0 then { drv with paglck := true } else drv
  if arg &&& mclCurrent = 0 then some (0, drv)
  else lockasLoop k s attr (s.nsegs + 1) (s.segp s.list none) 0 drv

/-- The loops of `bt_range`: the first bit from one on that is set or not, or the end. -/
def btScan (bitmap : ℕ → Bool) (set : Bool) : ℕ → ℕ → ℕ
  | 0, inx => inx
  | n + 1, inx => if bitmap inx = set then inx else btScan bitmap set n (inx + 1)

def btRange (bitmap : ℕ → Bool) (pos1 nbits : ℕ) : Option (ℕ × ℕ) :=
  let inx := btScan bitmap true (nbits - pos1) pos1
  if inx = nbits then none else some (inx, btScan bitmap false (nbits - inx) inx - 1)

/-- The loop of `mem_unlock`. -/
def memUnlock (attr : BitVec 32) (addr nbits : ℕ) :
    ℕ → State → ℕ → Drv → Option (Drv × State)
  | 0, _, _, _ => none
  | fuel + 1, s, pos1, drv =>
    match btRange drv.lockmap pos1 nbits with
    | none => some (drv, s)
    | some (pos1, pos2) =>
      let size := (pos2 - pos1 + 1) * pageSize % 2 ^ 32
      let rangeStart := (addr + pos1 * pageSize) % 2 ^ 32
      (asCtl s rangeStart size .unlock (segvnUnlock attr) drv).bind fun (walk, s) =>
        memUnlock attr addr nbits fuel s (pos2 + 1) walk.drv

/-- The loop of `memcntl` that unlocks the segments of an address space again. -/
def unlockasLoop (attr : BitVec 32) :
    ℕ → State → Option ℕ → ℕ → ℕ → Drv → Option (Drv × State)
  | 0, _, _, _, _, _ => none
  | _ + 1, s, none, _, _, drv => some (drv, s)
  | fuel + 1, s, some seg, inx, npages, drv =>
    let npages := npages + s.segPages seg
    (memUnlock attr (pageMask (s.seg seg).base) npages (npages + 1) s inx drv).bind
      fun (drv, s) =>
        unlockasLoop attr fuel s (s.segp (s.seg seg).next (some seg))
          (inx + s.segPages seg) npages
          drv

/-- The commands of `memcntl` that lock pages. -/
inductive Cmd
  | lock
  | lockas
deriving DecidableEq

/-- The arguments of `memcntl`, whether the range is one of the user, and whether the caller is the
super-user. -/
structure Call where
  addr : ℕ
  len : ℕ
  cmd : Cmd
  arg : BitVec 32
  attr : BitVec 32
  mask : BitVec 32
  validUsrRange : Bool
  suser : Bool

/-- The error with which `memcntl` rejects a call. -/
def Call.rejected (c : Call) : Option ℤ :=
  if c.mask ≠ 0 then some einval
  else if c.cmd = .lockas ∧ (c.addr ≠ 0 ∨ c.len ≠ 0) then some einval
  else if c.cmd = .lock ∧ c.addr % pageSize ≠ 0 then some einval
  else if c.cmd = .lock ∧ c.validUsrRange = false then some enomem
  else if validAttr &&& c.attr ≠ c.attr then some einval
  else if c.attr &&& attrShared ≠ 0 ∧ c.attr &&& attrPrivate ≠ 0 then some einval
  else if c.suser = false then some eperm
  else if c.cmd = .lockas ∧ (c.arg &&& ~~~ (mclFuture ||| mclCurrent) ≠ 0 ∨ c.arg = 0) then
    some einval
  else none

/-- The attributes, with `PROT_USER` if there are any. -/
def Call.userAttr (c : Call) : BitVec 32 := if c.attr ≠ 0 then c.attr ||| protUser else c.attr

/-- `memcntl` with `MC_LOCK` or `MC_LOCKAS` -/
def memcntl (k : Kernel) (s : State) (c : Call) (drv : Drv) : Option (ℤ × Drv × State) :=
  match c.rejected with
  | some err => some (err, drv, s)
  | none =>
    let attr := c.userAttr
    let drv := { drv with lockmap := fun _ => false }
    match c.cmd with
    | .lockas =>
      match s.segp s.list none with
      | none => some (0, drv, s)
      | some _ =>
        (asCtlLockas k s attr c.arg drv).bind fun (err, drv) =>
          if err ≠ 0 then
            (unlockasLoop attr (s.nsegs + 1) s (s.segp s.list none) 0 0 drv).map
                fun (drv, s) =>
              (err, drv, s)
          else some (0, drv, s)
    | .lock =>
      let raddr := pageMask c.addr
      let rlen := roundSize c.addr c.len
      (asCtl s c.addr c.len .lock (segvnLock k attr 0) drv).bind fun (walk, s) =>
        if walk.res ≠ 0 then
          (memUnlock attr raddr (rlen / pageSize) (rlen / pageSize + 1) s 0 walk.drv).map
            fun (drv, s) => (walk.res, drv, s)
        else some (0, walk.drv, s)

/-! ### The pieces -/

section Pieces

variable {s : State} {l front back : List ℕ} {last raddr p q x y : ℕ} {piece : Piece}

/-- The pieces of a range along a list of segments, up to a hole. -/
def rangePieces (s : State) (last : ℕ) : List ℕ → ℕ → List Piece
  | [], _ => []
  | p :: back, raddr =>
    if raddr < (s.seg p).base then []
    else
      ⟨p, raddr, min (s.eaddr p) last - raddr⟩ ::
        if last ≤ s.eaddr p then [] else rangePieces s last back (s.eaddr p)

/-- The segments of an address space, each with its place in the bit map. -/
def asPieces (s : State) : List ℕ → ℕ → List (Piece × ℕ)
  | [], _ => []
  | p :: l, pos => (⟨p, (s.seg p).base, (s.seg p).size⟩, pos) :: asPieces s l (pos + s.segPages p)

/-- The page of a segment. -/
def Piece.HasPage (piece : Piece) (p y : ℕ) : Prop :=
  p = piece.seg ∧ piece.first ≤ y ∧ y < piece.first + piece.count

def State.Paged (s : State) (l : List ℕ) : Prop := ∀ p ∈ l, (s.area p).Aligned

theorem State.Paged.ends (paged : s.Paged l) (mem : p ∈ l) : pageSize ∣ s.eaddr p :=
  (paged p mem).eaddr

theorem hasPage_iff (starts : pageSize ∣ piece.addr) (ends : pageSize ∣ piece.addr + piece.size) :
    piece.HasPage p y ↔
      p = piece.seg ∧ piece.addr ≤ y * pageSize ∧ y * pageSize < piece.addr + piece.size := by
  obtain ⟨a, addr_eq⟩ := starts
  obtain ⟨b, end_eq⟩ := ends
  rw [Piece.HasPage, Piece.first, Piece.count, end_eq, addr_eq,
    Nat.mul_div_cancel_left _ pageSize_pos, Nat.mul_div_cancel_left _ pageSize_pos]
  simp only [pageSize] at addr_eq end_eq ⊢
  omega

theorem rangePieces_segs : List.Sublist ((rangePieces s last back raddr).map Piece.seg) back := by
  induction back generalizing raddr with
  | nil => exact Sublist.refl []
  | cons p back ih =>
    rw [rangePieces]
    split_ifs
    · exact nil_sublist _
    · exact List.Sublist.cons_cons p (nil_sublist _)
    · exact List.Sublist.cons_cons p ih

structure RangePiece (s : State) (l : List ℕ) (raddr last : ℕ) (piece : Piece) : Prop where
  inside : Inside s l piece
  start : piece.addr = max (s.seg piece.seg).base raddr
  le_last : piece.addr + piece.size ≤ last
  starts : pageSize ∣ piece.addr
  ends : pageSize ∣ piece.addr + piece.size

theorem RangePiece.start_le (spec : RangePiece s l raddr last piece) : raddr ≤ piece.addr := by
  rw [spec.start]
  exact Nat.le_max_right ..

theorem rangePieces_spec (ordered : Ordered s back) (paged : s.Paged back) (mem : ∀ p ∈ back, p ∈ l)
    (above : ∀ p ∈ back, raddr < s.eaddr p) (le : raddr ≤ last) (starts : pageSize ∣ raddr)
    (ends : pageSize ∣ last) :
    ∀ piece ∈ rangePieces s last back raddr, RangePiece s l raddr last piece := by
  induction back generalizing raddr with
  | nil => exact fun _ none_here => nomatch none_here
  | cons p back ih =>
    intro piece piece_mem
    have lt := above p mem_cons_self
    have p_ends := paged.ends mem_cons_self
    rw [rangePieces] at piece_mem
    by_cases hole : raddr < (s.seg p).base
    · rw [if_pos hole] at piece_mem
      exact nomatch piece_mem
    rw [if_neg hole] at piece_mem
    have end_eq : raddr + (min (s.eaddr p) last - raddr) = min (s.eaddr p) last := by omega
    rcases mem_cons.1 piece_mem with rfl | piece_mem
    · refine ⟨⟨mem p mem_cons_self, Nat.not_lt.1 hole, ?_⟩, ?_, ?_, starts, ?_⟩
      · dsimp only
        omega
      · exact (Nat.max_eq_right (Nat.not_lt.1 hole)).symm
      · dsimp only
        omega
      · dsimp only
        rw [end_eq]
        rcases Nat.le_total (s.eaddr p) last with shorter | longer
        · rwa [Nat.min_eq_left shorter]
        · rwa [Nat.min_eq_right longer]
    · by_cases whole : last ≤ s.eaddr p
      · rw [if_pos whole] at piece_mem
        exact nomatch piece_mem
      rw [if_neg whole] at piece_mem
      have behind := (pairwise_cons.1 ordered.order).1
      have later := ih (ordered.sublist (sublist_cons_self p back))
        (fun q q_mem => paged q (mem_cons_of_mem p q_mem))
        (fun q q_mem => mem q (mem_cons_of_mem p q_mem))
        (fun q q_mem => Nat.lt_of_le_of_lt (behind q q_mem)
          (base_lt_eaddr ordered (mem_cons_of_mem p q_mem)))
        (Nat.le_of_not_le whole) p_ends piece piece_mem
      have seg_mem : piece.seg ∈ back := rangePieces_segs.subset (List.mem_map_of_mem piece_mem)
      have apart := behind piece.seg seg_mem
      refine ⟨later.inside, ?_, later.le_last, later.starts, later.ends⟩
      have start := later.start
      omega

/-- A range without a hole is covered by its pieces. -/
theorem rangePieces_cover (ordered : Ordered s back) (above : ∀ p ∈ back, raddr < s.eaddr p)
    (mapped : ∀ x, raddr ≤ x → x < last → ∃ p ∈ back, s.Contains p x) (x_le : raddr ≤ x)
    (x_lt : x < last) :
    ∃ piece ∈ rangePieces s last back raddr, piece.addr ≤ x ∧ x < piece.addr + piece.size := by
  induction back generalizing raddr with
  | nil =>
    obtain ⟨p, none_here, -⟩ := mapped x x_le x_lt
    exact nomatch none_here
  | cons p back ih =>
    have lt := above p mem_cons_self
    have behind := (pairwise_cons.1 ordered.order).1
    have base_le : (s.seg p).base ≤ raddr := by
      obtain ⟨q, q_mem, q_le, -⟩ := mapped raddr (Nat.le_refl _) (by omega)
      rcases mem_cons.1 q_mem with rfl | q_mem
      · exact q_le
      · have apart := behind q q_mem
        omega
    rw [rangePieces, if_neg (Nat.not_lt.2 base_le)]
    by_cases here : x < s.eaddr p
    · refine ⟨_, mem_cons_self, x_le, ?_⟩
      dsimp only
      omega
    · have not_whole : ¬ last ≤ s.eaddr p := by omega
      rw [if_neg not_whole]
      obtain ⟨piece, piece_mem, within⟩ := ih (ordered.sublist (sublist_cons_self p back))
        (fun q q_mem => Nat.lt_of_le_of_lt (behind q q_mem)
          (base_lt_eaddr ordered (mem_cons_of_mem p q_mem)))
        (fun z z_le z_lt => by
          obtain ⟨q, q_mem, contains⟩ := mapped z (by omega) z_lt
          rcases mem_cons.1 q_mem with rfl | q_mem
          · exact absurd contains.2 (Nat.not_lt.2 z_le)
          · exact ⟨q, q_mem, contains⟩) (Nat.not_lt.1 here)
      exact ⟨piece, mem_cons_of_mem _ piece_mem, within⟩

/-- Locking along a walk. -/
theorem walkOn_lock {k : Kernel} {attr : BitVec 32} {nomap : ℤ} {drv : Drv} :
    (walkOn s (segvnLock k attr 0) nomap last back raddr drv).drv =
      (lockAll k attr ((rangePieces s last back raddr).map fun piece => (piece, 0)) drv).2 := by
  induction back generalizing raddr drv with
  | nil => rfl
  | cons p back ih =>
    rw [walkOn, rangePieces]
    by_cases hole : raddr < (s.seg p).base
    · rw [if_pos hole, if_pos hole]
      rfl
    rw [if_neg hole, if_neg hole, map_cons, lockAll]
    dsimp only
    obtain ⟨res, drv⟩ := segvnLock k attr 0 ⟨p, raddr, min (s.eaddr p) last - raddr⟩ drv
    dsimp only
    by_cases failed : res ≠ 0
    · rw [if_pos failed, if_pos failed]
    rw [if_neg failed, if_neg failed]
    by_cases whole : last ≤ s.eaddr p
    · rw [if_pos whole, if_pos whole]
      rfl
    · rw [if_neg whole, if_neg whole]
      exact ih

/-- Unlocking along a walk. -/
theorem walkOn_unlock {attr : BitVec 32} {nomap : ℤ} {drv : Drv} :
    Unlocked attr (fun p y => ∃ piece ∈ rangePieces s last back raddr, piece.HasPage p y) drv
      (walkOn s (ignored (segvnUnlock attr)) nomap last back raddr drv).drv := by
  induction back generalizing raddr drv with
  | nil =>
    refine Unlocked.nothing ?_
    rintro _ _ ⟨_, none_here, _⟩
    cases none_here
  | cons p back ih =>
    rw [walkOn, rangePieces]
    by_cases hole : raddr < (s.seg p).base
    · rw [if_pos hole, if_pos hole]
      refine Unlocked.nothing ?_
      rintro _ _ ⟨_, none_here, _⟩
      cases none_here
    have first := (@segvnUnlock_spec attr drv ⟨p, raddr, min (s.eaddr p) last - raddr⟩).1
    rw [if_neg hole, if_neg hole]
    dsimp only [ignored]
    rw [if_neg (not_not.2 rfl)]
    by_cases whole : last ≤ s.eaddr p
    · rw [if_pos whole, if_pos whole]
      refine first.congr fun q y => ?_
      rw [exists_mem_cons_iff]
      exact (or_iff_left (by rintro ⟨_, ⟨⟩, _⟩)).symm
    · rw [if_neg whole, if_neg whole]
      refine (first.trans (@ih (s.eaddr p) _)).congr fun q y => ?_
      rw [exists_mem_cons_iff]
      exact Iff.rfl

end Pieces

/-! ### `as_ctl` on a range -/

section Ctl

variable {σ : Type} {s s' : State} {l front back : List ℕ} {addr size n p x y : ℕ} {op : SegOp σ}
  {func : Func} {attr : BitVec 32}

/-- The segments that end above an address. -/
def State.above (s : State) (l : List ℕ) (addr : ℕ) : List ℕ :=
  l.dropWhile fun p => s.eaddr p ≤ addr

theorem Splits.above_eq (splits : Splits s addr front back) :
    s.above (front ++ back) addr = back := by
  rw [State.above, dropWhile_append_of_pos fun p mem => decide_eq_true (splits.below p mem)]
  cases back with
  | nil => rfl
  | cons b back =>
    refine dropWhile_cons_of_neg ?_
    rw [decide_eq_true_eq]
    exact Nat.not_le.2 (splits.above b mem_cons_self)

theorem SameAreas.rangePieces (same : SameAreas s s') (last : ℕ) (back : List ℕ) (raddr : ℕ) :
    rangePieces s' last back raddr = rangePieces s last back raddr := by
  induction back generalizing raddr with
  | nil => rfl
  | cons p back ih => rw [Seglist.rangePieces, Seglist.rangePieces, same.eaddr, (same p).1, ih]

/-- Where a walk over a range takes the driver's state. -/
theorem Held.asCtl_spec (held : Held s l) (aligned : pageSize ∣ addr) (addr_lt : addr < 2 ^ 32)
    (drv : σ) :
    ∃ walk s', asCtl s addr size func op drv = some (walk, s') ∧ Held s' l ∧ SameAreas s s' ∧
      (roundSize addr size = 0 ∨ 2 ^ 32 ≤ addr + roundSize addr size → walk.drv = drv) ∧
      (0 < roundSize addr size → addr + roundSize addr size < 2 ^ 32 →
        walk.drv = (walkOn s' (ctlOp func op) enomem (addr + roundSize addr size) (s.above l addr)
          addr drv).drv) := by
  obtain ⟨front, back, s', rfl, splits, finds, held', same⟩ := held.asFindseg addr false
  have segat : Seglist.asSegat s addr =
      some (back.head?.filter fun seg => s'.Contains seg addr, s') := by
    have is_found : found (front ++ back) back false = back.head? := if_neg Bool.false_ne_true
    rw [Seglist.asSegat, finds, is_found]
    rfl
  have rsize_lt : roundSize addr size < 2 ^ 32 := mod_lt _ (by decide)
  rw [splits.above_eq, asCtl, checkedWalk, pageMask_of_dvd aligned, segat]
  generalize roundSize addr size = rsize at rsize_lt
  by_cases wraps : (addr + rsize) % 2 ^ 32 < addr
  · rw [if_pos wraps]
    refine ⟨_, s, rfl, held, fun _ => ⟨rfl, rfl⟩, fun _ => rfl, fun _ range => ?_⟩
    rw [mod_eq_of_lt range] at wraps
    omega
  have range : addr + rsize < 2 ^ 32 := by
    by_contra beyond
    have beyond := Nat.not_lt.1 beyond
    rw [mod_eq_sub_mod beyond, mod_eq_of_lt (by omega)] at wraps
    omega
  rw [if_neg wraps, Option.bind_some]
  cases back with
  | nil => exact ⟨_, s', rfl, held', same, fun _ => rfl, fun _ _ => rfl⟩
  | cons b back =>
    have b_above := splits.above b mem_cons_self
    by_cases contains : s'.Contains b addr
    · have kept : (some b).filter (fun seg => decide (s'.Contains seg addr)) = some b :=
        if_pos (decide_eq_true contains)
      rw [head?_cons, kept]
      dsimp only
      obtain ⟨-, ordered, chain, nsegs⟩ := held'.represents
      by_cases empty : rsize = 0
      · rw [empty, rangeLoop_done]
        exact ⟨_, s', rfl, held', same, fun _ => rfl, fun some_left => (by cases some_left)⟩
      · have enough : s'.nsegs + 1 = front.length + back.length + 2 := by
          rw [nsegs, length_append, length_cons]
          omega
        have loops := @rangeLoop_eq σ s' front back (ctlOp func op) enomem front.length b addr
          (addr + rsize) drv chain ordered contains.1 contains.2 (by omega) range
        rw [Nat.add_sub_cancel_left, ← enough] at loops
        rw [loops]
        refine ⟨_, s', rfl, held', same, fun out => ?_, fun _ _ => rfl⟩
        omega
    · have none_kept : (some b).filter (fun seg => decide (s'.Contains seg addr)) = none :=
        if_neg fun kept => contains (of_decide_eq_true kept)
      have hole : addr < (s'.seg b).base := by
        rw [State.Contains, same.eaddr] at contains
        omega
      rw [head?_cons, none_kept]
      refine ⟨_, s', rfl, held', same, fun _ => rfl, fun _ _ => ?_⟩
      rw [walkOn, if_pos hole]

end Ctl

/-! ### Unlocking runs of pages -/

section Unlocking

variable {s s' : State} {l : List ℕ} {a n p q x y : ℕ} {attr : BitVec 32} {drv drv' : Drv}
  {want want' : ℕ → Prop} {pages pages' : ℕ → ℕ → Prop}

def State.HasPage (s : State) (p y : ℕ) : Prop := s.Contains p (y * pageSize)

/-- Unlocking some pages has gone over pages of segments among them, and over all of them if they
are all mapped. -/
structure Seeks (s : State) (l : List ℕ) (want : ℕ → Prop) (pages : ℕ → ℕ → Prop) : Prop where
  only : ∀ p y, pages p y → want y ∧ p ∈ l ∧ s.HasPage p y
  all : (∀ y, want y → ∃ p ∈ l, s.HasPage p y) → ∀ p ∈ l, ∀ y, want y → s.HasPage p y → pages p y

theorem Seeks.or (first : Seeks s l want pages) (second : Seeks s l want' pages') :
    Seeks s l (fun y => want y ∨ want' y) (fun p y => pages p y ∨ pages' p y) := by
  refine ⟨fun p y there => ?_, fun mapped p mem y wanted has => ?_⟩
  · rcases there with there | there
    · obtain ⟨wanted, has⟩ := first.only p y there
      exact ⟨.inl wanted, has⟩
    · obtain ⟨wanted, has⟩ := second.only p y there
      exact ⟨.inr wanted, has⟩
  · rcases wanted with wanted | wanted
    · exact .inl (first.all (fun z there => mapped z (.inl there)) p mem y wanted has)
    · exact .inr (second.all (fun z there => mapped z (.inr there)) p mem y wanted has)

theorem Seeks.congr (seeks : Seeks s l want pages) (iff : ∀ y, want y ↔ want' y) :
    Seeks s l want' pages := by
  obtain rfl : want = want' := funext fun y => propext (iff y)
  exact seeks

theorem SameAreas.hasPage (same : SameAreas s s') : s'.HasPage p y ↔ s.HasPage p y :=
  same.contains p (y * pageSize)

theorem SameAreas.seeks (same : SameAreas s s') (seeks : Seeks s' l want pages) :
    Seeks s l want pages := by
  have iff : ∀ p y, s'.HasPage p y ↔ s.HasPage p y := fun p y => same.hasPage
  obtain ⟨only, all⟩ := seeks
  simp only [iff] at only all
  exact ⟨only, all⟩

theorem State.Paged.contains (paged : s.Paged l) (mem : p ∈ l) (has : s.HasPage p y)
    (in_page : y * pageSize ≤ x) (lt : x < (y + 1) * pageSize) : s.Contains p x := by
  obtain ⟨k, end_eq⟩ := paged.ends mem
  obtain ⟨base_le, lt_end⟩ := has
  rw [State.Contains, end_eq] at *
  simp only [pageSize] at *
  omega

/-- `MC_UNLOCK` on some pages. -/
theorem Held.unlock_pages (held : Held s l) (paged : s.Paged l)
    (below : ∀ p ∈ l, s.eaddr p < 2 ^ 32) (a_lt : a < 2 ^ 20) (n_lt : n < 2 ^ 20) (positive : 0 < n)
    (drv : Drv) :
    ∃ walk s', asCtl s (a * pageSize) (n * pageSize) .unlock (segvnUnlock attr) drv =
        some (walk, s') ∧ Held s' l ∧ SameAreas s s' ∧
      ∃ pages, Unlocked attr pages drv walk.drv ∧
        Seeks s l (fun y => ∃ i < n, y = (a + i) % 2 ^ 20) pages := by
  have aligned : pageSize ∣ a * pageSize := Nat.dvd_mul_left ..
  have addr_lt : a * pageSize < 2 ^ 32 := by
    simp only [pageSize]
    omega
  have rsize_eq : roundSize (a * pageSize) (n * pageSize) = n * pageSize := by
    have fits : n * pageSize ≤ 2 ^ 32 - pageSize := by
      simp only [pageSize]
      omega
    rw [roundSize_eq aligned addr_lt (by simp only [pageSize]; omega), if_pos fits]
    simp only [roundUp, pageSize]
    omega
  obtain ⟨walk, s', ctl, held', same, none_done, done⟩ := @Held.asCtl_spec Drv s l
    (a * pageSize) (n * pageSize) (segvnUnlock attr) .unlock held aligned addr_lt drv
  rw [rsize_eq] at none_done done
  refine ⟨walk, s', ctl, held', same, ?_⟩
  by_cases range : a * pageSize + n * pageSize < 2 ^ 32
  · have range' : a + n < 2 ^ 20 := by
      simp only [pageSize] at range
      omega
    have want_iff : ∀ y, (∃ i < n, y = (a + i) % 2 ^ 20) ↔ a ≤ y ∧ y < a + n := by
      intro y
      constructor
      · rintro ⟨i, lt, rfl⟩
        rw [mod_eq_of_lt (by omega)]
        omega
      · intro within
        exact ⟨y - a, by omega, by rw [mod_eq_of_lt (by omega)]; omega⟩
    obtain ⟨front, back, rfl, splits⟩ := held.ordered.exists_splits (a * pageSize)
    rw [splits.above_eq] at done
    have back_ordered : Ordered s back := held.ordered.sublist (sublist_append_right ..)
    have back_mem : ∀ p ∈ back, p ∈ front ++ back := fun p mem => mem_append_right front mem
    have pieces := rangePieces_spec back_ordered (fun p mem => paged p (back_mem p mem)) back_mem
      splits.above (Nat.le_add_right _ (n * pageSize)) aligned
      (Nat.dvd_add aligned (Nat.dvd_mul_left ..))
    have unlocked := @walkOn_unlock s' back (a * pageSize + n * pageSize) (a * pageSize) attr enomem
      drv
    have positive' : 0 < n * pageSize := Nat.mul_pos positive pageSize_pos
    have done := done positive' range
    simp only [ctlOp] at done
    rw [← done] at unlocked
    refine ⟨_, unlocked, ?_⟩
    simp only [want_iff, same.rangePieces]
    refine ⟨?_, fun mapped p mem y wanted has => ?_⟩
    · rintro p y ⟨piece, piece_mem, has⟩
      have piece_spec := pieces piece piece_mem
      obtain ⟨rfl, le, lt⟩ := (hasPage_iff piece_spec.starts piece_spec.ends).1 has
      have start_le := piece_spec.start_le
      have le_last := piece_spec.le_last
      obtain ⟨seg_mem, base_le, le_end⟩ := piece_spec.inside
      refine ⟨?_, seg_mem, by omega, by omega⟩
      simp only [pageSize] at *
      omega
    · have covered : ∀ x, a * pageSize ≤ x → x < a * pageSize + n * pageSize →
          ∃ p ∈ back, s.Contains p x := by
        intro x x_le x_lt
        obtain ⟨q, q_mem, q_has⟩ := mapped (x / pageSize) (by
          simp only [pageSize] at *
          omega)
        have contains : s.Contains q x := paged.contains q_mem q_has
          (by simp only [pageSize]; omega) (by simp only [pageSize]; omega)
        rcases mem_append.1 q_mem with early | late
        · have before := splits.below q early
          have lt_end := contains.2
          omega
        · exact ⟨q, late, contains⟩
      obtain ⟨piece, piece_mem, le, lt⟩ := rangePieces_cover back_ordered splits.above covered
        (mul_le_mul_right pageSize wanted.1)
        (show y * pageSize < a * pageSize + n * pageSize by
          rw [← Nat.add_mul]
          exact Nat.mul_lt_mul_of_pos_right wanted.2 pageSize_pos)
      have piece_spec := pieces piece piece_mem
      obtain ⟨seg_mem, base_le, le_end⟩ := piece_spec.inside
      have piece_has : s.HasPage piece.seg y := ⟨by omega, by omega⟩
      have same_seg := held.ordered.contains_unique mem seg_mem has piece_has
      exact ⟨piece, piece_mem, (hasPage_iff piece_spec.starts piece_spec.ends).2 ⟨same_seg, le, lt⟩⟩
  · rw [none_done (.inr (Nat.not_lt.1 range))]
    refine ⟨fun _ _ => False, Unlocked.nothing fun _ _ => not_false,
      fun _ _ impossible => impossible.elim,
      fun mapped _ _ _ _ _ => ?_⟩
    -- The last page of all would have to be mapped.
    have beyond : 2 ^ 20 ≤ a + n := by
      simp only [pageSize] at range
      omega
    obtain ⟨p, mem, has⟩ := mapped (2 ^ 20 - 1) ⟨2 ^ 20 - 1 - a, by omega, by omega⟩
    obtain ⟨k, end_eq⟩ := paged.ends mem
    have lt_end := has.2
    have end_lt := below p mem
    rw [end_eq] at lt_end end_lt
    simp only [pageSize] at lt_end end_lt
    omega

/-! ### `mem_unlock` -/

theorem btScan_spec (bitmap : ℕ → Bool) (set : Bool) (n inx : ℕ) :
    inx ≤ btScan bitmap set n inx ∧ btScan bitmap set n inx ≤ inx + n ∧
      (∀ i, inx ≤ i → i < btScan bitmap set n inx → bitmap i ≠ set) ∧
      (btScan bitmap set n inx < inx + n → bitmap (btScan bitmap set n inx) = set) := by
  induction n generalizing inx with
  | zero =>
    rw [btScan]
    refine ⟨Nat.le_refl _, Nat.le_refl _, fun i le lt => ?_, fun lt => ?_⟩
    · omega
    · omega
  | succ n ih =>
    rw [btScan]
    by_cases here : bitmap inx = set
    · rw [if_pos here]
      refine ⟨Nat.le_refl _, by omega, fun i le lt => ?_, fun _ => here⟩
      omega
    · rw [if_neg here]
      obtain ⟨le, le_end, between, found⟩ := ih (inx + 1)
      refine ⟨by omega, by omega, fun i i_le i_lt => ?_, fun lt => found (by omega)⟩
      by_cases first : i = inx
      · rwa [first]
      · exact between i (by omega) i_lt

/-- `bt_range` finds the first run of bits. -/
theorem btRange_spec {bitmap : ℕ → Bool} {pos1 nbits : ℕ} (le : pos1 ≤ nbits) :
    (btRange bitmap pos1 nbits = none ∧ ∀ i, pos1 ≤ i → i < nbits → bitmap i = false) ∨
      ∃ first last, btRange bitmap pos1 nbits = some (first, last) ∧ pos1 ≤ first ∧ first ≤ last ∧
        last < nbits ∧ (∀ i, pos1 ≤ i → i < first → bitmap i = false) ∧
        ∀ i, first ≤ i → i ≤ last → bitmap i = true := by
  obtain ⟨first_le, le_end, unset, found⟩ := btScan_spec bitmap true (nbits - pos1) pos1
  rw [btRange]
  generalize btScan bitmap true (nbits - pos1) pos1 = first at first_le le_end unset found
  by_cases at_end : first = nbits
  · rw [if_pos at_end]
    refine .inl ⟨rfl, fun i i_le i_lt => eq_false_iff.2 (unset i i_le (by omega))⟩
  · rw [if_neg at_end]
    obtain ⟨last_le, last_end, set, -⟩ := btScan_spec bitmap false (nbits - first) first
    have is_set : bitmap first = true := found (by omega)
    have first_set : btScan bitmap false (nbits - first) first ≠ first := by
      intro stays
      obtain ⟨m, count⟩ : ∃ m, nbits - first = m + 1 := ⟨nbits - first - 1, by omega⟩
      have steps := (btScan_spec bitmap false m (first + 1)).1
      rw [count, btScan, is_set, if_neg true_eq_false_eq_False] at stays
      omega
    refine .inr ⟨first, _, rfl, first_le, by omega, by omega,
      fun i i_le i_lt => eq_false_iff.2 (unset i i_le i_lt), fun i i_le i_lt => ?_⟩
    exact eq_true_of_not_eq_false (set i i_le (by omega))

theorem SameAreas.paged (same : SameAreas s s') (paged : s.Paged l) : s'.Paged l := by
  intro p mem
  have aligned := paged p mem
  rwa [Area.Aligned, State.area, ← (same p).1, ← (same p).2] at aligned

theorem SameAreas.below (same : SameAreas s s') (below : ∀ p ∈ l, s.eaddr p < 2 ^ 32) :
    ∀ p ∈ l, s'.eaddr p < 2 ^ 32 := by
  intro p mem
  rw [same.eaddr]
  exact below p mem

/-- `mem_unlock` seeks the pages at the distance of the bits from an address. -/
theorem Held.memUnlock {b nbits pos fuel : ℕ} (held : Held s l) (paged : s.Paged l)
    (below : ∀ p ∈ l, s.eaddr p < 2 ^ 32) (pos_le : pos ≤ nbits) (nbits_lt : nbits < 2 ^ 20)
    (enough : nbits - pos < fuel) :
    ∃ drv' s', memUnlock attr (b * pageSize) nbits fuel s pos drv = some (drv', s') ∧ Held s' l ∧
      SameAreas s s' ∧ ∃ pages, Unlocked attr pages drv drv' ∧
        Seeks s l (fun y => ∃ i, pos ≤ i ∧ i < nbits ∧ drv.lockmap i = true ∧
          y = (b + i) % 2 ^ 20) pages := by
  induction fuel generalizing s pos drv with
  | zero => exact absurd enough (not_lt_zero _)
  | succ fuel ih =>
    rw [Seglist.memUnlock]
    rcases @btRange_spec drv.lockmap pos nbits pos_le with
      ⟨none_left, unset⟩ | ⟨first, last, found, pos_le_first, first_le, last_lt, before, set⟩
    · rw [none_left]
      refine ⟨drv, s, rfl, held, fun _ => ⟨rfl, rfl⟩, fun _ _ => False,
        Unlocked.nothing fun _ _ => not_false, fun _ _ impossible => impossible.elim, ?_⟩
      rintro - p - y ⟨i, le, lt, is_set, -⟩ -
      exact false_ne_true ((unset i le lt).symm.trans is_set)
    · have start_eq : (b * pageSize + first * pageSize) % 2 ^ 32 =
          (b + first) % 2 ^ 20 * pageSize := by
        simp only [pageSize]
        omega
      have size_eq : (last - first + 1) * pageSize % 2 ^ 32 = (last - first + 1) * pageSize := by
        refine mod_eq_of_lt ?_
        simp only [pageSize]
        omega
      obtain ⟨walk, s₁, ctl, held₁, same₁, pages₁, unlocked₁, seeks₁⟩ :=
        @Held.unlock_pages s l ((b + first) % 2 ^ 20) (last - first + 1) attr held paged below
          (mod_lt _ (by decide)) (by omega) (by omega) drv
      obtain ⟨drv', s', rest, held', same', pages', unlocked', seeks'⟩ := @ih s₁ walk.drv
        (last + 1) held₁ (same₁.paged paged) (same₁.below below) (by omega) (by omega)
      rw [found]
      dsimp only
      rw [start_eq, size_eq, ctl, Option.bind_some, rest]
      refine ⟨drv', s', rfl, held', same₁.trans same', _, unlocked₁.trans unlocked', ?_⟩
      refine (seeks₁.or (same₁.seeks seeks')).congr fun y => ?_
      rw [unlocked₁.lockmap]
      constructor
      · rintro (⟨i, lt, rfl⟩ | ⟨i, le, lt, is_set, rfl⟩)
        · refine ⟨first + i, by omega, by omega, set (first + i) (by omega) (by omega), ?_⟩
          rw [mod_add_mod, Nat.add_assoc]
        · exact ⟨i, by omega, lt, is_set, rfl⟩
      · rintro ⟨i, le, lt, is_set, rfl⟩
        by_cases early : i < first
        · exact absurd ((before i le early).symm.trans is_set) false_ne_true
        by_cases here : i ≤ last
        · refine .inl ⟨i - first, by omega, ?_⟩
          rw [mod_add_mod, Nat.add_assoc, add_sub_of_le (Nat.not_lt.1 early)]
        · exact .inr ⟨i, by omega, lt, is_set, rfl⟩

end Unlocking

end Sol25.Seglist
