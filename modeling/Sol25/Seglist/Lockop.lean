import Sol25.Seglist.RangeLaw

/-!
# Locking the pages of a segment

`segvn_lockop` of `vm/seg_vn.c` locks or unlocks the pages of a piece of a segment and notes in a
bit map which ones it has locked.  What the rest of the kernel answers is given for each page.
-/

namespace Sol25.Seglist

open Function List

/-- `struct vpage`; the advice is left out. -/
structure Vpage where
  prot : BitVec 32
  pplock : Bool
deriving DecidableEq

/-- `struct segvn_data`: what locking reads and changes.  `vpage` and `amp` give the page and
whether there is an anon slot for it, by the number of the page in the address space. -/
structure Svd where
  shared : Bool
  prot : BitVec 32
  pageprot : Bool
  vpage : Option (ℕ → Vpage)
  vp : Bool
  noreserve : Bool
  amp : Option (ℕ → Bool)

/-- The data of the segments, the bit map, and `a_paglck`. -/
structure Drv where
  svd : ℕ → Svd
  lockmap : ℕ → Bool
  paglck : Bool

/-- What other parts of the kernel answer for a page of a segment: `anon_zero`, `VOP_GETPAGE` and
`VOP_GETATTR` succeed, the page begins within the file, and `page_pp_lock` succeeds. -/
structure Kernel where
  anonZero : ℕ → ℕ → Bool
  getpage : ℕ → ℕ → Bool
  getattr : ℕ → ℕ → Bool
  within : ℕ → ℕ → Bool
  ppLock : ℕ → ℕ → Bool

/-- `SHARED` -/
def attrShared : BitVec 32 := 0x10

/-- `PRIVATE` -/
def attrPrivate : BitVec 32 := 0x20

def eio : ℤ := 5

def eagain : ℤ := 11

def attrProt (attr : BitVec 32) : BitVec 32 := attr &&& ~~~ (attrShared ||| attrPrivate)

namespace Svd

/-- The segment is not one that the attributes ask for. -/
def Ignored (svd : Svd) (attr : BitVec 32) : Prop :=
  attr ≠ 0 ∧ (svd.shared ≠ decide (attr &&& attrShared ≠ 0) ∨
    svd.pageprot = false ∧ svd.prot ≠ attrProt attr)

instance (svd : Svd) (attr : BitVec 32) : Decidable (svd.Ignored attr) :=
  inferInstanceAs (Decidable (_ ∧ (_ ∨ _ ∧ _)))

/-- A page, as `segvn_vpage` would set it up. -/
def page (svd : Svd) (x : ℕ) : Vpage := svd.vpage.elim ⟨svd.prot, false⟩ fun vpage => vpage x

def slot (svd : Svd) (x : ℕ) : Bool := svd.amp.elim false fun anon => anon x

def segvnVpage (svd : Svd) : Svd :=
  match svd.vpage with
  | none => { svd with pageprot := true, vpage := some fun _ => ⟨svd.prot, false⟩ }
  | some _ => svd

/-- What locking sets up before its loop: the pages, and a map for anonymous ones. -/
def prepared (svd : Svd) : Svd :=
  let svd := svd.segvnVpage
  if svd.amp = none ∧ svd.vp = false then { svd with amp := some fun _ => false } else svd

/-- A page with another lock. -/
def setLock (svd : Svd) (x : ℕ) (pplock : Bool) : Svd :=
  { svd with vpage := svd.vpage.map fun vpage => update vpage x { vpage x with pplock } }

/-- A page with an anon slot. -/
def setSlot (svd : Svd) (x : ℕ) : Svd :=
  { svd with amp := svd.amp.map fun anon => update anon x true }

/-- The page is one that the attributes ask for. -/
def Wanted (svd : Svd) (attr : BitVec 32) (x : ℕ) : Prop :=
  attr = 0 ∨ (svd.page x).prot = attrProt attr

instance (svd : Svd) (attr : BitVec 32) (x : ℕ) : Decidable (svd.Wanted attr x) :=
  inferInstanceAs (Decidable (_ ∨ _))

/-- There is no anon slot for the page, and no swap space reserved for one: `segvn_lockop` goes on
to the next page. -/
def Passed (svd : Svd) (x : ℕ) : Prop :=
  svd.amp ≠ none ∧ svd.slot x = false ∧ svd.vp = false ∧ svd.noreserve = true

instance (svd : Svd) (x : ℕ) : Decidable (svd.Passed x) :=
  inferInstanceAs (Decidable (_ ∧ _ ∧ _ ∧ _))

end Svd

/-- A segment with other data. -/
def Drv.set (drv : Drv) (seg : ℕ) (svd : Svd) : Drv := { drv with svd := update drv.svd seg svd }

/-- The body of the loop of `segvn_lockop` for `MC_LOCK`, from `VOP_GETPAGE` on. -/
def lockFrame (k : Kernel) (seg x pos : ℕ) (svd : Svd) (drv : Drv) : Option ℤ × Drv :=
  if k.getpage seg x = false then
    if svd.vp = true then
      if k.getattr seg x = false then (some eio, drv)
      else if k.within seg x = true then (some eio, drv)
      else (some 0, drv)
    else (some eio, drv)
  else if k.ppLock seg x = true then
    (none, { drv.set seg (svd.setLock x true) with
      lockmap := update drv.lockmap pos true })
  else (some eagain, drv)

/-- The body of the loop of `segvn_lockop` for `MC_LOCK`: what it returns, if it returns. -/
def lockPage (k : Kernel) (attr : BitVec 32) (seg x pos : ℕ) (drv : Drv) : Option ℤ × Drv :=
  let svd := drv.svd seg
  if svd.Wanted attr x ∧ (svd.page x).pplock = false then
    let absent := svd.vp = false ∧ svd.noreserve = false ∧ svd.amp ≠ none ∧ svd.slot x = false
    if absent ∧ k.anonZero seg x = false then (some enomem, drv)
    else
      let svd := if absent then svd.setSlot x else svd
      let drv := drv.set seg svd
      if svd.Passed x then (none, drv) else lockFrame k seg x pos svd drv
  else (none, drv)

/-- The loop of `segvn_lockop` for `MC_LOCK`, over some pages from one on. -/
def lockLoop (k : Kernel) (attr : BitVec 32) (seg : ℕ) : ℕ → ℕ → ℕ → Drv → ℤ × Drv
  | 0, _, _, drv => (0, drv)
  | n + 1, x, pos, drv =>
    match lockPage k attr seg x pos drv with
    | (some err, drv) => (err, drv)
    | (none, drv) => lockLoop k attr seg n (x + 1) (pos + 1) drv

/-- The loop of `segvn_lockop` for `MC_UNLOCK`. -/
def unlockPages (attr : BitVec 32) : ℕ → ℕ → Svd → Svd
  | 0, _, svd => svd
  | n + 1, x, svd =>
    unlockPages attr n (x + 1)
      (if svd.Wanted attr x ∧ (svd.page x).pplock = true ∧ ¬ svd.Passed x then
        svd.setLock x false else svd)

namespace Piece

def first (piece : Piece) : ℕ := piece.addr / pageSize

/-- The number of its pages. -/
def count (piece : Piece) : ℕ := (piece.addr + piece.size) / pageSize - piece.addr / pageSize

end Piece

/-- `segvn_lockop` with `MC_LOCK` -/
def segvnLock (k : Kernel) (attr : BitVec 32) (pos : ℕ) : SegOp Drv := fun piece drv =>
  let svd := drv.svd piece.seg
  if svd.Ignored attr then (0, drv)
  else lockLoop k attr piece.seg piece.count piece.first pos (drv.set piece.seg svd.prepared)

/-- `segvn_lockop` with `MC_UNLOCK` -/
def segvnUnlock (attr : BitVec 32) : SegOp Drv := fun piece drv =>
  let svd := drv.svd piece.seg
  if svd.Ignored attr then (0, drv)
  else if svd.vpage = none then (0, drv)
  else (0, drv.set piece.seg (unlockPages attr piece.count piece.first svd))

/-! ### What becomes of the pages -/

/-- What becomes of a page in the loop: it is passed over, it gets locked, it ends the loop without
an error, or with one. -/
inductive Outcome
  | skips
  | locks
  | ends
  | fails (err : ℤ)
deriving DecidableEq

/-- What becomes of a page that has to be brought in. -/
def Svd.frame (k : Kernel) (seg : ℕ) (svd : Svd) (x : ℕ) : Outcome :=
  if k.getpage seg x = false then
    if svd.vp = true ∧ k.getattr seg x = true ∧ k.within seg x = false then .ends else .fails eio
  else if k.ppLock seg x = true then .locks
  else .fails eagain

/-- What becomes of a page, by the data of its segment and the answers of the kernel. -/
def Svd.outcome (k : Kernel) (attr : BitVec 32) (seg : ℕ) (svd : Svd) (x : ℕ) : Outcome :=
  if ¬ (svd.Wanted attr x ∧ (svd.page x).pplock = false) then .skips
  else if svd.vp = false ∧ svd.noreserve = false ∧ svd.slot x = false ∧
    k.anonZero seg x = false then
    .fails enomem
  else if svd.Passed x then .skips
  else svd.frame k seg x

section Span

variable {out : ℕ → Outcome} {n x y : ℕ}

/-- The loop over some pages from one on comes to a page, and locks it. -/
def Gets (out : ℕ → Outcome) (n x y : ℕ) : Prop :=
  x ≤ y ∧ y < x + n ∧ out y = .locks ∧ ∀ z, x ≤ z → z < y → out z = .skips ∨ out z = .locks

/-- The error of the loop over some pages from one on. -/
def spanError (out : ℕ → Outcome) : ℕ → ℕ → ℤ
  | 0, _ => 0
  | n + 1, x =>
    match out x with
    | .skips => spanError out n (x + 1)
    | .locks => spanError out n (x + 1)
    | .ends => 0
    | .fails err => err

theorem not_gets_zero : ¬ Gets out 0 x y := fun gets => by
  obtain ⟨le, lt, -⟩ := gets
  omega

theorem gets_congr {out' : ℕ → Outcome} (same : ∀ z, x ≤ z → out z = out' z) :
    Gets out n x y ↔ Gets out' n x y := by
  refine and_congr_right fun le => and_congr_right fun _ => ?_
  rw [same y le]
  refine and_congr_right fun _ => forall_congr' fun z => forall_congr' fun z_le => ?_
  rw [same z z_le]

theorem spanError_congr {out' : ℕ → Outcome} (same : ∀ z, x ≤ z → out z = out' z) :
    spanError out n x = spanError out' n x := by
  induction n generalizing x with
  | zero => rfl
  | succ n ih =>
    rw [spanError, spanError, same x (Nat.le_refl x), ih fun z le => same z (by omega)]

theorem gets_succ_iff (passes : out x = .skips ∨ out x = .locks) :
    Gets out (n + 1) x y ↔ out x = .locks ∧ y = x ∨ Gets out n (x + 1) y := by
  constructor
  · rintro ⟨le, lt, locks, before⟩
    by_cases here : y = x
    · exact .inl ⟨here ▸ locks, here⟩
    · exact .inr ⟨by omega, by omega, locks, fun z z_le z_lt => before z (by omega) z_lt⟩
  · rintro (⟨locks, rfl⟩ | ⟨le, lt, locks, before⟩)
    · exact ⟨Nat.le_refl y, by omega, locks, fun z z_le z_lt => by omega⟩
    · refine ⟨by omega, by omega, locks, fun z z_le z_lt => ?_⟩
      by_cases here : z = x
      · exact here ▸ passes
      · exact before z (by omega) z_lt

theorem not_gets_of_stops (stops : ¬ (out x = .skips ∨ out x = .locks)) : ¬ Gets out n x y := by
  rintro ⟨le, -, locks, before⟩
  by_cases here : y = x
  · exact stops (.inr (here ▸ locks))
  · exact stops (before x (Nat.le_refl x) (by omega))

end Span

section Loop

variable {k : Kernel} {attr : BitVec 32} {seg n x y pos : ℕ} {drv : Drv} {svd svd' : Svd}

/-- The data that stay when pages get locked. -/
structure Svd.Same (svd svd' : Svd) : Prop where
  shared : svd'.shared = svd.shared
  prot : svd'.prot = svd.prot
  pageprot : svd'.pageprot = svd.pageprot
  vpage : svd'.vpage = none ↔ svd.vpage = none
  vp : svd'.vp = svd.vp
  noreserve : svd'.noreserve = svd.noreserve
  amp : svd'.amp = none ↔ svd.amp = none
  page_prot : ∀ x, (svd'.page x).prot = (svd.page x).prot
  slot : svd.noreserve = true → ∀ x, svd'.slot x = svd.slot x

/-- What locking has set up. -/
structure Svd.Ready (svd : Svd) : Prop where
  vpage : svd.vpage ≠ none
  amp : svd.vp = false → svd.amp ≠ none

theorem Svd.Same.passed_iff (same : svd.Same svd') : svd'.Passed y ↔ svd.Passed y := by
  rw [Svd.Passed, Svd.Passed, ne_eq, same.amp, same.vp, same.noreserve]
  refine and_congr_right fun _ => and_congr_left fun ⟨_, noreserve⟩ => ?_
  rw [same.slot noreserve]

theorem Svd.outcome_congr (same : svd.Same svd') (lock : (svd'.page x).pplock = (svd.page x).pplock)
    (slot : svd'.slot x = svd.slot x) :
    svd'.outcome k attr seg x = svd.outcome k attr seg x := by
  have wanted : svd'.Wanted attr x ↔ svd.Wanted attr x := by
    rw [Svd.Wanted, Svd.Wanted, same.page_prot]
  simp only [Svd.outcome, Svd.frame, wanted, same.passed_iff, lock, slot, same.vp, same.noreserve]

namespace Svd

theorem Same.rfl' : svd.Same svd :=
  ⟨rfl, rfl, rfl, Iff.rfl, rfl, rfl, Iff.rfl, fun _ => rfl, fun _ _ => rfl⟩

theorem Same.trans {svd'' : Svd} (first : svd.Same svd') (second : svd'.Same svd'') :
    svd.Same svd'' where
  shared := second.shared.trans first.shared
  prot := second.prot.trans first.prot
  pageprot := second.pageprot.trans first.pageprot
  vpage := second.vpage.trans first.vpage
  vp := second.vp.trans first.vp
  noreserve := second.noreserve.trans first.noreserve
  amp := second.amp.trans first.amp
  page_prot x := (second.page_prot x).trans (first.page_prot x)
  slot noreserve x :=
    (second.slot (first.noreserve.trans noreserve) x).trans (first.slot noreserve x)

theorem Same.ready (same : svd.Same svd') (ready : svd.Ready) : svd'.Ready where
  vpage := fun none_here => ready.vpage (same.vpage.1 none_here)
  amp := fun no_vp none_here => ready.amp (same.vp ▸ no_vp) (same.amp.1 none_here)

theorem page_setLock (ready : svd.vpage ≠ none) (pplock : Bool) (y : ℕ) :
    (svd.setLock x pplock).page y = if y = x then ⟨(svd.page x).prot, pplock⟩ else svd.page y := by
  obtain ⟨vpage, is_vpage⟩ := Option.ne_none_iff_exists'.1 ready
  simp only [page, setLock, is_vpage, Option.map_some, Option.elim_some, update_apply]

theorem slot_setSlot_of_ne {y : ℕ} (differ : y ≠ x) : (svd.setSlot x).slot y = svd.slot y := by
  cases amp : svd.amp with
  | none => simp only [slot, setSlot, amp, Option.map_none]
  | some anon =>
    simp only [slot, setSlot, amp, Option.map_some, Option.elim_some, update_of_ne differ]

theorem same_setSlot (reserve : svd.noreserve = false) : svd.Same (svd.setSlot x) :=
  ⟨rfl, rfl, rfl, Iff.rfl, rfl, rfl, Option.map_eq_none_iff, fun _ => rfl,
    fun noreserve => absurd (reserve.symm.trans noreserve) Bool.false_ne_true⟩

theorem same_setLock {pplock : Bool} (ready : svd.vpage ≠ none) :
    svd.Same (svd.setLock x pplock) := by
  refine ⟨rfl, rfl, rfl, Option.map_eq_none_iff, rfl, rfl, Iff.rfl, fun y => ?_, fun _ _ => rfl⟩
  rw [page_setLock ready]
  split_ifs with here
  · rw [here]
  · rfl

end Svd

/-- What the loop has done to the driver's state: the pages it has come to are locked and noted, and
nothing else has changed but anon slots of pages that it has gone over. -/
structure Locked (seg : ℕ) (gets : ℕ → Prop) (x pos : ℕ) (drv drv' : Drv) : Prop where
  others : ∀ q, q ≠ seg → drv'.svd q = drv.svd q
  same : (drv.svd seg).Same (drv'.svd seg)
  lock : ∀ y, ((drv'.svd seg).page y).pplock = true ↔ ((drv.svd seg).page y).pplock = true ∨ gets y
  lockmap : ∀ i, drv'.lockmap i = true ↔ drv.lockmap i = true ∨ ∃ y, gets y ∧ i = pos + (y - x)

/-- What the body of the loop has done. -/
structure Touched (seg x pos : ℕ) (locks : Prop) (drv drv' : Drv) : Prop where
  others : ∀ q, q ≠ seg → drv'.svd q = drv.svd q
  same : (drv.svd seg).Same (drv'.svd seg)
  slot : ∀ y, y ≠ x → (drv'.svd seg).slot y = (drv.svd seg).slot y
  lock : ∀ y, ((drv'.svd seg).page y).pplock = true ↔
    ((drv.svd seg).page y).pplock = true ∨ locks ∧ y = x
  lockmap : ∀ i, drv'.lockmap i = true ↔ drv.lockmap i = true ∨ locks ∧ i = pos

/-- What the body returns. -/
def Outcome.answer : Outcome → Option ℤ
  | .skips => none
  | .locks => none
  | .ends => some 0
  | .fails err => some err

namespace Drv

theorem set_svd (drv : Drv) (seg : ℕ) (svd : Svd) : (drv.set seg svd).svd seg = svd :=
  update_self ..

theorem set_others {q : ℕ} (drv : Drv) (svd : Svd) (differ : q ≠ seg) :
    (drv.set seg svd).svd q = drv.svd q := update_of_ne differ ..

end Drv

variable {locks : Prop}

/-- A page that is not locked: at most an anon slot has been allocated. -/
theorem Touched.unlocked (no_lock : ¬ locks)
    (svd_eq : svd = drv.svd seg ∨ (drv.svd seg).noreserve = false ∧ svd = (drv.svd seg).setSlot x) :
    Touched seg x pos locks drv (drv.set seg svd) := by
  refine ⟨fun q differ => drv.set_others svd differ, ?_, fun y differ => ?_, fun y => ?_,
    fun i => ?_⟩
  · rw [Drv.set_svd]
    rcases svd_eq with rfl | ⟨reserve, rfl⟩
    · exact Svd.Same.rfl'
    · exact Svd.same_setSlot reserve
  · rw [Drv.set_svd]
    rcases svd_eq with rfl | ⟨-, rfl⟩
    · rfl
    · exact Svd.slot_setSlot_of_ne differ
  · rw [Drv.set_svd, or_iff_left fun locked => no_lock locked.1]
    rcases svd_eq with rfl | ⟨-, rfl⟩ <;> rfl
  · rw [or_iff_left fun locked => no_lock locked.1]
    rfl

theorem Touched.nothing (no_lock : ¬ locks) : Touched seg x pos locks drv drv :=
  ⟨fun _ _ => rfl, Svd.Same.rfl', fun _ _ => rfl,
    fun _ => (or_iff_left fun locked => no_lock locked.1).symm,
    fun _ => (or_iff_left fun locked => no_lock locked.1).symm⟩

/-- A page that is locked. -/
theorem Touched.locked (does : locks) (ready : (drv.svd seg).Ready)
    (svd_eq : svd = drv.svd seg ∨ (drv.svd seg).noreserve = false ∧ svd = (drv.svd seg).setSlot x) :
    Touched seg x pos locks drv { (drv.set seg svd).set seg (svd.setLock x true) with
      lockmap := update drv.lockmap pos true } := by
  have before := @Touched.unlocked seg x pos drv svd False not_false svd_eq
  have same := before.same
  rw [Drv.set_svd] at same
  have svd_ready := same.ready ready
  have is_svd : (((drv.set seg svd).set seg (svd.setLock x true)).svd seg) = svd.setLock x true :=
    Drv.set_svd ..
  refine ⟨fun q differ => ?_, ?_, fun y differ => ?_, fun y => ?_, fun i => ?_⟩
  · exact (Drv.set_others _ _ differ).trans (Drv.set_others _ _ differ)
  · change (drv.svd seg).Same (((drv.set seg svd).set seg (svd.setLock x true)).svd seg)
    rw [is_svd]
    exact same.trans (Svd.same_setLock svd_ready.vpage)
  · change (((drv.set seg svd).set seg (svd.setLock x true)).svd seg).slot y = _
    have slot := before.slot y differ
    rw [Drv.set_svd] at slot
    rw [is_svd]
    exact slot
  · change ((((drv.set seg svd).set seg (svd.setLock x true)).svd seg).page y).pplock = true ↔ _
    have lock := before.lock y
    rw [Drv.set_svd, or_iff_left fun locked => locked.1.elim] at lock
    rw [is_svd, Svd.page_setLock svd_ready.vpage, and_iff_right does, ← lock]
    by_cases here : y = x
    · rw [if_pos here]
      exact iff_of_true rfl (.inr here)
    · rw [if_neg here, or_iff_left here]
  · change update drv.lockmap pos true i = true ↔ _
    rw [update_apply, and_iff_right does]
    by_cases here : i = pos
    · rw [if_pos here]
      exact iff_of_true rfl (.inr here)
    · rw [if_neg here, or_iff_left here]

theorem lockFrame_spec (ready : (drv.svd seg).Ready)
    (svd_eq : svd = drv.svd seg ∨ (drv.svd seg).noreserve = false ∧ svd = (drv.svd seg).setSlot x) :
    Touched seg x pos (svd.frame k seg x = .locks) drv
        (lockFrame k seg x pos svd (drv.set seg svd)).2 ∧
      (lockFrame k seg x pos svd (drv.set seg svd)).1 = (svd.frame k seg x).answer := by
  have stays : ∀ {out : Outcome}, out ≠ .locks →
      Touched seg x pos (out = .locks) drv (drv.set seg svd) := fun no_lock =>
    Touched.unlocked no_lock svd_eq
  rw [lockFrame, Svd.frame]
  by_cases getpage : k.getpage seg x = false
  · rw [if_pos getpage, if_pos getpage]
    cases svd.vp <;> cases k.getattr seg x <;> cases k.within seg x <;>
      exact ⟨stays (by decide), rfl⟩
  · rw [if_neg getpage, if_neg getpage]
    by_cases locks : k.ppLock seg x = true
    · rw [if_pos locks, if_pos locks]
      exact ⟨Touched.locked rfl ready svd_eq, rfl⟩
    · rw [if_neg locks, if_neg locks]
      exact ⟨stays (by decide), rfl⟩

theorem lockPage_spec (ready : (drv.svd seg).Ready) :
    Touched seg x pos ((drv.svd seg).outcome k attr seg x = .locks) drv
        (lockPage k attr seg x pos drv).2 ∧
      (lockPage k attr seg x pos drv).1 = ((drv.svd seg).outcome k attr seg x).answer := by
  by_cases wanted : (drv.svd seg).Wanted attr x ∧ ((drv.svd seg).page x).pplock = false
  · have reserved : (drv.svd seg).noreserve = false → ¬ (drv.svd seg).noreserve = true :=
      fun reserve noreserve => Bool.false_ne_true (reserve.symm.trans noreserve)
    by_cases absent : (drv.svd seg).vp = false ∧ (drv.svd seg).noreserve = false ∧
        (drv.svd seg).slot x = false
    · obtain ⟨no_vp, reserve, no_slot⟩ := absent
      have absent' : (drv.svd seg).vp = false ∧ (drv.svd seg).noreserve = false ∧
          (drv.svd seg).amp ≠ none ∧ (drv.svd seg).slot x = false :=
        ⟨no_vp, reserve, ready.amp no_vp, no_slot⟩
      by_cases anon_zero : k.anonZero seg x = false
      · have outcome_eq : (drv.svd seg).outcome k attr seg x = .fails enomem :=
          (if_neg (not_not.2 wanted)).trans (if_pos ⟨no_vp, reserve, no_slot, anon_zero⟩)
        have page_eq : lockPage k attr seg x pos drv = (some enomem, drv) :=
          (if_pos wanted).trans (if_pos ⟨absent', anon_zero⟩)
        rw [outcome_eq, page_eq]
        exact ⟨Touched.nothing (by decide), rfl⟩
      · have outcome_eq : (drv.svd seg).outcome k attr seg x =
            ((drv.svd seg).setSlot x).frame k seg x :=
          (if_neg (not_not.2 wanted)).trans ((if_neg fun all => anon_zero all.2.2.2).trans
            (if_neg fun passed => reserved reserve passed.2.2.2))
        have page_eq : lockPage k attr seg x pos drv = lockFrame k seg x pos
            ((drv.svd seg).setSlot x) (drv.set seg ((drv.svd seg).setSlot x)) := by
          refine (if_pos wanted).trans ((if_neg fun both => anon_zero both.2).trans ?_)
          dsimp only
          rw [if_pos absent']
          exact if_neg fun passed => reserved reserve passed.2.2.2
        rw [outcome_eq, page_eq]
        exact lockFrame_spec ready (.inr ⟨reserve, rfl⟩)
    · have absent' : ¬ ((drv.svd seg).vp = false ∧ (drv.svd seg).noreserve = false ∧
          (drv.svd seg).amp ≠ none ∧ (drv.svd seg).slot x = false) :=
        fun all => absent ⟨all.1, all.2.1, all.2.2.2⟩
      have outcome_tail : (drv.svd seg).outcome k attr seg x =
          if (drv.svd seg).Passed x then .skips else (drv.svd seg).frame k seg x :=
        (if_neg (not_not.2 wanted)).trans (if_neg fun all => absent ⟨all.1, all.2.1, all.2.2.1⟩)
      have page_tail : lockPage k attr seg x pos drv =
          if (drv.svd seg).Passed x then (none, drv.set seg (drv.svd seg))
          else lockFrame k seg x pos (drv.svd seg) (drv.set seg (drv.svd seg)) := by
        refine (if_pos wanted).trans ((if_neg fun both => absent' both.1).trans ?_)
        dsimp only
        rw [if_neg absent']
      rw [outcome_tail, page_tail]
      by_cases passed : (drv.svd seg).Passed x
      · rw [if_pos passed, if_pos passed]
        exact ⟨Touched.unlocked (by decide) (.inl rfl), rfl⟩
      · rw [if_neg passed, if_neg passed]
        exact lockFrame_spec ready (.inl rfl)
  · have outcome_eq : (drv.svd seg).outcome k attr seg x = .skips := if_pos wanted
    have page_eq : lockPage k attr seg x pos drv = (none, drv) := if_neg wanted
    rw [outcome_eq, page_eq]
    exact ⟨Touched.nothing (by decide), rfl⟩

/-- A page in front of a loop that goes on. -/
theorem Locked.cons {drv' drv'' : Drv} {gets gets' : ℕ → Prop}
    (touched : Touched seg x pos locks drv drv')
    (rest : Locked seg gets (x + 1) (pos + 1) drv' drv'') (above : ∀ y, gets y → x < y)
    (gets_iff : ∀ y, gets' y ↔ locks ∧ y = x ∨ gets y) :
    Locked seg gets' x pos drv drv'' where
  others q differ := (rest.others q differ).trans (touched.others q differ)
  same := touched.same.trans rest.same
  lock y := by rw [rest.lock, touched.lock, gets_iff, or_assoc]
  lockmap i := by
    rw [rest.lockmap, touched.lockmap, or_assoc]
    refine or_congr_right ⟨?_, ?_⟩
    · rintro (⟨does, rfl⟩ | ⟨y, gets, rfl⟩)
      · exact ⟨x, (gets_iff x).2 (.inl ⟨does, rfl⟩), by omega⟩
      · have lt := above y gets
        exact ⟨y, (gets_iff y).2 (.inr gets), by omega⟩
    · rintro ⟨y, gets, rfl⟩
      rcases (gets_iff y).1 gets with ⟨does, rfl⟩ | gets
      · exact .inl ⟨does, by omega⟩
      · have lt := above y gets
        exact .inr ⟨y, gets, by omega⟩

theorem Locked.stopped {drv' : Drv} {gets : ℕ → Prop} (no_lock : ¬ locks)
    (touched : Touched seg x pos locks drv drv') (none_got : ∀ y, ¬ gets y) :
    Locked seg gets x pos drv drv' where
  others := touched.others
  same := touched.same
  lock y := by
    rw [touched.lock, or_iff_left fun locked => no_lock locked.1, or_iff_left (none_got y)]
  lockmap i := by
    rw [touched.lockmap, or_iff_left fun locked => no_lock locked.1,
      or_iff_left fun ⟨y, gets, _⟩ => none_got y gets]

/-- The loop, by what becomes of the pages. -/
theorem lockLoop_spec (ready : (drv.svd seg).Ready) :
    Locked seg (Gets ((drv.svd seg).outcome k attr seg) n x) x pos drv
        (lockLoop k attr seg n x pos drv).2 ∧
      (lockLoop k attr seg n x pos drv).1 = spanError ((drv.svd seg).outcome k attr seg) n x := by
  induction n generalizing x pos drv with
  | zero =>
    refine ⟨⟨fun _ _ => rfl, Svd.Same.rfl', fun _ => ?_, fun _ => ?_⟩, rfl⟩
    · exact (or_iff_left not_gets_zero).symm
    · exact (or_iff_left fun ⟨_, gets, _⟩ => not_gets_zero gets).symm
  | succ n ih =>
    obtain ⟨touched, answer⟩ := @lockPage_spec k attr seg x pos drv ready
    rw [lockLoop, spanError]
    generalize lockPage k attr seg x pos drv = result at touched answer
    obtain ⟨err, drv'⟩ := result
    obtain rfl : err = ((drv.svd seg).outcome k attr seg x).answer := answer
    dsimp only at touched
    have later : ∀ y, x + 1 ≤ y →
        (drv'.svd seg).outcome k attr seg y = (drv.svd seg).outcome k attr seg y := by
      intro y le
      have differ : y ≠ x := by omega
      refine Svd.outcome_congr touched.same ?_ (touched.slot y differ)
      rw [Bool.eq_iff_iff, touched.lock, or_iff_left fun locked => differ locked.2]
    obtain ⟨locked, error⟩ := @ih (x + 1) (pos + 1) drv' (touched.same.ready ready)
    rw [spanError_congr later] at error
    have goes_on : (drv.svd seg).outcome k attr seg x = .skips ∨
        (drv.svd seg).outcome k attr seg x = .locks →
        Locked seg (Gets ((drv.svd seg).outcome k attr seg) (n + 1) x) x pos drv
          (lockLoop k attr seg n (x + 1) (pos + 1) drv').2 := by
      intro passes
      refine Locked.cons touched locked (fun y gets => gets.1) fun y => ?_
      rw [gets_succ_iff passes, gets_congr later]
    cases outcome_eq : (drv.svd seg).outcome k attr seg x with
    | skips => exact ⟨goes_on (.inl outcome_eq), error⟩
    | locks => exact ⟨goes_on (.inr outcome_eq), error⟩
    | ends =>
      refine ⟨Locked.stopped ?_ touched fun y => not_gets_of_stops ?_, rfl⟩
      · rw [outcome_eq]
        decide
      · rw [outcome_eq]
        decide
    | fails err =>
      refine ⟨Locked.stopped ?_ touched fun y => not_gets_of_stops ?_, rfl⟩
      · rw [outcome_eq]
        exact Outcome.noConfusion
      · rw [outcome_eq]
        rintro (is_skip | is_lock)
        · exact Outcome.noConfusion is_skip
        · exact Outcome.noConfusion is_lock

end Loop

/-! ### Whole pieces -/

section Pieces

variable {k : Kernel} {attr : BitVec 32} {seg n p x y i pos : ℕ} {drv drv' : Drv} {svd svd' : Svd}
  {piece : Piece}

/-- Whether a page is locked through a segment. -/
def Drv.Holds (drv : Drv) (p y : ℕ) : Prop := ((drv.svd p).page y).pplock = true

/-- Unlocking goes over a page of the segment if it is locked. -/
def Svd.Unlockable (svd : Svd) (attr : BitVec 32) (y : ℕ) : Prop :=
  ¬ svd.Ignored attr ∧ svd.vpage ≠ none ∧ svd.Wanted attr y ∧ ¬ svd.Passed y

theorem Svd.Same.ignored_iff (same : svd.Same svd') : svd'.Ignored attr ↔ svd.Ignored attr := by
  rw [Svd.Ignored, Svd.Ignored, same.shared, same.pageprot, same.prot]

theorem Svd.Same.wanted_iff (same : svd.Same svd') : svd'.Wanted attr y ↔ svd.Wanted attr y := by
  rw [Svd.Wanted, Svd.Wanted, same.page_prot]

theorem Svd.Same.unlockable_iff (same : svd.Same svd') :
    svd'.Unlockable attr y ↔ svd.Unlockable attr y := by
  rw [Svd.Unlockable, Svd.Unlockable, same.ignored_iff, same.wanted_iff, same.passed_iff, ne_eq,
    same.vpage]

namespace Svd

theorem page_prepared (svd : Svd) (y : ℕ) : svd.prepared.page y = svd.page y := by
  have page_vpage : svd.segvnVpage.page y = svd.page y := by
    cases vpage : svd.vpage <;> simp only [segvnVpage, page, vpage, Option.elim_none,
      Option.elim_some]
  rw [← page_vpage, prepared]
  split_ifs <;> rfl

theorem ready_prepared (svd : Svd) : svd.prepared.Ready := by
  have vpage : svd.segvnVpage.vpage ≠ none := by
    cases vpage : svd.vpage <;> simp [segvnVpage, vpage]
  rw [prepared]
  by_cases anon : svd.segvnVpage.amp = none ∧ svd.segvnVpage.vp = false
  · rw [if_pos anon]
    exact ⟨vpage, fun _ => Option.some_ne_none _⟩
  · rw [if_neg anon]
    exact ⟨vpage, fun no_vp none_here => anon ⟨none_here, no_vp⟩⟩

theorem not_ignored_prepared (asked : ¬ svd.Ignored attr) : ¬ svd.prepared.Ignored attr := by
  have vpage : ¬ svd.segvnVpage.Ignored attr := by
    rintro ⟨attr_ne, other⟩
    cases vpage : svd.vpage with
    | none =>
      simp only [segvnVpage, vpage] at other
      rcases other with differ | ⟨impossible, -⟩
      · exact asked ⟨attr_ne, .inl differ⟩
      · exact Bool.noConfusion impossible
    | some _ =>
      simp only [segvnVpage, vpage] at other
      exact asked ⟨attr_ne, other⟩
  rw [prepared]
  split_ifs
  · exact vpage
  · exact vpage

end Svd

/-- What becomes of a page of a segment. -/
def Drv.outcome (k : Kernel) (attr : BitVec 32) (drv : Drv) (seg x : ℕ) : Outcome :=
  if (drv.svd seg).Ignored attr then .skips else (drv.svd seg).prepared.outcome k attr seg x

theorem not_gets_skips : ¬ Gets (fun _ => .skips) n x y :=
  fun gets => Outcome.noConfusion gets.2.2.1

theorem spanError_skips : spanError (fun _ => .skips) n x = 0 := by
  induction n generalizing x with
  | zero => rfl
  | succ n ih => exact ih

/-- What `segvn_lockop` has done to a piece with `MC_LOCK`. -/
structure Pieced (attr : BitVec 32) (piece : Piece) (pos : ℕ) (gets : ℕ → Prop) (drv drv' : Drv) :
    Prop where
  others : ∀ q, q ≠ piece.seg → drv'.svd q = drv.svd q
  lock : ∀ y, drv'.Holds piece.seg y ↔ drv.Holds piece.seg y ∨ gets y
  lockmap : ∀ i, drv'.lockmap i = true ↔
    drv.lockmap i = true ∨ ∃ y, gets y ∧ i = pos + (y - piece.first)
  unlockable : ∀ y, gets y → (drv'.svd piece.seg).Unlockable attr y

theorem segvnLock_spec :
    Pieced attr piece pos (Gets (drv.outcome k attr piece.seg) piece.count piece.first) drv
        (segvnLock k attr pos piece drv).2 ∧
      (segvnLock k attr pos piece drv).1 =
        spanError (drv.outcome k attr piece.seg) piece.count piece.first := by
  by_cases ignored : (drv.svd piece.seg).Ignored attr
  · have out_eq : drv.outcome k attr piece.seg = fun _ => .skips := funext fun _ => if_pos ignored
    have lock_eq : segvnLock k attr pos piece drv = (0, drv) := if_pos ignored
    rw [out_eq, lock_eq, spanError_skips]
    refine ⟨⟨fun _ _ => rfl, fun _ => ?_, fun _ => ?_, fun _ gets => ?_⟩, rfl⟩
    · exact (or_iff_left not_gets_skips).symm
    · exact (or_iff_left fun ⟨_, gets, _⟩ => not_gets_skips gets).symm
    · exact absurd gets not_gets_skips
  · have out_eq : drv.outcome k attr piece.seg =
        (drv.svd piece.seg).prepared.outcome k attr piece.seg := funext fun _ => if_neg ignored
    have lock_eq : segvnLock k attr pos piece drv =
      lockLoop k attr piece.seg piece.count piece.first
        pos (drv.set piece.seg (drv.svd piece.seg).prepared) := if_neg ignored
    have set_eq := drv.set_svd piece.seg (drv.svd piece.seg).prepared
    obtain ⟨locked, error⟩ := @lockLoop_spec k attr piece.seg piece.count piece.first pos
      (drv.set piece.seg (drv.svd piece.seg).prepared) (by
        rw [set_eq]
        exact Svd.ready_prepared _)
    rw [set_eq] at locked error
    rw [out_eq, lock_eq]
    refine ⟨⟨fun q differ => ?_, fun y => ?_, locked.lockmap, fun y gets => ?_⟩, error⟩
    · exact (locked.others q differ).trans (drv.set_others _ differ)
    · rw [Drv.Holds, locked.lock, set_eq, Svd.page_prepared]
      rfl
    · have same := locked.same
      rw [set_eq] at same
      rw [same.unlockable_iff]
      have locks := gets.2.2.1
      rw [Svd.outcome] at locks
      split_ifs at locks with wanted _ passed
      exact ⟨Svd.not_ignored_prepared ignored, (Svd.ready_prepared _).vpage, wanted.1, passed⟩

/-- The pieces one after the other, each with its place in the bit map. -/
def lockAll (k : Kernel) (attr : BitVec 32) : List (Piece × ℕ) → Drv → ℤ × Drv
  | [], drv => (0, drv)
  | (piece, pos) :: rest, drv =>
    let (err, drv) := segvnLock k attr pos piece drv
    if err ≠ 0 then (err, drv) else lockAll k attr rest drv

/-- The loops come to a page of a segment and lock it, and note it in the bit map. -/
inductive Newly (out : ℕ → ℕ → Outcome) : List (Piece × ℕ) → ℕ → ℕ → ℕ → Prop
  | here {piece : Piece} {pos y : ℕ} {rest : List (Piece × ℕ)}
      (gets : Gets (out piece.seg) piece.count piece.first y) :
      Newly out ((piece, pos) :: rest) piece.seg y (pos + (y - piece.first))
  | later {piece : Piece} {pos p y i : ℕ} {rest : List (Piece × ℕ)}
      (passes : spanError (out piece.seg) piece.count piece.first = 0)
        (newly : Newly out rest p y i) :
      Newly out ((piece, pos) :: rest) p y i

/-- The loops come to a page of a segment and lock it, whatever its bit. -/
def Taken (out : ℕ → ℕ → Outcome) : List (Piece × ℕ) → ℕ → ℕ → Prop
  | [], _, _ => False
  | (piece, _) :: rest, p, y =>
    p = piece.seg ∧ Gets (out piece.seg) piece.count piece.first y ∨
      spanError (out piece.seg) piece.count piece.first = 0 ∧ Taken out rest p y

/-- What locking the pieces has done. -/
structure AllLocked (attr : BitVec 32) (l : List (Piece × ℕ)) (newly : ℕ → ℕ → ℕ → Prop)
    (drv drv' : Drv) : Prop where
  others : ∀ q, (∀ call ∈ l, call.1.seg ≠ q) → drv'.svd q = drv.svd q
  lock : ∀ p y, drv'.Holds p y ↔ drv.Holds p y ∨ ∃ i, newly p y i
  lockmap : ∀ i, drv'.lockmap i = true ↔ drv.lockmap i = true ∨ ∃ p y, newly p y i
  unlockable : ∀ p y i, newly p y i → (drv'.svd p).Unlockable attr y

variable {out out' : ℕ → ℕ → Outcome} {rest l : List (Piece × ℕ)}

theorem Newly.mem (newly : Newly out l p y i) :
    ∃ call ∈ l, call.1.seg = p ∧ call.1.first ≤ y ∧ y < call.1.first + call.1.count ∧
      i = call.2 + (y - call.1.first) := by
  induction newly with
  | here gets => exact ⟨_, mem_cons_self, rfl, gets.1, gets.2.1, rfl⟩
  | later _ _ ih =>
    obtain ⟨call, mem, within⟩ := ih
    exact ⟨call, mem_cons_of_mem _ mem, within⟩

theorem newly_of_congr (same : ∀ call ∈ l, out call.1.seg = out' call.1.seg)
    (newly : Newly out l p y i) : Newly out' l p y i := by
  induction newly with
  | here gets =>
    rw [same _ mem_cons_self] at gets
    exact .here gets
  | later passes _ ih =>
    rw [same _ mem_cons_self] at passes
    exact .later passes (ih fun call mem => same call (mem_cons_of_mem _ mem))

theorem newly_congr (same : ∀ call ∈ l, out call.1.seg = out' call.1.seg) :
    Newly out l p y i ↔ Newly out' l p y i :=
  ⟨newly_of_congr same, newly_of_congr fun call mem => (same call mem).symm⟩

theorem newly_cons_iff : Newly out ((piece, pos) :: rest) p y i ↔
    (p = piece.seg ∧ Gets (out piece.seg) piece.count piece.first y ∧ i = pos + (y - piece.first)) ∨
      spanError (out piece.seg) piece.count piece.first = 0 ∧ Newly out rest p y i := by
  constructor
  · intro newly
    cases newly with
    | here gets => exact .inl ⟨rfl, gets, rfl⟩
    | later passes newly => exact .inr ⟨passes, newly⟩
  · rintro (⟨rfl, gets, rfl⟩ | ⟨passes, newly⟩)
    · exact .here gets
    · exact .later passes newly

theorem exists_newly_iff : (∃ i, Newly out l p y i) ↔ Taken out l p y := by
  induction l with
  | nil => exact iff_of_false (fun ⟨_, newly⟩ => nomatch newly) not_false
  | cons call rest ih =>
    obtain ⟨piece, pos⟩ := call
    simp only [Taken, ← ih, newly_cons_iff]
    constructor
    · rintro ⟨i, ⟨is_seg, gets, -⟩ | ⟨passes, newly⟩⟩
      · exact .inl ⟨is_seg, gets⟩
      · exact .inr ⟨passes, i, newly⟩
    · rintro (⟨is_seg, gets⟩ | ⟨passes, i, newly⟩)
      · exact ⟨_, .inl ⟨is_seg, gets, rfl⟩⟩
      · exact ⟨i, .inr ⟨passes, newly⟩⟩

/-- The pieces, of different segments, by what becomes of the pages. -/
theorem lockAll_spec (distinct : (l.map fun call => call.1.seg).Nodup) :
    AllLocked attr l (Newly (drv.outcome k attr) l) drv (lockAll k attr l drv).2 := by
  induction l generalizing drv with
  | nil =>
    refine ⟨fun _ _ => rfl, fun _ _ => ?_, fun _ => ?_, fun _ _ _ newly => (nomatch newly)⟩
    · exact (or_iff_left fun ⟨_, newly⟩ => nomatch newly).symm
    · exact (or_iff_left fun ⟨_, _, newly⟩ => nomatch newly).symm
  | cons call rest ih =>
    obtain ⟨piece, pos⟩ := call
    obtain ⟨fresh, distinct⟩ := nodup_cons.1 distinct
    obtain ⟨pieced, error⟩ := @segvnLock_spec k attr pos drv piece
    rw [lockAll]
    generalize segvnLock k attr pos piece drv = result at pieced error
    obtain ⟨err, drv₁⟩ := result
    obtain rfl : err = spanError (drv.outcome k attr piece.seg) piece.count piece.first := error
    dsimp only at pieced ⊢
    -- Only the segment of the piece has changed.
    have others : ∀ call ∈ rest, call.1.seg ≠ piece.seg := fun call mem same =>
      fresh (List.mem_map.2 ⟨call, mem, same⟩)
    have later_out : ∀ call ∈ rest,
        drv₁.outcome k attr call.1.seg = drv.outcome k attr call.1.seg := fun call mem => by
      funext x
      rw [Drv.outcome, Drv.outcome, pieced.others _ (others call mem)]
    have first_lock : ∀ p y, drv₁.Holds p y ↔ drv.Holds p y ∨
        p = piece.seg ∧ Gets (drv.outcome k attr piece.seg) piece.count piece.first y := by
      intro p y
      by_cases here : p = piece.seg
      · rw [here, pieced.lock, and_iff_right rfl]
      · rw [or_iff_left fun got => here got.1, Drv.Holds, pieced.others p here, Drv.Holds]
    by_cases passes : spanError (drv.outcome k attr piece.seg) piece.count piece.first = 0
    · rw [if_neg (not_not.2 passes)]
      have all := @ih drv₁ distinct
      refine ⟨fun q none_there => ?_, fun p y => ?_, fun i => ?_, fun p y i newly => ?_⟩
      · rw [all.others q fun call mem => none_there call (mem_cons_of_mem _ mem)]
        exact pieced.others q (none_there _ mem_cons_self).symm
      · rw [all.lock, first_lock, or_assoc]
        refine or_congr_right ⟨?_, ?_⟩
        · rintro (⟨rfl, gets⟩ | ⟨i, newly⟩)
          · exact ⟨_, .here gets⟩
          · exact ⟨i, .later passes ((newly_congr later_out).1 newly)⟩
        · rintro ⟨i, newly⟩
          rcases newly_cons_iff.1 newly with ⟨is_seg, gets, -⟩ | ⟨-, newly⟩
          · exact .inl ⟨is_seg, gets⟩
          · exact .inr ⟨i, (newly_congr later_out).2 newly⟩
      · rw [all.lockmap, pieced.lockmap, or_assoc]
        refine or_congr_right ⟨?_, ?_⟩
        · rintro (⟨y, gets, rfl⟩ | ⟨p, y, newly⟩)
          · exact ⟨piece.seg, y, .here gets⟩
          · exact ⟨p, y, .later passes ((newly_congr later_out).1 newly)⟩
        · rintro ⟨p, y, newly⟩
          rcases newly_cons_iff.1 newly with ⟨-, gets, is_i⟩ | ⟨-, newly⟩
          · exact .inl ⟨y, gets, is_i⟩
          · exact .inr ⟨p, y, (newly_congr later_out).2 newly⟩
      · rcases newly_cons_iff.1 newly with ⟨rfl, gets, -⟩ | ⟨-, newly⟩
        · rw [all.others piece.seg others]
          exact pieced.unlockable y gets
        · exact all.unlockable p y i ((newly_congr later_out).2 newly)
    · rw [if_pos passes]
      have only_here : ∀ p y i, Newly (drv.outcome k attr) ((piece, pos) :: rest) p y i ↔
          p = piece.seg ∧ Gets (drv.outcome k attr piece.seg) piece.count piece.first y ∧
            i = pos + (y - piece.first) := fun p y i => by
        rw [newly_cons_iff, or_iff_left fun later => passes later.1]
      refine ⟨fun q none_there => pieced.others q (none_there _ mem_cons_self).symm,
        fun p y => ?_, fun i => ?_, fun p y i newly => ?_⟩
      · rw [first_lock]
        refine or_congr_right ⟨?_, ?_⟩
        · rintro ⟨rfl, gets⟩
          exact ⟨_, .here gets⟩
        · rintro ⟨i, newly⟩
          obtain ⟨is_seg, gets, -⟩ := (only_here p y i).1 newly
          exact ⟨is_seg, gets⟩
      · rw [pieced.lockmap]
        refine or_congr_right ⟨?_, ?_⟩
        · rintro ⟨y, gets, rfl⟩
          exact ⟨piece.seg, y, .here gets⟩
        · rintro ⟨p, y, newly⟩
          obtain ⟨-, gets, is_i⟩ := (only_here p y i).1 newly
          exact ⟨y, gets, is_i⟩
      · obtain ⟨rfl, gets, -⟩ := (only_here p y i).1 newly
        exact pieced.unlockable y gets

/-! ### Unlocking -/

/-- Unlocking has gone over some pages of segments: those that are locked and can be unlocked are
not locked any more, and nothing else has changed. -/
structure Unlocked (attr : BitVec 32) (pages : ℕ → ℕ → Prop) (drv drv' : Drv) : Prop where
  same : ∀ p, (drv.svd p).Same (drv'.svd p)
  lockmap : drv'.lockmap = drv.lockmap
  lock : ∀ p y, drv'.Holds p y ↔ drv.Holds p y ∧ ¬ (pages p y ∧ (drv.svd p).Unlockable attr y)

namespace Unlocked

variable {pages pages' : ℕ → ℕ → Prop} {drv'' : Drv}

theorem nothing (none_there : ∀ p y, ¬ pages p y) : Unlocked attr pages drv drv :=
  ⟨fun _ => Svd.Same.rfl', rfl, fun p y => (and_iff_left fun there => none_there p y there.1).symm⟩

theorem trans (first : Unlocked attr pages drv drv') (second : Unlocked attr pages' drv' drv'') :
    Unlocked attr (fun p y => pages p y ∨ pages' p y) drv drv'' where
  same p := (first.same p).trans (second.same p)
  lockmap := second.lockmap.trans first.lockmap
  lock p y := by
    rw [second.lock, first.lock, (first.same p).unlockable_iff]
    tauto

theorem congr (unlocked : Unlocked attr pages drv drv') (iff : ∀ p y, pages p y ↔ pages' p y) :
    Unlocked attr pages' drv drv' where
  same := unlocked.same
  lockmap := unlocked.lockmap
  lock p y := by rw [unlocked.lock, iff]

end Unlocked

/-- The loop over some pages of a segment. -/
theorem unlockPages_spec (vpage : svd.vpage ≠ none) :
    svd.Same (unlockPages attr n x svd) ∧ ∀ y, ((unlockPages attr n x svd).page y).pplock = true ↔
        (svd.page y).pplock = true ∧
          ¬ (x ≤ y ∧ y < x + n ∧ svd.Wanted attr y ∧ ¬ svd.Passed y) := by
  induction n generalizing x svd with
  | zero =>
    refine ⟨Svd.Same.rfl', fun y => (and_iff_left ?_).symm⟩
    omega
  | succ n ih =>
    rw [unlockPages]
    by_cases locked : svd.Wanted attr x ∧ (svd.page x).pplock = true ∧ ¬ svd.Passed x
    · rw [if_pos locked]
      have same := @Svd.same_setLock x svd false vpage
      obtain ⟨rest_same, rest⟩ := @ih (x + 1) (svd.setLock x false) fun none_here =>
        vpage (same.vpage.1 none_here)
      refine ⟨same.trans rest_same, fun y => ?_⟩
      rw [rest, same.wanted_iff, same.passed_iff, Svd.page_setLock vpage]
      by_cases here : y = x
      · rw [if_pos here, here]
        refine iff_of_false (fun impossible => Bool.noConfusion impossible.1) fun kept => ?_
        exact kept.2 ⟨Nat.le_refl x, by omega, locked.1, locked.2.2⟩
      · rw [if_neg here]
        refine and_congr_right fun _ => not_congr ?_
        constructor
        · rintro ⟨le, lt, wanted⟩
          exact ⟨by omega, by omega, wanted⟩
        · rintro ⟨le, lt, wanted⟩
          exact ⟨by omega, by omega, wanted⟩
    · rw [if_neg locked]
      obtain ⟨rest_same, rest⟩ := @ih (x + 1) svd vpage
      refine ⟨rest_same, fun y => ?_⟩
      rw [rest]
      refine and_congr_right fun holds => not_congr ?_
      constructor
      · rintro ⟨le, lt, wanted⟩
        exact ⟨by omega, by omega, wanted⟩
      · rintro ⟨le, lt, wanted⟩
        have behind : y ≠ x := by
          rintro rfl
          exact locked ⟨wanted.1, holds, wanted.2⟩
        exact ⟨by omega, by omega, wanted⟩

theorem segvnUnlock_spec :
    Unlocked attr (fun p y => p = piece.seg ∧ piece.first ≤ y ∧ y < piece.first + piece.count) drv
        (segvnUnlock attr piece drv).2 ∧
      (segvnUnlock attr piece drv).1 = 0 := by
  -- Where nothing is done, no page can be unlocked.
  have nothing : (∀ y, ¬ (drv.svd piece.seg).Unlockable attr y) →
      Unlocked attr (fun p y => p = piece.seg ∧ piece.first ≤ y ∧ y < piece.first + piece.count) drv
        drv := by
    intro locked
    refine ⟨fun _ => Svd.Same.rfl', rfl, fun p y => (and_iff_left ?_).symm⟩
    rintro ⟨⟨rfl, -⟩, unlockable⟩
    exact locked y unlockable
  by_cases ignored : (drv.svd piece.seg).Ignored attr
  · have eq : segvnUnlock attr piece drv = (0, drv) := if_pos ignored
    rw [eq]
    exact ⟨nothing fun y unlockable => unlockable.1 ignored, rfl⟩
  by_cases vpage : (drv.svd piece.seg).vpage = none
  · have eq : segvnUnlock attr piece drv = (0, drv) := (if_neg ignored).trans (if_pos vpage)
    rw [eq]
    exact ⟨nothing fun y unlockable => unlockable.2.1 vpage, rfl⟩
  have eq : segvnUnlock attr piece drv = (0, drv.set piece.seg
      (unlockPages attr piece.count piece.first (drv.svd piece.seg))) :=
    (if_neg ignored).trans (if_neg vpage)
  obtain ⟨same, lock⟩ := @unlockPages_spec attr piece.count piece.first (drv.svd piece.seg) vpage
  rw [eq]
  refine ⟨⟨fun p => ?_, rfl, fun p y => ?_⟩, rfl⟩
  · by_cases here : p = piece.seg
    · rw [here, Drv.set_svd]
      exact same
    · rw [Drv.set_others _ _ here]
      exact Svd.Same.rfl'
  · by_cases here : p = piece.seg
    · rw [here, Drv.Holds, Drv.set_svd, lock, Drv.Holds]
      refine and_congr_right fun _ => not_congr ?_
      constructor
      · rintro ⟨le, lt, wanted⟩
        exact ⟨⟨rfl, le, lt⟩, ignored, vpage, wanted⟩
      · rintro ⟨⟨-, le, lt⟩, unlockable⟩
        exact ⟨le, lt, unlockable.2.2⟩
    · rw [Drv.Holds, Drv.set_others _ _ here, Drv.Holds, and_iff_left fun there => here there.1.1]

end Pieces

end Sol25.Seglist
