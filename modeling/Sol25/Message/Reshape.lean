import Mathlib.Algebra.Order.BigOperators.Group.List
import Mathlib.Data.List.TakeWhile
import Sol25.Message.Blocks

/-!
# Reshaping messages

What `pullupmsg`, `msgpullup` and `adjmsg` do to the bytes of a message and their types.
`msgpullup` does not look whether the rest of the message could be duplicated, and `adjmsg` negates
its argument.
-/

namespace Sol25.Message
namespace Mem

open Function List Option Int Nat Bool

variable {mem : Mem} {bp mp new : Mblk} {bps cont : List Mblk} {t : Fin 256} {len : ℤ}

/-! ### Bytes and types -/

/-- The bytes of a chain, each with its type. -/
def pairs (mem : Mem) (chain : List Mblk) : List (Fin 256 × Fin 256) :=
  chain.flatMap fun bp => (mem.bytes bp).map fun byte => (mem.type bp, byte)

/-- The leading blocks of a type. -/
def run (mem : Mem) (t : Fin 256) (bps : List Mblk) : List Mblk :=
  bps.takeWhile fun bp => mem.type bp = t

/-- The blocks behind them. -/
def rest (mem : Mem) (t : Fin 256) (bps : List Mblk) : List Mblk :=
  bps.dropWhile fun bp => mem.type bp = t

/-- How many bytes blocks have. -/
def sizes (bps : List Mblk) : ℕ := (bps.map Mblk.size).sum

/-- The size of the leading blocks of a type. -/
def runSize (mem : Mem) (t : Fin 256) (bps : List Mblk) : ℕ := sizes (mem.run t bps)

/-- The blocks of a chain are within allocated data blocks, and their sizes are numbers of type
`int`. -/
structure Chain (mem : Mem) (bps : List Mblk) : Prop where
  ordered : ∀ bp ∈ bps, bp.rptr ≤ bp.wptr
  small : ∀ bp ∈ bps, bp.size < 2 ^ 31
  made : ∀ bp ∈ bps, bp.dblk < mem.made

@[simp] theorem pairs_nil : mem.pairs [] = [] := rfl

theorem pairs_cons (bp : Mblk) (bps : List Mblk) :
    mem.pairs (bp :: bps) = ((mem.bytes bp).map fun byte => (mem.type bp, byte)) ++ mem.pairs bps :=
      flatMap_cons ..

@[simp] theorem pairs_append (front back : List Mblk) :
    mem.pairs (front ++ back) = mem.pairs front ++ mem.pairs back := flatMap_append ..

@[simp] theorem length_bytes (mem : Mem) (bp : Mblk) : (mem.bytes bp).length = bp.size := by
  rw [bytes, length_map, length_range]

theorem sizes_cons (bp : Mblk) (bps : List Mblk) : sizes (bp :: bps) = bp.size + sizes bps := by
  rw [sizes, sizes, map_cons, sum_cons]

theorem length_pairs (mem : Mem) (bps : List Mblk) : (mem.pairs bps).length = sizes bps := by
  induction bps with
  | nil => rfl
  | cons bp bps ih => rw [pairs_cons, length_append, length_map, length_bytes, ih, sizes_cons]

theorem run_append_rest (mem : Mem) (t : Fin 256) (bps : List Mblk) :
    mem.run t bps ++ mem.rest t bps = bps :=
  takeWhile_append_dropWhile ..

theorem pairs_run (mem : Mem) (t : Fin 256) (bps : List Mblk) :
    mem.pairs bps = mem.pairs (mem.run t bps) ++ mem.pairs (mem.rest t bps) := by
  rw [← pairs_append, run_append_rest]

theorem run_cons_pos (same : mem.type bp = t) (bps : List Mblk) :
    mem.run t (bp :: bps) = bp :: mem.run t bps := by
  rw [run, takeWhile_cons_of_pos (by simpa using same), ← run]

theorem run_cons_neg (differ : mem.type bp ≠ t) (bps : List Mblk) : mem.run t (bp :: bps) = [] := by
  rw [run, takeWhile_cons_of_neg (by simpa using differ)]

theorem runSize_cons_pos (same : mem.type bp = t) (bps : List Mblk) :
    mem.runSize t (bp :: bps) = bp.size + mem.runSize t bps := by
  rw [runSize, run_cons_pos same, sizes_cons, ← runSize]

theorem runSize_cons_neg (differ : mem.type bp ≠ t) (bps : List Mblk) :
    mem.runSize t (bp :: bps) = 0 := by
  rw [runSize, run_cons_neg differ]
  rfl

variable {dst src : Mblk} {mem' : Mem}

theorem pairs_congr (same : ∀ bp ∈ bps, mem'.dblk bp.dblk = mem.dblk bp.dblk) :
    mem'.pairs bps = mem.pairs bps := by
  induction bps with
  | nil => rfl
  | cons bp bps ih =>
    have here := same bp mem_cons_self
    rw [pairs_cons, pairs_cons, ih fun y member => same y (mem_cons_of_mem bp member), bytes,
      bytes, type, type, here]

/-! ### Sizes as numbers of type int -/

theorem toInt_eq {x : ℤ} (lower : -2 ^ 31 ≤ x) (upper : x < 2 ^ 31) : toInt x = x :=
  bmod_eq_of_le (by omega) (by omega)

theorem toInt_lt (x : ℤ) : toInt x < 2 ^ 31 := bmod_lt (by decide)

theorem toInt_ge (x : ℤ) : -2 ^ 31 ≤ toInt x := le_bmod (by decide)

theorem toInt_large {x : ℤ} (large : 2 ^ 31 ≤ x) : toInt x ≤ x - 2 ^ 32 := by
  have upper := toInt_lt x
  have congruent : toInt x % 2 ^ 32 = x % 2 ^ 32 := bmod_emod
  omega

theorem toInt_le (n : ℕ) : toInt n ≤ n := by
  by_cases large : 2 ^ 31 ≤ (n : ℤ)
  · exact Int.le_trans (toInt_large large) (by omega)
  · exact Int.le_of_eq (toInt_eq (by omega) (by omega))

theorem xmsgsizeLoop_eq (bps : List Mblk) (count : ℤ) :
    mem.xmsgsizeLoop t bps (toInt count) = toInt (count + mem.runSize t bps) := by
  induction bps generalizing count with
  | nil => rw [xmsgsizeLoop, runSize, run, takeWhile_nil, sizes, map_nil, sum_nil,
      Nat.cast_zero, add_zero]
  | cons bp bps ih =>
    rw [xmsgsizeLoop]
    by_cases same : mem.type bp = t
    · have sum : toInt (toInt count + bp.size) = toInt (count + bp.size) := bmod_add_bmod ..
      rw [if_neg (not_not.2 same.symm), runSize_cons_pos same, sum, ih, Nat.cast_add, add_assoc]
    · rw [if_pos (Ne.symm same), runSize_cons_neg same, Nat.cast_zero, add_zero]

theorem xmsgsize_eq (mem : Mem) (mp : Mblk) (cont : List Mblk) :
    mem.xmsgsize mp cont = toInt (mem.runSize (mem.type mp) (mp :: cont)) := by
  have start := @xmsgsizeLoop_eq mem (mem.type mp) (mp :: cont) 0
  rw [zero_add] at start
  exact start

/-! ### Copying -/

theorem type_bcopy (mem : Mem) (src dst bp : Mblk) (n : ℕ) :
    (mem.bcopy src dst n).type bp = mem.type bp := by
  rw [type, type, bcopy]
  dsimp only
  by_cases same : bp.dblk = dst.dblk
  · rw [same, update_self]
  · rw [update_of_ne same]

theorem dblk_bcopy {i : ℕ} (ne : i ≠ dst.dblk) (n : ℕ) :
    (mem.bcopy src dst n).dblk i = mem.dblk i :=
  update_of_ne ne _ _

theorem size_extend (ordered : dst.rptr ≤ dst.wptr) (n : ℕ) :
    ({ dst with wptr := dst.wptr + n } : Mblk).size = dst.size + n := by
  rw [Mblk.size, Mblk.size]
  dsimp only
  omega

/-- The bytes of the destination are followed by those that were copied. -/
theorem bytes_bcopy (ordered : dst.rptr ≤ dst.wptr) {n : ℕ} (within : n ≤ src.size) :
    (mem.bcopy src dst n).bytes { dst with wptr := dst.wptr + n } =
      mem.bytes dst ++ (mem.bytes src).take n := by
  have size := size_extend ordered n
  have copied : (mem.bcopy src dst n).dblk dst.dblk = { mem.dblk dst.dblk with
      data := fun i => if dst.wptr ≤ i ∧ i < dst.wptr + n then
        (mem.dblk src.dblk).data (src.rptr + (i - dst.wptr)) else (mem.dblk dst.dblk).data i } :=
    update_self ..
  refine ext_getElem ?_ fun i left right => ?_
  · rw [length_bytes, length_append, length_bytes, length_take, length_bytes, size,
      Nat.min_eq_left within]
  rw [length_bytes, size] at left
  rw [getElem_append]
  simp only [bytes, copied, getElem_map, getElem_range, getElem_take, length_map, length_range]
  rw [Mblk.size] at left ⊢
  split_ifs with new old old
  · omega
  · congr 1
    omega
  · rfl
  · omega

theorem bytes_advance (mem : Mem) (bp : Mblk) (n : ℕ) :
    mem.bytes { bp with rptr := bp.rptr + n } = (mem.bytes bp).drop n := by
  refine ext_getElem ?_ fun i left right => ?_
  · rw [length_bytes, length_drop, length_bytes, Mblk.size, Mblk.size]
    dsimp only
    omega
  · simp only [bytes, getElem_map, getElem_range, getElem_drop, Nat.add_assoc]

/-- Bytes of one type that are copied change places only. -/
theorem pairs_bcopy (ordered : dst.rptr ≤ dst.wptr) (apart : src.dblk ≠ dst.dblk)
    (same : mem.type src = mem.type dst) (others : ∀ bp ∈ bps, bp.dblk ≠ dst.dblk) {n : ℕ}
    (within : n ≤ src.size) :
    (mem.bcopy src dst n).pairs
      ({ dst with wptr := dst.wptr + n } :: { src with rptr := src.rptr + n } :: bps) =
      mem.pairs (dst :: src :: bps) := by
  have left : (mem.bcopy src dst n).bytes { src with rptr := src.rptr + n } =
      (mem.bytes src).drop n := by
    have unchanged : (mem.bcopy src dst n).dblk src.dblk = mem.dblk src.dblk := dblk_bcopy apart n
    rw [bytes_advance, bytes, bytes, unchanged]
  have type_dst : (mem.bcopy src dst n).type { dst with wptr := dst.wptr + n } = mem.type dst :=
    type_bcopy ..
  have type_src : (mem.bcopy src dst n).type { src with rptr := src.rptr + n } = mem.type src :=
    type_bcopy ..
  rw [pairs_cons, pairs_cons, pairs_cons, pairs_cons, bytes_bcopy ordered within, left, type_dst,
    type_src, same, pairs_congr fun bp member => dblk_bcopy (others bp member) n, map_append,
    append_assoc]
  congr 1
  rw [← append_assoc, ← map_append, take_append_drop]

theorem bcopy_zero (mem : Mem) (src dst : Mblk) : mem.bcopy src dst 0 = mem := by
  have unchanged : (fun i => if dst.wptr ≤ i ∧ i < dst.wptr + 0 then
      (mem.dblk src.dblk).data (src.rptr + (i - dst.wptr)) else (mem.dblk dst.dblk).data i) =
      (mem.dblk dst.dblk).data := by
    funext i
    exact if_neg (by omega)
  rw [bcopy, unchanged, update_eq_self]

theorem runSize_bcopy (src dst : Mblk) (n : ℕ) (bps : List Mblk) :
    (mem.bcopy src dst n).runSize t bps = mem.runSize t bps := by
  have same : (mem.bcopy src dst n).type = mem.type := funext fun bp => type_bcopy ..
  rw [runSize, runSize, run, run, same]

theorem pairs_empty (empty : bp.size = 0) (bps : List Mblk) :
    mem.pairs (bp :: bps) = mem.pairs bps := by
  rw [pairs_cons, eq_nil_of_length_eq_zero ((length_bytes mem bp).trans empty)]
  rfl

theorem pairs_cons_congr (same : mem'.pairs bps = mem.pairs cont)
    (front : mem'.pairs [bp] = mem.pairs [mp]) :
    mem'.pairs (bp :: bps) = mem.pairs (mp :: cont) := by
  rw [← singleton_append, pairs_append, same, front, ← pairs_append, singleton_append]

/-- The loop of `pullupmsg` moves bytes of the leading run to the new block. -/
theorem gather_spec {len : ℕ} (ordered_new : new.rptr ≤ new.wptr) (is_type : mem.type new = t)
    (apart : ∀ bp ∈ bps, bp.dblk ≠ new.dblk) (ordered : ∀ bp ∈ bps, bp.rptr ≤ bp.wptr)
    (enough : len ≤ mem.runSize t bps) :
    ∃ mem' new' left, gather bps len mem new = (mem', new', left) ∧
      (∀ i, i ≠ new.dblk → mem'.dblk i = mem.dblk i) ∧
      new'.size = new.size + len ∧ mem'.pairs (new' :: left) = mem.pairs (new :: bps) := by
  induction bps generalizing len mem new with
  | nil =>
    exact ⟨mem, new, [], rfl, fun _ _ => rfl, by rw [le_zero.1 enough, Nat.add_zero], rfl⟩
  | cons bp bps ih =>
    have apart_bp := apart bp mem_cons_self
    have apart_bps : ∀ y ∈ bps, y.dblk ≠ new.dblk :=
      fun y member => apart y (mem_cons_of_mem bp member)
    have ordered_bp := ordered bp mem_cons_self
    rw [gather]
    dsimp only
    by_cases done : len = 0
    · subst done
      rw [Nat.min_zero, bcopy_zero, Nat.add_zero, Nat.add_zero]
      by_cases full : bp.rptr ≠ bp.wptr
      · rw [if_pos full]
        exact ⟨mem, new, bp :: bps, rfl, fun _ _ => rfl, rfl, rfl⟩
      · rw [if_neg full, if_pos rfl]
        have empty : bp.size = 0 := by
          rw [Mblk.size]
          omega
        exact ⟨mem, new, bps, rfl, fun _ _ => rfl, rfl,
          pairs_cons_congr (pairs_empty empty bps).symm rfl⟩
    have same : mem.type bp = t := by
      by_contra differ
      rw [runSize_cons_neg differ] at enough
      omega
    rw [runSize_cons_pos same] at enough
    have moved := pairs_bcopy ordered_new apart_bp (same.trans is_type.symm) apart_bps
      (Nat.min_le_left bp.size len)
    have size := size_extend ordered_new (min bp.size len)
    have left_size : bp.rptr + min bp.size len ≠ bp.wptr ↔ len < bp.size := by
      rw [Mblk.size]
      omega
    have frame : ∀ i, i ≠ new.dblk → (mem.bcopy bp new (min bp.size len)).dblk i = mem.dblk i :=
      fun i ne => dblk_bcopy ne _
    by_cases partly : len < bp.size
    · rw [if_pos (left_size.2 partly)]
      refine ⟨_, _, _, rfl, frame, ?_, moved⟩
      rw [size, Nat.min_eq_right (Nat.le_of_lt partly)]
    rw [if_neg fun more => partly (left_size.1 more)]
    have whole : min bp.size len = bp.size := Nat.min_eq_left (Nat.le_of_not_lt partly)
    have used : ({ bp with rptr := bp.rptr + min bp.size len } : Mblk).size = 0 := by
      rw [whole, Mblk.size, Mblk.size]
      dsimp only
      omega
    have taken : (mem.bcopy bp new (min bp.size len)).pairs
        ({ new with wptr := new.wptr + min bp.size len } :: bps) = mem.pairs (new :: bp :: bps) :=
      (pairs_cons_congr (pairs_empty used bps).symm rfl).trans moved
    by_cases exact_match : len - min bp.size len = 0
    · rw [if_pos exact_match]
      refine ⟨_, _, _, rfl, frame, ?_, taken⟩
      rw [size, whole]
      omega
    · rw [if_neg exact_match]
      obtain ⟨mem', new', left, loops, frame', size', pairs'⟩ :=
        @ih (mem.bcopy bp new (min bp.size len)) { new with wptr := new.wptr + min bp.size len }
          (len - min bp.size len) (Nat.le_trans ordered_new (Nat.le_add_right ..))
          ((type_bcopy ..).trans is_type) apart_bps
              (fun y member => ordered y (mem_cons_of_mem bp member)) (by
            rw [runSize_bcopy]
            omega)
      refine ⟨mem', new', left, loops, fun i ne => (frame' i ne).trans (frame i ne), ?_,
        pairs'.trans taken⟩
      rw [size', size]
      omega

/-- The block that an allocation makes has no bytes, and leaves the other data blocks alone. -/
theorem allocb_some (mem : Mem) (found : Grant) (t : Fin 256) :
    ∃ mem', mem.allocb (some found) = some (mem', ⟨mem.made, 0, 0, 0, 0⟩) ∧
      (mem'.setType ⟨mem.made, 0, 0, 0, 0⟩ t).type ⟨mem.made, 0, 0, 0, 0⟩ = t ∧
      ∀ i, i ≠ mem.made → (mem'.setType ⟨mem.made, 0, 0, 0, 0⟩ t).dblk i = mem.dblk i := by
  refine ⟨_, rfl, ?_, fun i ne => ?_⟩
  · simp [type, setType]
  · exact (update_of_ne ne _ _).trans (update_of_ne ne _ _)

theorem run_congr (same : ∀ bp ∈ bps, mem'.dblk bp.dblk = mem.dblk bp.dblk) (t : Fin 256) :
    mem'.run t bps = mem.run t bps := by
  induction bps with
  | nil => rfl
  | cons bp bps ih =>
    have here : mem'.type bp = mem.type bp := congrArg Dblk.type (same bp mem_cons_self)
    have there := ih fun y member => same y (mem_cons_of_mem bp member)
    by_cases is_type : mem.type bp = t
    · rw [run_cons_pos is_type, run_cons_pos (here.trans is_type), there]
    · rw [run_cons_neg is_type, run_cons_neg fun eq => is_type (here.symm.trans eq)]

theorem runSize_congr (same : ∀ bp ∈ bps, mem'.dblk bp.dblk = mem.dblk bp.dblk) (t : Fin 256) :
    mem'.runSize t bps = mem.runSize t bps := by
  rw [runSize, runSize, run_congr same]

theorem size_le_runSize (mem : Mem) (mp : Mblk) (cont : List Mblk) :
    mp.size ≤ mem.runSize (mem.type mp) (mp :: cont) := by
  rw [runSize_cons_pos rfl]
  exact Nat.le_add_right ..

/-! ### pullupmsg -/

/-- What is expected of `pullupmsg`: it leaves the message alone, or keeps its bytes and has the
first ones in the first block. -/
def PullupLaw (mem : Mem) (mp : Mblk) (cont : List Mblk) (len : ℤ)
    (result : Bool × Mem × List Mblk) : Prop :=
  result = (false, mem, mp :: cont) ∨
    ∃ mem' mp' cont', result = (true, mem', mp' :: cont') ∧
      (∀ i < mem.made, mem'.dblk i = mem.dblk i) ∧
      mem'.pairs (mp' :: cont') = mem.pairs (mp :: cont) ∧
      (if len = -1 then (mem.runSize (mem.type mp) (mp :: cont) : ℤ) else len) ≤ mp'.size

/-- Bytes of the leading run are pulled up into a new block. -/
theorem gather_fresh (chain : Chain mem (mp :: cont)) (found : Grant) {n : ℕ}
    (enough : n ≤ mem.runSize (mem.type mp) (mp :: cont)) :
    ∃ mem₁ mem' new' left, mem.allocb (some found) = some (mem₁, ⟨mem.made, 0, 0, 0, 0⟩) ∧
      gather (mp :: cont) n (mem₁.setType ⟨mem.made, 0, 0, 0, 0⟩ (mem.type mp))
        ⟨mem.made, 0, 0, 0, 0⟩ =
        (mem', new', left) ∧ (∀ i < mem.made, mem'.dblk i = mem.dblk i) ∧ new'.size = n ∧
      mem'.pairs (new' :: left) = mem.pairs (mp :: cont) := by
  obtain ⟨mem₁, allocated, is_type, frame⟩ := allocb_some mem found (mem.type mp)
  have old : ∀ bp ∈ mp :: cont, bp.dblk ≠ mem.made :=
    fun bp member => Nat.ne_of_lt (chain.made bp member)
  have unchanged := fun bp member => frame bp.dblk (old bp member)
  obtain ⟨mem', new', left, gathers, frame', size, pairs⟩ :=
    @gather_spec _ ⟨mem.made, 0, 0, 0, 0⟩ (mp :: cont) (mem.type mp) n
        (Nat.le_refl 0) is_type old chain.ordered (by
      rwa [runSize_congr unchanged])
  refine ⟨mem₁, mem', new', left, allocated, gathers, fun i below => ?_,
    size.trans (Nat.zero_add n), ?_⟩
  · have ne : i ≠ mem.made := Nat.ne_of_lt below
    exact (frame' i ne).trans (frame i ne)
  · rw [pairs, pairs_empty rfl, pairs_congr unchanged]

/-- `pullupmsg` keeps to its law, but for all of a run that is too large for an `int`. -/
theorem pullupmsg_law_iff (chain : Chain mem (mp :: cont)) (grant : Option Grant) (len : ℤ) :
    PullupLaw mem mp cont len (mem.pullupmsg grant mp cont len) ↔
      (len = -1 → grant = none ∨ mem.runSize (mem.type mp) (mp :: cont) < 2 ^ 31) := by
  have first_small := chain.small mp mem_cons_self
  have first_le := size_le_runSize mem mp cont
  have total := xmsgsize_eq mem mp cont
  have total_le := toInt_le (mem.runSize (mem.type mp) (mp :: cont))
  have total_large := @toInt_large (mem.runSize (mem.type mp) (mp :: cont))
  have total_small := @toInt_eq (mem.runSize (mem.type mp) (mp :: cont)) (by omega)
  rw [pullupmsg]
  by_cases quick : mem.pulledUp mp cont len = true
  · rw [if_pos quick]
    rw [pulledUp] at quick
    have enough : (if len = -1 then (mem.runSize (mem.type mp) (mp :: cont) : ℤ) else len) ≤
        mp.size := by
      by_cases all : len = -1
      · rw [if_pos all, and_eq_true, List.isEmpty_iff] at quick
        rw [if_pos all, quick.1, runSize_cons_pos rfl]
        exact Int.le_of_eq rfl
      · rw [if_neg all, and_eq_true, decide_eq_true_eq] at quick
        rw [if_neg all]
        exact quick.1
    refine iff_of_true (.inr ⟨mem, mp, cont, rfl, fun _ _ => rfl, rfl, enough⟩) fun all => .inr ?_
    rw [if_pos all] at enough
    omega
  rw [if_neg quick]
  by_cases short : len ≠ -1 ∧ mem.xmsgsize mp cont < len
  · rw [if_pos short]
    exact iff_of_true (.inl rfl) fun all => absurd all short.1
  rw [if_neg short]
  cases grant with
  | none => exact iff_of_true (.inl rfl) fun _ => .inl rfl
  | some found =>
    rw [total] at short ⊢
    dsimp only
    generalize wanted :
      (if len = -1 then toInt (mem.runSize (mem.type mp) (mp :: cont)) else len) = n
    generalize size_eq : (if n < (mp.size : ℤ) then (mp.size : ℤ) else n) = size
    have size_ge : n ≤ size ∧ (mp.size : ℤ) ≤ size := by
      rw [← size_eq]
      split_ifs <;> omega
    have n_le : n ≤ mem.runSize (mem.type mp) (mp :: cont) := by
      rw [← wanted]
      split_ifs with all
      · exact total_le
      · omega
    have size_le : size = mp.size ∨ size = n := by
      rw [← size_eq]
      split_ifs
      · exact .inl rfl
      · exact .inr rfl
    obtain ⟨mem₁, mem', new', left, allocated, gathers, frame, new_size, pairs⟩ :=
      @gather_fresh _ _ _ chain found size.toNat (by omega)
    rw [allocated]
    dsimp only
    rw [gathers]
    have kept : mem'.pairs ({ new' with flag := mp.flag, band := mp.band } :: left) =
        mem.pairs (mp :: cont) := pairs
    constructor
    · rintro (failed | ⟨mem'', mp', cont', result, -, -, enough⟩) all
      · exact absurd (congrArg Prod.fst failed) Bool.noConfusion
      · obtain ⟨rfl, -⟩ := cons.inj (Prod.mk.inj (Prod.mk.inj result).2).2
        rw [if_pos all] at enough wanted
        have same_size : ({ new' with flag := mp.flag, band := mp.band } : Mblk).size =
            size.toNat := new_size
        rw [same_size] at enough
        refine .inr ?_
        omega
    · intro fits
      refine .inr ⟨mem', _, left, rfl, frame, kept, ?_⟩
      have same_size : ({ new' with flag := mp.flag, band := mp.band } : Mblk).size =
          size.toNat := new_size
      rw [same_size]
      by_cases all : len = -1
      · have small := (fits all).resolve_left (some_ne_none found)
        rw [if_pos all] at wanted ⊢
        omega
      · rw [if_neg all] at wanted ⊢
        omega

/-! ### msgpullup -/

/-- The blocks that are left when whole blocks have been taken until there are enough bytes. -/
def behind : List Mblk → ℤ → List Mblk
  | [], _ => []
  | bp :: bps, len => if 0 < len then behind bps (len - bp.size) else bp :: bps

theorem behind_subset (bps : List Mblk) (len : ℤ) : behind bps len ⊆ bps := by
  induction bps generalizing len with
  | nil => exact fun _ member => member
  | cons bp bps ih =>
    rw [behind]
    split_ifs
    · exact fun y member => mem_cons_of_mem bp (ih _ member)
    · exact fun _ member => member

/-- The loop of `msgpullup` moves whole blocks of the leading run to the new block. -/
theorem copyBlocks_spec (ordered_new : new.rptr ≤ new.wptr) (is_type : mem.type new = t)
    (apart : ∀ bp ∈ bps, bp.dblk ≠ new.dblk) (ordered : ∀ bp ∈ bps, bp.rptr ≤ bp.wptr)
    (small : ∀ bp ∈ bps, bp.size < 2 ^ 31) (enough : len ≤ mem.runSize t bps) :
    ∃ mem' new', copyBlocks bps len mem new = (mem', new', behind bps len) ∧
      (∀ i, i ≠ new.dblk → mem'.dblk i = mem.dblk i) ∧
      mem'.pairs (new' :: behind bps len) = mem.pairs (new :: bps) ∧
      new.size + len ≤ new'.size ∧ new'.size ≤ new.size + mem.runSize t bps ∧
      (len ≤ 0 → new'.size = new.size) ∧ (0 < len → (new'.size : ℤ) < new.size + len + 2 ^ 31) := by
  induction bps generalizing len mem new with
  | nil =>
    have none_left : len ≤ 0 := enough
    exact ⟨mem, new, rfl, fun _ _ => rfl,
      rfl, by omega, Nat.le_add_right .., fun _ => rfl, fun more => by omega⟩
  | cons bp bps ih =>
    rw [copyBlocks, behind]
    by_cases more : 0 < len
    · have same : mem.type bp = t := by
        by_contra differ
        rw [runSize_cons_neg differ] at enough
        omega
      have apart_bp := apart bp mem_cons_self
      have apart_bps : ∀ y ∈ bps, y.dblk ≠ new.dblk :=
        fun y member => apart y (mem_cons_of_mem bp member)
      have moved := pairs_bcopy ordered_new apart_bp (same.trans is_type.symm) apart_bps
        (Nat.le_refl bp.size)
      have size := size_extend ordered_new bp.size
      have used : ({ bp with rptr := bp.rptr + bp.size } : Mblk).size = 0 := by
        have := ordered bp mem_cons_self
        rw [Mblk.size, Mblk.size]
        dsimp only
        omega
      have bp_small := small bp mem_cons_self
      rw [runSize_cons_pos same] at enough ⊢
      obtain ⟨mem', new', copies, frame, pairs, at_least, at_most, stops, bound⟩ :=
        @ih (mem.bcopy bp new bp.size) { new with wptr := new.wptr + bp.size } (len - bp.size)
          (Nat.le_trans ordered_new (Nat.le_add_right ..)) ((type_bcopy ..).trans is_type) apart_bps
          (fun y member => ordered y (mem_cons_of_mem bp member))
          (fun y member => small y (mem_cons_of_mem bp member)) (by
            rw [runSize_bcopy]
            omega)
      rw [size] at at_least at_most stops bound
      rw [runSize_bcopy] at at_most
      rw [if_pos more, if_pos more]
      refine ⟨mem', new', copies, fun i ne => (frame i ne).trans (dblk_bcopy ne _),
        ?_, by omega, by omega,
        fun none_left => absurd more (Int.not_lt.2 none_left), fun _ => ?_⟩
      · rw [pairs, pairs_cons_congr (pairs_empty used bps).symm rfl, moved]
      · rcases lt_or_ge 0 (len - bp.size) with again | last
        · have := bound again
          omega
        · have := stops last
          omega
    · rw [if_neg more, if_neg more]
      exact ⟨mem, new, rfl, fun _ _ => rfl,
        rfl, by omega, Nat.le_add_right .., fun _ => rfl, fun more' => absurd more' more⟩

/-- A duplicate is the same chain. -/
theorem dupmsg_some {granted : List Bool} {refs refs' : ℕ → ℕ} {dups : List Mblk}
    (dup : dupmsg granted refs bps = some (dups, refs')) : dups = bps := by
  induction bps generalizing granted refs refs' dups with
  | nil => exact (Prod.mk.inj (some.inj dup)).1.symm
  | cons bp bps ih =>
    rw [dupmsg] at dup
    cases first : dupb (granted.headD false) refs bp with
    | none =>
      rw [first] at dup
      exact nomatch dup
    | some block =>
      rw [first] at dup
      have same : block.1 = bp := by
        rw [dupb] at first
        split_ifs at first
        obtain rfl := some.inj first
        rfl
      obtain ⟨⟨others, refs₁⟩, dup_others, eq⟩ := map_eq_some_iff.1 dup
      obtain ⟨rfl, -⟩ := Prod.mk.inj eq
      rw [same, ih dup_others]

/-- What is expected of `msgpullup`: it returns nothing, or a message of the same bytes with the
leading run in its first block.  The data blocks that were there stay as they are. -/
def MsgpullupLaw (mem : Mem) (mp : Mblk) (cont : List Mblk)
    (result : Option (List Mblk) × Mem × (ℕ → ℕ)) : Prop :=
  (∀ i < mem.made, result.2.1.dblk i = mem.dblk i) ∧
    (result.1 = none ∨ ∃ mp' cont', result.1 = some (mp' :: cont') ∧
      result.2.1.pairs (mp' :: cont') = mem.pairs (mp :: cont) ∧
      mem.runSize (mem.type mp) (mp :: cont) ≤ mp'.size)

/-- `msgpullup` keeps to its law if it returns nothing, or if the run is not too large for an `int`
and the rest, if it has any bytes, is duplicated. -/
theorem msgpullup_law_iff (chain : Chain mem (mp :: cont)) (grant : Option Grant)
    (granted : List Bool) (refs : ℕ → ℕ) (len : ℤ) :
    MsgpullupLaw mem mp cont (mem.msgpullup grant granted refs mp cont len) ↔
      grant = none ∨ (0 < len ∧ toInt (mem.runSize (mem.type mp) (mp :: cont)) < len) ∨
        (mem.runSize (mem.type mp) (mp :: cont) < 2 ^ 31 ∧
          (mem.pairs (behind (mp :: cont) (mem.runSize (mem.type mp) (mp :: cont))) = [] ∨
            (dupmsg granted refs
              (behind (mp :: cont) (mem.runSize (mem.type mp) (mp :: cont)))).isSome)) := by
  have total_le := toInt_le (mem.runSize (mem.type mp) (mp :: cont))
  have total_large := @toInt_large (mem.runSize (mem.type mp) (mp :: cont))
  have total_small := @toInt_eq (mem.runSize (mem.type mp) (mp :: cont)) (by omega)
  rw [← xmsgsize_eq] at total_le total_large total_small ⊢
  rw [msgpullup]
  dsimp only
  generalize mem.xmsgsize mp cont = total at total_le total_large total_small ⊢
  by_cases short : 0 < len ∧ total < len
  · rw [if_pos short]
    exact iff_of_true ⟨fun _ _ => rfl, .inl rfl⟩ (.inr (.inl short))
  rw [if_neg short]
  cases grant with
  | none => exact iff_of_true ⟨fun _ _ => rfl, .inl rfl⟩ (.inl rfl)
  | some found =>
    obtain ⟨mem₁, allocated, is_type, frame⟩ := allocb_some mem found (mem.type mp)
    have old : ∀ bp ∈ mp :: cont, bp.dblk ≠ mem.made :=
      fun bp member => Nat.ne_of_lt (chain.made bp member)
    have unchanged := fun bp member => frame bp.dblk (old bp member)
    obtain ⟨mem', new', copies, frame', pairs, at_least, at_most, stops, bound⟩ :=
      @copyBlocks_spec _ ⟨mem.made, 0, 0, mp.band, mp.flag⟩ (mp :: cont) (mem.type mp)
        total (Nat.le_refl 0) is_type old chain.ordered chain.small (by
          rwa [runSize_congr unchanged])
    have kept := pairs.trans ((pairs_empty rfl _).trans (pairs_congr unchanged))
    rw [runSize_congr unchanged] at at_most
    have start : (⟨mem.made, 0, 0, mp.band, mp.flag⟩ : Mblk).size = 0 := rfl
    rw [start] at at_least at_most stops bound
    have below : ∀ i < mem.made, mem'.dblk i = mem.dblk i := by
      intro i small
      have ne : i ≠ mem.made := Nat.ne_of_lt small
      exact (frame' i ne).trans (frame i ne)
    have behind_same : mem'.pairs (behind (mp :: cont) total) =
        mem.pairs (behind (mp :: cont) total) :=
      pairs_congr fun bp member => below bp.dblk (chain.made bp (behind_subset _ _ member))
    rw [allocated]
    dsimp only
    rw [copies]
    dsimp only
    by_cases small : mem.runSize (mem.type mp) (mp :: cont) < 2 ^ 31
    · have whole : total = mem.runSize (mem.type mp) (mp :: cont) := total_small (by omega)
      rw [whole] at kept behind_same short at_least ⊢
      have holds : mem.runSize (mem.type mp) (mp :: cont) ≤ new'.size := by omega
      cases dup : dupmsg granted refs
        (behind (mp :: cont) (mem.runSize (mem.type mp) (mp :: cont))) with
      | none =>
        have split := kept
        rw [← singleton_append, pairs_append, behind_same] at split
        constructor
        · rintro ⟨-, failed | ⟨mp', cont', result, same, -⟩⟩
          · exact nomatch failed
          · obtain ⟨rfl, rfl⟩ := cons.inj (some.inj result)
            have same : mem'.pairs [new'] = mem.pairs (mp :: cont) := same
            have lengths := congrArg List.length (split.trans same.symm)
            rw [length_append] at lengths
            exact .inr (.inr ⟨small, .inl (eq_nil_of_length_eq_zero (by omega))⟩)
        · rintro (impossible | impossible | ⟨-, empty | duplicated⟩)
          · exact nomatch impossible
          · exact absurd impossible short
          · rw [empty, append_nil] at split
            exact ⟨below, .inr ⟨new', [], rfl, split, holds⟩⟩
          · exact nomatch duplicated
      | some result =>
        obtain ⟨dups, refs'⟩ := result
        rw [dupmsg_some dup]
        exact iff_of_true ⟨below, .inr ⟨new', _, rfl, kept, holds⟩⟩ (.inr (.inr ⟨small, .inr rfl⟩))
    · have missing : new'.size < mem.runSize (mem.type mp) (mp :: cont) := by
        rcases lt_or_ge 0 total with more | none_left
        · have := bound more
          omega
        · have := stops none_left
          omega
      refine iff_of_false ?_ ?_
      · rintro ⟨-, failed | ⟨mp', cont', result, -, holds⟩⟩
        · cases dup : dupmsg granted refs (behind (mp :: cont) total) <;>
            rw [dup] at failed <;> exact nomatch failed
        · have first : mp' = new' := by
            cases dup : dupmsg granted refs (behind (mp :: cont) total) <;> rw [dup] at result <;>
              exact (cons.inj (some.inj result)).1.symm
          rw [first] at holds
          omega
      · rintro (impossible | impossible | ⟨fits, -⟩)
        · exact nomatch impossible
        · exact short impossible
        · exact small fits

end Mem
end Sol25.Message
