import Sol25.Kmem.Geometry
import Mathlib.Data.Nat.ModEq
import Mathlib.Tactic.Linarith

/-!
# Where the chunks of a slab lie

The sizes of a cache leave room for a chunk of any colour, and the chunks of a slab lie apart from
each other and from what else is in its pages.
-/

namespace Sol25.Kmem

open Blocks List Option Nat Bool Function

variable {pageshift align bufsize chunksize maxraw k fuel chunks minwaste base limit buf : ℕ}
  {cp : Cache} {bestfit : Option ℕ}

/-! ### Sizes -/

theorem alignUp_spec (pos : 0 < align) (x : ℕ) :
    x ≤ alignUp x align ∧ align ∣ alignUp x align ∧ alignUp x align < x + align := by
  have division := div_add_mod (x + (align - 1)) align
  have rest := mod_lt (x + (align - 1)) pos
  rw [alignUp, Nat.mul_comm]
  exact ⟨by omega, Nat.dvd_mul_right _ _, by omega⟩

/-- What a chunk has room for, before it is aligned. -/
theorem linkOffset_spec (flags : Flags) (raw constructed : Bool) (pos : 1 ≤ bufsize)
    {offset size : ℕ} (eq : linkOffset flags raw constructed bufsize = (offset, size)) :
    bufsize ≤ size ∧ offset + sizeofPointer ≤ size ∧
      (raw = true → constructed = true → bufsize ≤ offset) ∧
      (flags.buftag = true → bufsize ≤ offset ∧ offset + sizeofKmemBuftag ≤ size) ∧
      size ≤ alignUp bufsize kmemAlign + 16 := by
  obtain ⟨le, ⟨q, multiple⟩, lt⟩ := alignUp_spec (by decide : 0 < kmemAlign) bufsize
  obtain ⟨le', ⟨r, words⟩, lt'⟩ := alignUp_spec (by decide : 0 < sizeofPointer) bufsize
  by_cases tagged : flags.buftag = true
  · simp only [linkOffset, if_pos tagged] at eq
    obtain ⟨rfl, rfl⟩ := Prod.mk.inj eq
    simp only [kmemAlign, sizeofPointer, sizeofKmemBuftag] at *
    exact ⟨by omega, by omega, fun _ _ => le', fun _ => ⟨le', le_rfl⟩, by omega⟩
  · by_cases linked : (raw && constructed) = true
    · by_cases room : sizeofPointer ≤ alignUp bufsize kmemAlign - bufsize
      · simp only [linkOffset, if_neg tagged, if_pos linked, if_pos room] at eq
        obtain ⟨rfl, rfl⟩ := Prod.mk.inj eq
        simp only [kmemAlign, sizeofPointer] at *
        exact ⟨by omega, by omega, fun _ _ => by omega, fun tagged' => absurd tagged' tagged,
          by omega⟩
      · simp only [linkOffset, if_neg tagged, if_pos linked, if_neg room] at eq
        obtain ⟨rfl, rfl⟩ := Prod.mk.inj eq
        simp only [kmemAlign, sizeofPointer] at *
        exact ⟨by omega, by omega, fun _ _ => by omega, fun tagged' => absurd tagged' tagged,
          by omega⟩
    · simp only [linkOffset, if_neg tagged, if_neg linked] at eq
      obtain ⟨rfl, rfl⟩ := Prod.mk.inj eq
      simp only [kmemAlign, sizeofPointer] at *
      exact ⟨by omega, by omega, fun is_raw is_constructed =>
        absurd (by rw [is_raw, is_constructed]; rfl) linked, fun tagged' => absurd tagged' tagged,
        by omega⟩

/-! ### The size of a slab -/

/-- A size that the loop tries. -/
def Candidate (pageshift chunksize slabsize : ℕ) : Prop :=
  ∃ chunks, 1 ≤ chunks ∧ slabsize = roundPages pageshift (chunksize * chunks)

def waste (chunksize slabsize : ℕ) : ℕ := slabsize % chunksize / (slabsize / chunksize)

theorem roundPages_spec (pageshift x : ℕ) : x ≤ roundPages pageshift x ∧
    2 ^ pageshift ∣ roundPages pageshift x ∧ roundPages pageshift x < x + 2 ^ pageshift :=
  alignUp_spec (Nat.two_pow_pos pageshift) x

theorem le_chunks (pageshift : ℕ) (pos : 0 < chunksize) (chunks : ℕ) :
    chunks ≤ roundPages pageshift (chunksize * chunks) / chunksize :=
  (le_div_iff_mul_le pos).2 (by
    rw [Nat.mul_comm]
    exact (roundPages_spec _ _).1)

/-- The loop ends with the size that wastes least of those it tried, and the last of them has room
for as many chunks as the fraction says. -/
theorem slabLoop_spec (pos : 0 < chunksize) (enough : kmemVoidFraction + 1 < fuel + chunks)
    (fuel_pos : 0 < fuel) (chunks_pos : 1 ≤ chunks)
    (known : bestfit = none ∧ chunks ≤ kmemVoidFraction ∧ minwaste = 2 ^ 31 - 1 ∨
      ∃ slabsize, bestfit = some slabsize ∧ Candidate pageshift chunksize slabsize ∧
        minwaste = waste chunksize slabsize ∧
        (kmemVoidFraction < chunks → ∃ last, Candidate pageshift chunksize last ∧
          kmemVoidFraction ≤ last / chunksize ∧ minwaste ≤ waste chunksize last))
    (small : chunksize < 2 ^ 31 - 1) :
    ∃ slabsize last, slabLoop pageshift chunksize fuel chunks minwaste bestfit = some slabsize ∧
      Candidate pageshift chunksize slabsize ∧ Candidate pageshift chunksize last ∧
      kmemVoidFraction ≤ last / chunksize ∧ waste chunksize slabsize ≤ waste chunksize last := by
  induction fuel generalizing chunks minwaste bestfit with
  | zero => exact absurd fuel_pos (lt_irrefl 0)
  | succ fuel ih =>
    rw [slabLoop]
    by_cases more : chunks ≤ kmemVoidFraction
    · rw [if_pos more]
      dsimp only
      set slabsize := roundPages pageshift (chunksize * chunks) with slabsize_eq
      have candidate : Candidate pageshift chunksize slabsize := ⟨chunks, chunks_pos, rfl⟩
      have grows := le_chunks pageshift pos chunks
      rw [← slabsize_eq] at grows
      have next : kmemVoidFraction + 1 < fuel + (slabsize / chunksize + 1) := by omega
      have fuel_pos' : 0 < fuel := by
        simp only [kmemVoidFraction] at *
        omega
      change ∃ _ _, (if waste chunksize slabsize < minwaste then _ else _) = _ ∧ _
      by_cases better : waste chunksize slabsize < minwaste
      · rw [if_pos better]
        refine ih next fuel_pos' (by omega) (.inr ⟨slabsize, rfl, candidate, rfl, ?_⟩)
        intro last
        exact ⟨slabsize, candidate, by omega, le_rfl⟩
      · rw [if_neg better]
        have not_first : ¬minwaste = 2 ^ 31 - 1 := by
          rintro rfl
          have waste_lt : waste chunksize slabsize < chunksize :=
            (div_le_self _ _).trans_lt (mod_lt _ pos)
          omega
        rcases known with ⟨-, -, first⟩ | ⟨best, best_eq, best_candidate, minwaste_eq, -⟩
        · exact absurd first not_first
        · refine ih next fuel_pos' (by omega)
            (.inr ⟨best, best_eq, best_candidate, minwaste_eq, fun last => ?_⟩)
          exact ⟨slabsize, candidate, by omega, not_lt.1 better⟩
    · rw [if_neg more]
      rcases known with ⟨-, le, -⟩ | ⟨best, best_eq, best_candidate, minwaste_eq, ends⟩
      · exact absurd le more
      · obtain ⟨last, last_candidate, room, le⟩ := ends (not_le.1 more)
        exact ⟨best, last, best_eq, best_candidate, last_candidate, room, minwaste_eq ▸ le⟩

/-- A size that the loop tries has room for a chunk, and less than a page is left over. -/
theorem Candidate.spec {slabsize : ℕ} (candidate : Candidate pageshift chunksize slabsize)
    (pos : 0 < chunksize) :
    chunksize ≤ slabsize ∧ 2 ^ pageshift ∣ slabsize ∧ slabsize % chunksize < 2 ^ pageshift := by
  obtain ⟨chunks, chunks_pos, rfl⟩ := candidate
  obtain ⟨le, pages, lt⟩ := roundPages_spec pageshift (chunksize * chunks)
  refine ⟨(Nat.le_mul_of_pos_right _ chunks_pos).trans le, pages, ?_⟩
  rcases Nat.lt_or_ge (2 ^ pageshift) chunksize with long | short
  · obtain ⟨rest, slabsize_eq⟩ := Nat.exists_eq_add_of_le le
    rw [slabsize_eq, mul_add_mod, mod_eq_of_lt (by omega)]
    omega
  · exact (mod_lt _ pos).trans_le short

/-- The waste is below one part in eight: the last size wastes less than that, and the best one
wastes no more for each chunk. -/
theorem waste_lt {slabsize last : ℕ} (pos : 0 < chunksize) (candidate : chunksize ≤ slabsize)
    (room : kmemVoidFraction ≤ last / chunksize)
    (le : waste chunksize slabsize ≤ waste chunksize last)
    (large : 49 ≤ chunksize) : kmemVoidFraction * (slabsize % chunksize) < slabsize := by
  have chunks_pos : 0 < slabsize / chunksize := div_pos candidate pos
  have division := div_add_mod slabsize chunksize
  have last_waste : waste chunksize last * kmemVoidFraction < chunksize := by
    have step : waste chunksize last * kmemVoidFraction ≤
        waste chunksize last * (last / chunksize) := mul_le_mul_left _ room
    exact (step.trans (div_mul_le_self _ _)).trans_lt (mod_lt _ pos)
  have rest_lt : slabsize % chunksize < slabsize / chunksize * (waste chunksize slabsize + 1) := by
    rw [Nat.mul_comm]
    exact (div_lt_iff_lt_mul chunks_pos).1 (lt_succ_self _)
  simp only [kmemVoidFraction] at *
  have bound : 7 * (waste chunksize slabsize + 1) ≤ chunksize := by omega
  have scaled : slabsize / chunksize * (7 * (waste chunksize slabsize + 1)) ≤
      slabsize / chunksize * chunksize := mul_le_mul_left _ bound
  nlinarith [Nat.mul_comm (slabsize / chunksize) chunksize]

/-! ### Caches -/

/-- The sizes of a cache: what a chunk has room for, and that a chunk of the largest colour fits
into a slab. -/
structure Geometry (pageshift : ℕ) (constructed : Bool) (cp : Cache) : Prop where
  align_power : ∃ k ≤ pageshift, cp.align = 2 ^ k
  chunk_pos : 0 < cp.chunksize
  chunk_aligned : cp.align ∣ cp.chunksize
  buf_le : cp.bufsize ≤ cp.chunksize
  tag : cp.buftag = true → cp.bufsize ≤ cp.offset ∧ cp.offset + sizeofKmemBuftag ≤ cp.chunksize
  link : cp.offset + sizeofPointer ≤ cp.chunksize
  link_behind : cp.raw = true → constructed = true → cp.bufsize ≤ cp.offset
  pages : 2 ^ pageshift ∣ cp.slabsize
  raw_page : cp.raw = true → cp.slabsize = 2 ^ pageshift
  room : cp.maxcolor + cp.chunksize + (if cp.raw then sizeofKmemSlab else 0) ≤ cp.slabsize
  same_chunks : cp.raw = false → cp.maxcolor ≤ cp.slabsize % cp.chunksize
  maxcolor_lt : cp.maxcolor < 2 ^ pageshift
  waste : cp.raw = false → kmemVoidFraction * (cp.slabsize % cp.chunksize) < cp.slabsize

structure Colored (cp : Cache) : Prop where
  aligned : cp.align ∣ cp.color
  le : cp.color ≤ cp.maxcolor

theorem mod_add_le {x chunksize : ℕ} (le : chunksize ≤ x) (pos : 0 < chunksize) :
    x % chunksize + chunksize ≤ x := by
  have quotient : 1 ≤ x / chunksize := div_pos le pos
  have division := div_add_mod x chunksize
  have product : chunksize * 1 ≤ chunksize * (x / chunksize) := mul_le_mul_left _ quotient
  omega

/-- The sizes of a slab, raw or not. -/
theorem slab_sizes (page : 12 ≤ pageshift) (raw : Bool) {chunksize : ℕ} (pos : 0 < chunksize)
    (raw_small : raw = true → chunksize < 2 ^ pageshift / kmemVoidFraction + 8)
    (small : chunksize < 2 ^ 31 - 1) :
    ∃ sizes : ℕ × ℕ, (if raw then some (2 ^ pageshift, (2 ^ pageshift - sizeofKmemSlab) % chunksize)
      else (slabLoop pageshift chunksize (kmemVoidFraction + 1) 1 (2 ^ 31 - 1) none).map
        fun slabsize => (slabsize, slabsize % chunksize)) = some sizes ∧
      2 ^ pageshift ∣ sizes.1 ∧ (raw = true → sizes.1 = 2 ^ pageshift) ∧
      sizes.2 + chunksize + (if raw then sizeofKmemSlab else 0) ≤ sizes.1 ∧
      sizes.2 < 2 ^ pageshift ∧ (raw = false → sizes.2 = sizes.1 % chunksize ∧
        kmemVoidFraction * (sizes.1 % chunksize) < sizes.1) := by
  have large : 2 ^ 12 ≤ 2 ^ pageshift := Nat.pow_le_pow_right (by decide) page
  cases raw with
  | true =>
    have short := raw_small rfl
    simp only [kmemVoidFraction] at short
    have fits := @mod_add_le (2 ^ pageshift - sizeofKmemSlab) chunksize
      (by simp only [sizeofKmemSlab]; omega) pos
    refine ⟨_, rfl, dvd_rfl, fun _ => rfl, ?_, ?_, fun raw => (nomatch raw)⟩
    · rw [if_pos rfl]
      simp only [sizeofKmemSlab] at *
      omega
    · dsimp only
      simp only [sizeofKmemSlab] at *
      omega
  | false =>
    obtain ⟨slabsize, last, looped, candidate, -, room, le⟩ :=
      @slabLoop_spec pageshift chunksize (kmemVoidFraction + 1) 1 (2 ^ 31 - 1) none pos
        (by decide) (by decide) le_rfl (.inl ⟨rfl, by decide, rfl⟩) small
    obtain ⟨chunk_le, ⟨q, pages⟩, rest_lt⟩ := candidate.spec pos
    have waste_small : kmemVoidFraction * (slabsize % chunksize) < slabsize := by
      by_cases wide : 49 ≤ chunksize
      · exact waste_lt pos chunk_le room le wide
      · have q_pos : q ≠ 0 := by
          rintro rfl
          omega
        have page_le : 2 ^ pageshift * 1 ≤ 2 ^ pageshift * q :=
          mul_le_mul_left _ (Nat.pos_of_ne_zero q_pos)
        have rest := mod_lt slabsize pos
        simp only [kmemVoidFraction]
        omega
    refine ⟨(slabsize, slabsize % chunksize), ?_, ⟨q, pages⟩, fun raw => (nomatch raw), ?_,
      rest_lt, fun _ => ⟨rfl, waste_small⟩⟩
    · rw [looped]
      rfl
    · exact mod_add_le chunk_le pos

theorem cacheAlign_spec (flags : Flags) (power : align = 2 ^ k) (le : k ≤ pageshift)
    (page : 12 ≤ pageshift) :
    ∃ j ≤ pageshift, cacheAlign pageshift flags align = 2 ^ j ∧ k ≤ j := by
  rw [cacheAlign, minAlign, power]
  split_ifs with own less less
  · exact ⟨pageshift, le_rfl, rfl, le⟩
  · exact ⟨k, le, rfl, le_rfl⟩
  · refine ⟨3, by omega, rfl, ?_⟩
    exact ((Nat.pow_lt_pow_iff_right (by decide)).1 (less : 2 ^ k < 2 ^ 3)).le
  · exact ⟨k, le, rfl, le_rfl⟩

/-- What `kmem_cache_create` works out. -/
theorem kmemCacheCreate_spec (flags : Flags) (constructor destructor : Bool) (page : 12 ≤ pageshift)
    (maxraw_le : maxraw ≤ 2 ^ pageshift / kmemVoidFraction - 1) (pos : 1 ≤ bufsize)
    (power : align = 2 ^ k) (le : k ≤ pageshift)
    (small : kmemVoidFraction * chunkSize flags (isRaw maxraw bufsize (cacheAlign pageshift flags
      align)) (constructor || destructor) bufsize (cacheAlign pageshift flags align) +
      2 ^ pageshift ≤ 2 ^ 31) :
    ∃ cp, kmemCacheCreate pageshift flags maxraw bufsize align constructor destructor = some cp ∧
      Geometry pageshift (constructor || destructor) cp ∧ Colored cp ∧ align ∣ cp.align ∧
      cp.bufsize = bufsize := by
  obtain ⟨j, j_le, align_eq, k_le⟩ := cacheAlign_spec flags power le page
  have j_pos : 0 < 2 ^ j := Nat.two_pow_pos j
  have plain : ¬(2 ^ j &&& (2 ^ j - 1) ≠ 0 ∨ 2 ^ pageshift < 2 ^ j) := by
    rintro (bad | wide)
    · rw [and_two_pow_sub_one_eq_mod, mod_self] at bad
      exact bad rfl
    · exact absurd (Nat.pow_le_pow_right (by decide) j_le) (not_le.2 wide)
  rw [align_eq] at small
  set raw := isRaw maxraw bufsize (2 ^ j) with raw_eq
  set constructed := constructor || destructor with constructed_eq
  obtain ⟨offset, size, offset_eq⟩ : ∃ offset size,
      linkOffset flags raw constructed bufsize = (offset, size) := ⟨_, _, rfl⟩
  obtain ⟨buf_le, link, behind, tag, size_le⟩ := linkOffset_spec flags raw constructed pos offset_eq
  obtain ⟨size_le', aligned, lt⟩ := alignUp_spec j_pos size
  have chunk_eq : chunkSize flags raw constructed bufsize (2 ^ j) = alignUp size (2 ^ j) := by
    rw [chunkSize, offset_eq]
  rw [chunk_eq] at small
  have raw_small : raw = true → alignUp size (2 ^ j) < 2 ^ pageshift / kmemVoidFraction + 8 := by
    intro is_raw
    have below := of_decide_eq_true (raw_eq ▸ is_raw)
    simp only [kmemAlign, kmemVoidFraction] at *
    omega
  simp only [sizeofPointer] at link
  obtain ⟨sizes, sized, pages, raw_page, room, color_lt, hashed⟩ := @slab_sizes pageshift page raw
    (alignUp size (2 ^ j)) (by omega) raw_small
    (by simp only [kmemVoidFraction] at small; omega)
  rw [kmemCacheCreate]
  dsimp only
  rw [align_eq, if_neg plain, ← raw_eq, ← constructed_eq, chunk_eq, sized, map_some, offset_eq]
  refine ⟨_, rfl,
    ⟨⟨j, j_le, rfl⟩, ?_, aligned, ?_, ?_, ?_, behind, pages, raw_page, ?_, ?_, ?_, ?_⟩,
    ⟨Nat.dvd_mul_left _ _, ?_⟩, ?_, rfl⟩
  · dsimp only
    omega
  · exact buf_le.trans size_le'
  · intro tagged
    have own : flags.buftag = true := by
      dsimp only at tagged
      split_ifs at tagged
      · simp only [Flags.buftag, or_eq_true] at tagged ⊢
        exact tagged.imp_left (.imp_left (.imp_left fun none => absurd none Bool.false_ne_true))
      · exact tagged
    exact ⟨(tag own).1, (tag own).2.trans size_le'⟩
  · exact le_trans link size_le'
  · dsimp only
    split_ifs at room ⊢
    all_goals omega
  · intro not_raw
    dsimp only
    obtain ⟨same, -⟩ := hashed not_raw
    split_ifs
    · exact zero_le _
    · exact same.le
  · dsimp only
    split_ifs
    all_goals omega
  · exact fun not_raw => (hashed not_raw).2
  · exact (div_mul_le_self _ _).trans (div_le_self _ _)
  · exact power ▸ Nat.pow_dvd_pow 2 k_le

/-! ### Slabs -/

theorem Colored.recolor (colored : Colored cp) : Colored cp.recolor := by
  rw [Cache.recolor]
  refine ⟨?_, ?_⟩
  · dsimp only
    split_ifs
    · exact dvd_zero _
    · exact Nat.dvd_add colored.aligned dvd_rfl
  · dsimp only
    split_ifs with over_max
    · exact zero_le _
    · exact not_lt.1 over_max

theorem recolor_iterate (colored : Colored cp) (n : ℕ) :
    ∃ color, Cache.recolor^[n] cp = { cp with color := color } ∧
      Colored { cp with color := color } := by
  induction n with
  | zero => exact ⟨cp.color, rfl, colored⟩
  | succ n ih =>
    obtain ⟨color, recolored, colored'⟩ := ih
    rw [iterate_succ_apply', recolored]
    exact ⟨_, rfl, colored'.recolor⟩

/-- The loop lays as many chunks as there is room for. -/
theorem chunkLoop_spec {chunksize limit fuel buf : ℕ} (pos : 0 < chunksize) (le : buf ≤ limit)
    (enough : (limit - buf) / chunksize < fuel) :
    chunkLoop chunksize limit fuel buf =
      some ((List.range ((limit - buf) / chunksize)).map fun i => buf + i * chunksize) := by
  induction fuel generalizing buf with
  | zero => exact absurd enough (not_lt_zero _)
  | succ fuel ih =>
    rw [chunkLoop]
    by_cases room : buf + chunksize ≤ limit
    · have count : (limit - buf) / chunksize = (limit - (buf + chunksize)) / chunksize + 1 := by
        rw [← Nat.sub_sub, div_eq_sub_div pos (by omega)]
      rw [count] at enough ⊢
      rw [if_pos room, ih room (by omega), map_some, range_succ_eq_map, map_cons,
        List.map_map, Nat.zero_mul, Nat.add_zero]
      congr 2
      refine map_congr_left fun i _ => ?_
      rw [comp_apply, succ_mul]
      omega
    · rw [if_neg room, div_eq_of_lt (by omega)]
      rfl

theorem separate_range (chunksize buf count : ℕ) :
    Separate (((List.range count).map fun i => buf + i * chunksize).map fun buf =>
      (buf, buf + chunksize)) := by
  rw [List.map_map, Separate, pairwise_map]
  refine (pairwise_lt_range).imp fun {i j} lt => .inl ?_
  have scaled : (i + 1) * chunksize ≤ j * chunksize := mul_le_mul_right _ lt
  rw [succ_mul] at scaled
  simp only [comp_apply]
  omega

/-- A slab in pages from a first address on. -/
structure SlabLaid (pageshift : ℕ) (cp : Cache) (base : ℕ) (slab : Slab) : Prop where
  some_chunk : slab.chunks ≠ []
  aligned : ∀ buf ∈ slab.chunks, cp.align ∣ buf
  inside : ∀ buf ∈ slab.chunks, base ≤ buf ∧ buf + cp.chunksize ≤ cp.limit base
  apart : Separate (slab.chunks.map fun buf => (buf, buf + cp.chunksize))
  base_page : pageBase pageshift slab.slabBase = base
  raw_page : cp.raw = true → ∀ buf ∈ slab.chunks, pageBase pageshift buf = base
  unused : cp.raw = false →
    kmemVoidFraction * (cp.slabsize - slab.chunks.length * cp.chunksize) < cp.slabsize

theorem pageBase_eq (pages : 2 ^ pageshift ∣ base) {addr : ℕ} (le : base ≤ addr)
    (lt : addr < base + 2 ^ pageshift) : pageBase pageshift addr = base := by
  obtain ⟨q, rfl⟩ := pages
  rw [pageBase, Nat.div_eq_of_lt_le (by rwa [Nat.mul_comm] at le)
    (by rw [succ_mul, Nat.mul_comm]; exact lt), Nat.mul_comm]

theorem kmemSlabCreate_spec {constructed : Bool} (geometry : Geometry pageshift constructed cp)
    (colored : Colored cp) (pages : 2 ^ pageshift ∣ base) :
    ∃ slab, kmemSlabCreate cp base = some slab ∧ SlabLaid pageshift cp base slab := by
  have pos := geometry.chunk_pos
  have room := geometry.room
  have color_le := colored.le
  have color_lt := geometry.maxcolor_lt
  have limit_eq : cp.limit base = base + cp.slabsize - (if cp.raw then sizeofKmemSlab else 0) := by
    rw [Cache.limit]
    split_ifs
    · rfl
    · rfl
  have first : base + cp.color + cp.chunksize ≤ cp.limit base := by omega
  set count := (cp.limit base - (base + cp.color)) / cp.chunksize with count_eq
  have laid := @chunkLoop_spec cp.chunksize (cp.limit base) (cp.limit base + 1) (base + cp.color)
    pos (by omega) (lt_succ_of_le ((div_le_self _ _).trans (sub_le _ _)))
  rw [← count_eq] at laid
  have count_pos : 0 < count := div_pos (by omega) pos
  have count_le : count * cp.chunksize ≤ cp.limit base - (base + cp.color) := div_mul_le_self _ _
  obtain ⟨k, k_le, align_eq⟩ := geometry.align_power
  have base_aligned : cp.align ∣ base := by
    rw [align_eq]
    exact (Nat.pow_dvd_pow 2 k_le).trans pages
  have inside : ∀ buf ∈ (List.range count).map fun i => base + cp.color + i * cp.chunksize,
      base ≤ buf ∧ buf + cp.chunksize ≤ cp.limit base := by
    intro buf mem
    obtain ⟨i, i_mem, rfl⟩ := List.mem_map.1 mem
    have scaled : (i + 1) * cp.chunksize ≤ count * cp.chunksize :=
      mul_le_mul_right _ (mem_range.1 i_mem)
    rw [succ_mul] at scaled
    omega
  rw [kmemSlabCreate, laid, map_some]
  refine ⟨_, rfl, ⟨?_, ?_, inside, separate_range _ _ _, ?_, ?_, ?_⟩⟩
  · intro none_left
    rw [map_eq_nil_iff, range_eq_nil] at none_left
    omega
  · intro buf mem
    obtain ⟨i, -, rfl⟩ := List.mem_map.1 mem
    exact Nat.dvd_add (Nat.dvd_add base_aligned colored.aligned) (geometry.chunk_aligned.mul_left _)
  · exact pageBase_eq pages (Nat.le_add_right _ _) (by dsimp only; omega)
  · intro raw buf mem
    obtain ⟨first_le, last_le⟩ := inside buf mem
    have page_eq := geometry.raw_page raw
    exact pageBase_eq pages first_le (by omega)
  · intro not_raw
    have waste := geometry.waste not_raw
    have same := geometry.same_chunks not_raw
    have division := div_add_mod cp.slabsize cp.chunksize
    have count_all : count = cp.slabsize / cp.chunksize := by
      rw [count_eq, limit_eq, not_raw]
      have total : base + cp.slabsize - (if false = true then sizeofKmemSlab else 0) -
          (base + cp.color) = cp.chunksize * (cp.slabsize / cp.chunksize) +
            (cp.slabsize % cp.chunksize - cp.color) := by
        rw [if_neg Bool.false_ne_true]
        omega
      have rest_lt := (sub_le (cp.slabsize % cp.chunksize) cp.color).trans_lt (mod_lt _ pos)
      rw [total, mul_add_div pos, div_eq_of_lt rest_lt, Nat.add_zero]
    rw [length_map, length_range, count_all, Nat.mul_comm (cp.slabsize / cp.chunksize)]
    have unused : cp.slabsize - cp.chunksize * (cp.slabsize / cp.chunksize) =
        cp.slabsize % cp.chunksize := by omega
    rwa [unused]

/-- The slabs of a cache: with any colour there is a chunk, and the chunks have room for a buffer
with its buftag or link, lie apart within the pages, and lead back to them. -/
theorem cache_geometry (pageshift : ℕ) (flags : Flags) (maxraw bufsize align k : ℕ)
    (constructor destructor : Bool) (page : 12 ≤ pageshift)
    (maxraw_le : maxraw ≤ 2 ^ pageshift / kmemVoidFraction - 1) (pos : 1 ≤ bufsize)
    (power : align = 2 ^ k) (le : k ≤ pageshift)
    (small : kmemVoidFraction * chunkSize flags (isRaw maxraw bufsize (cacheAlign pageshift flags
      align)) (constructor || destructor) bufsize (cacheAlign pageshift flags align) +
      2 ^ pageshift ≤ 2 ^ 31) :
    ∃ cp, kmemCacheCreate pageshift flags maxraw bufsize align constructor destructor = some cp ∧
      bufsize ≤ cp.chunksize ∧
      (cp.buftag = true → bufsize ≤ cp.offset ∧ cp.offset + sizeofKmemBuftag ≤ cp.chunksize) ∧
      (cp.raw = true → cp.offset + sizeofPointer ≤ cp.chunksize ∧
        ((constructor || destructor) = true → bufsize ≤ cp.offset)) ∧
      align ∣ cp.align ∧
      ∀ n base, 2 ^ pageshift ∣ base → ∃ slab,
        kmemSlabCreate (Cache.recolor^[n + 1] cp) base = some slab ∧
          SlabLaid pageshift cp base slab := by
  obtain ⟨cp, created, geometry, colored, aligned, bufsize_eq⟩ :=
    kmemCacheCreate_spec flags constructor destructor page maxraw_le pos power le small
  refine ⟨cp, created, ?_, ?_, ?_, aligned, fun n base pages => ?_⟩
  · exact bufsize_eq ▸ geometry.buf_le
  · exact bufsize_eq ▸ geometry.tag
  · exact fun raw => ⟨geometry.link, bufsize_eq ▸ geometry.link_behind raw⟩
  · obtain ⟨color, recolored, colored'⟩ := recolor_iterate colored (n + 1)
    have geometry' : Geometry pageshift (constructor || destructor) { cp with color := color } :=
      ⟨geometry.align_power, geometry.chunk_pos, geometry.chunk_aligned, geometry.buf_le,
        geometry.tag, geometry.link, geometry.link_behind, geometry.pages, geometry.raw_page,
        geometry.room, geometry.same_chunks, geometry.maxcolor_lt, geometry.waste⟩
    obtain ⟨slab, laid, good⟩ := kmemSlabCreate_spec geometry' colored' pages
    rw [recolored]
    exact ⟨slab, laid, good.some_chunk, good.aligned, good.inside, good.apart, good.base_page,
      good.raw_page, good.unused⟩

/-- Buffers of a hundred bytes with a constructor and no flags. -/
theorem cache_geometry_hundred :
    ∃ cp slab, kmemCacheCreate 12 ⟨false, false, false, false, false, false⟩
      (kmemMaxraw 12 ⟨false, false, false, false, false, false⟩) 100 8 true false = some cp ∧
      kmemSlabCreate cp.recolor 8192 = some slab ∧ SlabLaid 12 cp 8192 slab := by
  obtain ⟨cp, created, -, -, -, -, slabs⟩ :=
    cache_geometry 12 ⟨false, false, false, false, false, false⟩
      (kmemMaxraw 12 ⟨false, false, false, false, false, false⟩) 100 8 3 true false (by decide)
      (by decide) (by decide) (by decide) (by decide) (by decide)
  obtain ⟨slab, laid, good⟩ := slabs 0 8192 (by decide)
  exact ⟨cp, slab, created, laid, good⟩

end Sol25.Kmem
