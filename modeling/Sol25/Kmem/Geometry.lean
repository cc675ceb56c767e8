import Sol25.Kmem.Perm

/-!
# Caches and their slabs

The sizes that `kmem_cache_create` works out for a cache and the slabs that `kmem_slab_create` lays
out with them (`os/kmem.c`), for numbers within the range of an `int`.
-/

namespace Sol25.Kmem

/-- The flags of `kmem_flags` that the sizes depend on. -/
structure Flags where
  audit : Bool
  deadbeef : Bool
  redzone : Bool
  verify : Bool
  pageperbuf : Bool
  nocolor : Bool
  deriving DecidableEq, Repr

/-- `kmem_flags & KMF_BUFTAG`. -/
def Flags.buftag (flags : Flags) : Bool :=
  flags.audit || flags.deadbeef || flags.redzone || flags.verify

/-- `sizeof (kmem_slab_t)`. -/
def sizeofKmemSlab : ℕ := 32

/-- `sizeof (kmem_buftag_t)`. -/
def sizeofKmemBuftag : ℕ := 16

/-- `sizeof (void *)`. -/
def sizeofPointer : ℕ := 4

def kmemVoidFraction : ℕ := 8

/-- The threshold for raw caches as `kmem_init` leaves it. -/
def kmemMaxraw (pageshift : ℕ) (flags : Flags) : ℕ :=
  if flags.verify || flags.audit then 0 else 2 ^ pageshift / kmemVoidFraction - 1

/-- The least alignment of a cache. -/
def minAlign (pageshift : ℕ) (flags : Flags) : ℕ :=
  if flags.pageperbuf then 2 ^ pageshift else kmemAlign

/-- `(x + align - 1) & -align`, for a power of two. -/
def alignUp (x align : ℕ) : ℕ := (x + (align - 1)) / align * align

/-- `ptob (btopr (x))`. -/
def roundPages (pageshift x : ℕ) : ℕ := alignUp x (2 ^ pageshift)

/-- A cache, as far as its slabs go; a cache that is not raw has `KMF_HASH`, and a raw one has no
`KMF_AUDIT`. -/
structure Cache where
  /-- the size that was asked for -/
  bufsize : ℕ
  /-- the alignment of every chunk -/
  align : ℕ
  /-- the slab is at the end of its page -/
  raw : Bool
  /-- a tag stands behind each buffer -/
  buftag : Bool
  /-- where the tag, or the link of a free buffer, is -/
  offset : ℕ
  /-- a buffer with what stands behind it -/
  chunksize : ℕ
  /-- the size of the pages of a slab -/
  slabsize : ℕ
  /-- where the chunks of the next slab begin -/
  color : ℕ
  /-- the last of the colours -/
  maxcolor : ℕ
  deriving DecidableEq, Repr

/-- The loop over the sizes of a slab: the best size so far. -/
def slabLoop (pageshift chunksize : ℕ) : ℕ → ℕ → ℕ → Option ℕ → Option ℕ
  | 0, _, _, _ => none
  | fuel + 1, chunks, minwaste, bestfit =>
    if chunks ≤ kmemVoidFraction then
      let slabsize := roundPages pageshift (chunksize * chunks)
      let chunks := slabsize / chunksize
      let waste := slabsize % chunksize / chunks
      if waste < minwaste then
        slabLoop pageshift chunksize fuel (chunks + 1) waste (some slabsize)
      else slabLoop pageshift chunksize fuel (chunks + 1) minwaste bestfit
    else bestfit

/-- The offset of the free-list link or the buftag, and the size of a chunk before it is aligned. -/
def linkOffset (flags : Flags) (raw constructed : Bool) (bufsize : ℕ) : ℕ × ℕ :=
  let chunksize := alignUp bufsize kmemAlign
  let (offset, chunksize) :=
    if raw && constructed then
      if sizeofPointer ≤ chunksize - bufsize then (chunksize - sizeofPointer, chunksize)
      else (chunksize, chunksize + kmemAlign)
    else (chunksize - kmemAlign, chunksize)
  if flags.buftag then
    (alignUp bufsize sizeofPointer, alignUp bufsize sizeofPointer + sizeofKmemBuftag)
  else (offset, chunksize)

def cacheAlign (pageshift : ℕ) (flags : Flags) (align : ℕ) : ℕ :=
  if align < minAlign pageshift flags then minAlign pageshift flags else align

def isRaw (maxraw bufsize align : ℕ) : Bool :=
  decide (alignUp bufsize kmemAlign + kmemAlign + align ≤ maxraw)

def chunkSize (flags : Flags) (raw constructed : Bool) (bufsize align : ℕ) : ℕ :=
  alignUp (linkOffset flags raw constructed bufsize).2 align

/-- `kmem_cache_create`, for a threshold for raw caches.  Nothing comes back from a panic. -/
def kmemCacheCreate (pageshift : ℕ) (flags : Flags) (maxraw bufsize align : ℕ)
    (constructor destructor : Bool) : Option Cache :=
  let align := cacheAlign pageshift flags align
  if align &&& (align - 1) ≠ 0 ∨ 2 ^ pageshift < align then none
  else
    let raw := isRaw maxraw bufsize align
    let chunksize := chunkSize flags raw (constructor || destructor) bufsize align
    let sizes :=
      if raw then some (2 ^ pageshift, (2 ^ pageshift - sizeofKmemSlab) % chunksize)
      else (slabLoop pageshift chunksize (kmemVoidFraction + 1) 1 (2 ^ 31 - 1) none).map
        fun slabsize => (slabsize, slabsize % chunksize)
    sizes.map fun sizes =>
      let maxcolor := if flags.nocolor then 0 else sizes.2
      { bufsize := bufsize
        align := align
        raw := raw
        buftag := if raw then { flags with audit := false }.buftag else flags.buftag
        offset := (linkOffset flags raw (constructor || destructor) bufsize).1
        chunksize := chunksize
        slabsize := sizes.1
        color := maxcolor / 2 / align * align
        maxcolor := maxcolor }

/-- The colour of a new slab. -/
def Cache.recolor (cp : Cache) : Cache :=
  { cp with color := if cp.maxcolor < cp.color + cp.align then 0 else cp.color + cp.align }

def chunkLoop (chunksize limit : ℕ) : ℕ → ℕ → Option (List ℕ)
  | 0, _ => none
  | fuel + 1, buf =>
    if buf + chunksize ≤ limit then
      (chunkLoop chunksize limit fuel (buf + chunksize)).map (buf :: ·)
    else some []

/-- The end of the chunks: the end of the pages, or the `kmem_slab_t` in them. -/
def Cache.limit (cp : Cache) (base : ℕ) : ℕ :=
  if cp.raw then base + cp.slabsize - sizeofKmemSlab else base + cp.slabsize

/-- A slab: its `slab_base` and its chunks. -/
structure Slab where
  slabBase : ℕ
  chunks : List ℕ
  deriving DecidableEq, Repr

/-- `kmem_slab_create` behind the choice of the colour, in new pages. -/
def kmemSlabCreate (cp : Cache) (base : ℕ) : Option Slab :=
  (chunkLoop cp.chunksize (cp.limit base) (cp.limit base + 1) (base + cp.color)).map fun chunks =>
    ⟨base + cp.color, chunks⟩

/-- An address rounded down to a page, as `kmem_slab_destroy` and `kmem_cache_free_global` do. -/
def pageBase (pageshift addr : ℕ) : ℕ := addr / 2 ^ pageshift * 2 ^ pageshift

end Sol25.Kmem
