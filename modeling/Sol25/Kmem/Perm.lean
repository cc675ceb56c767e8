import Sol25.Data.Blocks
import Mathlib.Data.Nat.Bitwise

/-!
# Permanent allocations

The list of chunks behind `kmem_perm_alloc` (`os/kmem.c`) and the chunks that
`kmem_cache_create_finish` adds to it, with addresses and sizes of 32 bits.
-/

namespace Sol25.Kmem

open Blocks

/-- A value that is stored in a `size_t` or an address. -/
def word (x : ℤ) : ℕ := (x % 2 ^ 32).toNat

/-- A value that is stored in an `int`. -/
def int (x : ℤ) : ℤ := (x + 2 ^ 31) % 2 ^ 32 - 2 ^ 31

def kmemAlign : ℕ := 8

def kmemPermMinfree : ℤ := 32

/-- `sizeof (kmem_perm_t)`. -/
def sizeofKmemPerm : ℕ := 12

/-- A `kmem_perm_t` with its own address; the list takes the place of `perm_next`. -/
structure Perm where
  header : ℕ
  current : ℕ
  avail : ℤ
  deriving DecidableEq, Repr

/-- `(x + align - 1) & -align`, for a power of two. -/
def roundUp (x align : ℕ) : ℕ := word (x + align - 1) / align * align

/-- `-(int)pp->perm_current & (align - 1)`, for a power of two. -/
def padding (pp : Perm) (align : ℕ) : ℕ := word (-pp.current) % align

/-- The test for a chunk: the number of bytes that are left is signed and the size is not. -/
def fits (size align : ℕ) (pp : Perm) : Prop := size ≤ word (pp.avail - padding pp align)

instance (size align : ℕ) (pp : Perm) : Decidable (fits size align pp) :=
  inferInstanceAs (Decidable (_ ≤ _))

/-- The loop over the list, from an index on: the place of the best chunk. -/
def search (size align : ℕ) : List Perm → ℕ → Option ℕ → ℤ → Option ℕ
  | [], _, best, _ => best
  | pp :: list, i, best, bestAvail =>
    if fits size align pp ∧ pp.avail < bestAvail then
      search size align list (i + 1) (some i) pp.avail
    else search size align list (i + 1) best bestAvail

def intMax : ℤ := 2 ^ 31 - 1

/-- The best chunk of a list. -/
def bestFit (size align : ℕ) (list : List Perm) : Option ℕ := search size align list 0 none intMax

/-- The end of `kmem_perm_alloc`: a buffer from the chunk at a place, which goes from the list when
little is left of it. -/
def take (size align : ℕ) (list : List Perm) (i : ℕ) : Option (List Perm × ℕ) :=
  match list[i]? with
  | none => none
  | some pp =>
    let buf := roundUp pp.current align
    let pp := { pp with
      avail := int (pp.avail - (buf + size - pp.current))
      current := word (buf + size) }
    some (if pp.avail < kmemPermMinfree then list.eraseIdx i else list.set i pp, buf)

/-- `btopr (size + sizeof (kmem_perm_t))`, for pages of a power of two. -/
def npages (pageshift size : ℕ) : ℕ :=
  word (word (size + sizeofKmemPerm) + 2 ^ pageshift - 1) / 2 ^ pageshift

/-- The part of `kmem_perm_alloc` with new pages. -/
def grow (pageshift size align base : ℕ) (list : List Perm) : Option (List Perm × ℕ) :=
  take size align
    (⟨base, word (base + sizeofKmemPerm),
      int (npages pageshift size * 2 ^ pageshift - sizeofKmemPerm)⟩ :: list) 0

/-- The alignment that is used. -/
def leastAlign (align : ℕ) : ℕ := if align < kmemAlign then kmemAlign else align

/-- `kmem_perm_alloc`, with what `kmem_page_alloc` gives: nothing comes back from a panic, and
`none` is the null pointer. -/
def kmemPermAlloc (pageshift size align : ℕ) (page : Option ℕ) (list : List Perm) :
    Option (List Perm × Option ℕ) :=
  let align := leastAlign align
  if align &&& (align - 1) ≠ 0 ∨ 2 ^ pageshift < align then none
  else
    let size := roundUp size align
    match bestFit size align list with
    | some i => (take size align list i).map fun r => (r.1, some r.2)
    | none =>
      match page with
      | none => some (list, none)
      | some base => (grow pageshift size align base list).map fun r => (r.1, some r.2)

/-- `KMEM_CACHE_SIZE`: the fields of a `kmem_cache_t` in front of `cache_cpu`, and that many of a
`kmem_cpu_cache_t`. -/
def kmemCacheSize (ncpus : ℕ) : ℕ := 256 + 64 * ncpus

/-- `kmem_cache_create_finish` as far as the list goes. -/
def kmemCacheCreateFinish (cp cacheNcpus ncpus : ℕ) (list : List Perm) : List Perm :=
  if ncpus < cacheNcpus then
    let size : ℤ := int ((cacheNcpus - ncpus : ℕ) * 64)
    if word (sizeofKmemPerm + kmemPermMinfree) ≤ word size then
      let buf := word (cp + kmemCacheSize ncpus)
      ⟨buf, word (buf + sizeofKmemPerm), int (size - sizeofKmemPerm)⟩ :: list
    else list
  else list

/-! ### Runs -/

/-- A first address and the address behind a number of bytes. -/
def span (addr size : ℕ) : ℕ × ℕ := (addr, addr + size)

/-- The list with the history that is told of it: where the chunk of a header ends, the buffers that
were returned, as far as nothing was given back of them, and the runs of pages. -/
structure State where
  /-- the chunks -/
  list : List Perm
  /-- the end of the chunk of a header -/
  limit : ℕ → ℕ
  /-- the buffers that were returned -/
  bufs : List (ℕ × ℕ)
  /-- the runs of pages -/
  runs : List (ℕ × ℕ)

/-- What happens: a call, the rest of a call that let go of the lock for new pages, and the end of
the creation of a cache. -/
inductive Event
  | call (size align : ℕ) (page : Option ℕ)
  | resume (size align base : ℕ)
  | finish (cp cacheNcpus ncpus : ℕ)

/-- A buffer from the list. -/
def State.taken (s : State) (size : ℕ) (list : List Perm) (buf : ℕ) : State :=
  { s with list := list, bufs := span buf size :: s.bufs }

/-- A buffer from new pages. -/
def State.grown (s : State) (pageshift size rounded base : ℕ) (list : List Perm) (buf : ℕ) :
    State :=
  { list := list
    limit := Function.update s.limit base (base + npages pageshift rounded * 2 ^ pageshift)
    bufs := span buf size :: s.bufs
    runs := span base (npages pageshift rounded * 2 ^ pageshift) :: s.runs }

def step (pageshift : ℕ) (s : State) : Event → Option State
  | .call size align page =>
    (kmemPermAlloc pageshift size align page s.list).map fun r =>
      match r.2 with
      | none => s
      | some buf =>
        match bestFit (roundUp size (leastAlign align)) (leastAlign align) s.list, page with
        | none, some base => s.grown pageshift size (roundUp size (leastAlign align)) base r.1 buf
        | _, _ => s.taken size r.1 buf
  | .resume size align base =>
    if leastAlign align &&& (leastAlign align - 1) ≠ 0 ∨ 2 ^ pageshift < leastAlign align then
      none
    else
      (grow pageshift (roundUp size (leastAlign align)) (leastAlign align) base s.list).map
        fun r => s.grown pageshift size (roundUp size (leastAlign align)) base r.1 r.2
  | .finish cp cacheNcpus ncpus =>
    if span cp (kmemCacheSize cacheNcpus) ∈ s.bufs ∧ ncpus < cacheNcpus then
      some
        { s with
          list := kmemCacheCreateFinish cp cacheNcpus ncpus s.list
          limit := Function.update s.limit (cp + kmemCacheSize ncpus)
            (cp + kmemCacheSize cacheNcpus)
          bufs := span cp (kmemCacheSize ncpus) ::
            s.bufs.erase (span cp (kmemCacheSize cacheNcpus)) }
    else none

/-- New pages: a run that begins at a page, ends below the last address, and lies apart from all
runs before it. -/
structure Fresh (pageshift : ℕ) (s : State) (base n : ℕ) : Prop where
  aligned : 2 ^ pageshift ∣ base
  fits : base + n * 2 ^ pageshift < 2 ^ 32
  apart : ∀ run ∈ s.runs, Apart (span base (n * 2 ^ pageshift)) run

/-- What the calls rely on. -/
def Lawful (pageshift : ℕ) (s : State) : Event → Prop
  | .call size align page => ∀ base, page = some base →
      Fresh pageshift s base (npages pageshift (roundUp size (leastAlign align)))
  | .resume size align base =>
    Fresh pageshift s base (npages pageshift (roundUp size (leastAlign align)))
  | .finish _ cacheNcpus _ => kmemCacheSize cacheNcpus < 2 ^ 31

/-- The first chunk with the least number of bytes left of those that pass the test. -/
structure Chosen (size align : ℕ) (list : List Perm) (i : ℕ) (pp : Perm) : Prop where
  here : list[i]? = some pp
  fits : fits size align pp
  lt_max : pp.avail < intMax
  least : ∀ j qq, list[j]? = some qq → Kmem.fits size align qq → qq.avail < intMax →
    pp.avail < qq.avail ∨ pp.avail = qq.avail ∧ i ≤ j

/-- Nothing wraps around when a size is rounded up. -/
structure NoWrap (pageshift size align : ℕ) : Prop where
  size_lt : size + (leastAlign align - 1) < 2 ^ 32
  pages_lt : roundUp size (leastAlign align) + sizeofKmemPerm + (2 ^ pageshift - 1) < 2 ^ 32

/-- The chosen chunk has room for the padding, and no size wraps around. -/
def Condition (pageshift : ℕ) (s : State) : Event → Prop
  | .call size align page =>
    (∀ i pp, Chosen (roundUp size (leastAlign align)) (leastAlign align) s.list i pp →
      size + (leastAlign align - 1) < 2 ^ 32 ∧ (padding pp (leastAlign align) : ℤ) ≤ pp.avail) ∧
    ((¬∃ i pp, Chosen (roundUp size (leastAlign align)) (leastAlign align) s.list i pp) →
      page ≠ none → NoWrap pageshift size align)
  | .resume size align _ => NoWrap pageshift size align
  | .finish _ _ _ => True

/-- The states of the runs from the empty list whose steps all meet a condition. -/
inductive Reach (pageshift : ℕ) (condition : State → Event → Prop) : State → Prop
  | start (limit : ℕ → ℕ) : Reach pageshift condition ⟨[], limit, [], []⟩
  | next {s s' : State} (e : Event) (reach : Reach pageshift condition s)
      (lawful : Lawful pageshift s e) (met : condition s e)
      (stepped : step pageshift s e = some s') : Reach pageshift condition s'

end Sol25.Kmem
