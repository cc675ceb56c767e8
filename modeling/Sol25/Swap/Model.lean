import Mathlib.Algebra.BigOperators.Fin

/-!
# Swap space

`vm/vm_swap.c` and the accounting part of `vm/vm_anon.c`: the devices and their maps of slots, the
slots of anonymous pages, and the counters of reserved and free swap space.  Offsets are counted in
pages.  A call is one step; `swapdel`, which gives up its locks while it moves pages away, is one
step for each stretch between two of these.  A step has no result when the kernel panics.
-/

namespace Sol25.Swap

scoped instance neZero : NeZero 8 := ⟨by decide⟩

def pagesize : ℕ := 4096

def btopr (size : ℕ) : ℕ := (size + pagesize - 1) / pagesize

/-- `NBBW`, the bits of a word of the map -/
def nbbw : ℕ := 32

/-- `swap_maxcontig`, as `anon_init` sets it -/
def swapMaxcontig : ℕ := 1024 * 1024 / pagesize

/-- `struct swapinfo`.  The bits of `si_swapslots` are a list, as many as there are words. -/
structure Swapinfo where
  /-- The address of the structure. -/
  id : ℕ
  vp : ℕ
  soff : ℕ
  eoff : ℕ
  allocs : ℕ
  /-- `ST_INDEL` -/
  indel : Bool
  /-- `ST_DOINGDEL` -/
  doingdel : Bool
  npgs : ℕ
  nfpgs : ℕ
  /-- `si_swapslots`: the slots in use. -/
  slots : List Bool
  hint : ℕ
deriving Repr, DecidableEq

/-- `struct anon` -/
structure Anon where
  vp : ℕ
  off : ℕ
  /-- `(an_pvp, an_poff)`, where `an_pvp` is not null -/
  phys : Option (ℕ × ℕ)
  refcnt : ℕ
deriving Repr, DecidableEq

/-- `struct anoninfo` -/
structure Anoninfo where
  max : ℤ
  free : ℤ
  resv : ℤ
deriving Repr, DecidableEq

/-- Where a `swapdel` is. -/
inductive DelPc
  /-- It looks through the chain of a bucket of `anon_hash`. -/
  | walking (bucket : ℕ)
  /-- It is in `swapslot_free` for a page that it found there. -/
  | freeing (bucket vp off : ℕ)
  /-- It is back and looks at the result and at `ST_DOINGDEL`. -/
  | checking (bucket : ℕ) (failed : Bool)
deriving Repr, DecidableEq

/-- A `swapdel` that goes on, with what it reads of `osip`. -/
structure Del where
  dev : ℕ
  vp : ℕ
  soff : ℕ
  eoff : ℕ
  pages : ℕ
  pc : DelPc
deriving Repr, DecidableEq

/-- The swap space of a system. -/
structure State where
  ani : Anoninfo
  memResv : ℤ
  availrmem : ℤ
  availsmem : ℤ
  /-- `swapfs_minfree` -/
  minfree : ℤ
  /-- `swapfs_desfree` -/
  desfree : ℤ
  /-- `ani_free_pool` -/
  pool : Fin 8 → ℤ
  swapinfo : List Swapinfo
  silast : Option ℕ
  /-- The next address that `kmem_zalloc` gives. -/
  fresh : ℕ
  /-- The slots in `anon_hash`. -/
  anons : List Anon
  /-- The logarithm of `anon_hash_size`. -/
  hashBits : ℕ
  /-- `swapalloc_maxcontig` -/
  maxcontig : ℕ
  /-- The calls of `swapdel` that go on. -/
  dels : List Del

/-- The errors that `swapadd` and `swapdel` return. -/
inductive Errno
  | einval
  | enomem
  | eexist
deriving Repr, DecidableEq

/-! ### Counters -/

def State.aniAdd (s : State) (cpu : Fin 8) (inc : ℤ) : State :=
  { s with pool := Function.update s.pool cpu (s.pool cpu + inc) }

/-- `anon_resvmem`, and whether it succeeds. -/
def anonResvmem (s : State) (size : ℕ) (takemem : Bool) (cpu : Fin 8) : Bool × State :=
  let spages : ℤ := btopr size
  let pswapPages := s.ani.max - s.ani.resv
  let reserve (s : State) : Bool × State :=
    if takemem then
      (true, { s with
        ani := { s.ani with resv := s.ani.resv + spages }, availsmem := s.availsmem - spages })
    else (true, s)
  if spages ≤ pswapPages then reserve s
  else
    let mswapPages := if 0 < pswapPages then spages - pswapPages else spages
    if s.availrmem - s.minfree < mswapPages then (false, s)
    else if takemem then
      reserve ({ s with
        availrmem := s.availrmem - mswapPages, memResv := s.memResv + mswapPages }.aniAdd
        cpu mswapPages)
    else reserve s

def anonUnresv (s : State) (size : ℕ) (cpu : Fin 8) : State :=
  let spages : ℤ := btopr size
  let s := { s with availsmem := s.availsmem + spages }
  let s :=
    if s.ani.max < s.ani.resv then
      let mempages := min (s.ani.resv - s.ani.max) spages
      { s with availrmem := s.availrmem + mempages, memResv := s.memResv - mempages }.aniAdd
        cpu (-mempages)
    else s
  { s with ani := { s.ani with resv := s.ani.resv - spages } }

def setAnoninfo (s : State) : State := { s with ani := { s.ani with free := ∑ i, s.pool i } }

/-! ### Slots of a device -/

namespace Swapinfo

/-- `TESTBIT` -/
def test (d : Swapinfo) (slot : ℕ) : Bool := d.slots.getD slot true

/-- The word of the map is `0xffffffff`. -/
def full (d : Swapinfo) (word : ℕ) : Bool := (List.range nbbw).all fun b => d.test (nbbw * word + b)

/-- The words in the order in which `swap_getoff` looks at them. -/
def words (d : Swapinfo) : List ℕ :=
  List.range' (d.hint / nbbw) (d.slots.length / nbbw - d.hint / nbbw) ++ List.range (d.hint / nbbw)

/-- The bits of a word in the order in which `swap_getoff` looks at them. -/
def bits (d : Swapinfo) : List ℕ :=
  List.range' (d.hint % nbbw) (nbbw - d.hint % nbbw) ++ List.range (d.hint % nbbw)

/-- `swap_getoff`, which gives the number of a slot. -/
def getoff (d : Swapinfo) : Option (Option ℕ × Swapinfo) :=
  match d.words.find? fun word => !d.full word with
  | none => some (none, d)
  | some word =>
    match d.bits.find? fun b => !d.test (nbbw * word + b) with
    | none => none
    | some b =>
      let slot := nbbw * word + b
      some (some slot, { d with slots := d.slots.set slot true, hint := slot + 1 })

/-- The loop of `swap_phys_alloc` that makes a run longer.  It turns once for each free page at
most. -/
def grow (maxcontig lenp first : ℕ) : ℕ → Swapinfo → ℕ → Option (ℕ × Swapinfo)
  | 0, d, len => some (len, d)
  | free + 1, d, len =>
    if ¬ len * pagesize < lenp then some (len, d)
    else if maxcontig ≠ 0 ∧ maxcontig ≤ len * pagesize then some (len, d)
    else match d.getoff with
      | none => none
      | some (none, d) => some (len, d)
      | some (some slot, d) =>
        if slot ≠ first + len then some (len, { d with slots := d.slots.set slot false })
        else grow maxcontig lenp first free { d with nfpgs := d.nfpgs - 1 } (len + 1)

/-- A run of slots from a device: the first slot and the length. -/
def take (maxcontig lenp : ℕ) (d : Swapinfo) : Option (ℕ × ℕ × Swapinfo) :=
  match d.getoff with
  | none => none
  | some (none, _) => none
  | some (some first, d) =>
    let d := { d with nfpgs := d.nfpgs - 1 }
    (d.grow maxcontig lenp first d.nfpgs 1).map fun (len, d) => (first, len, d)

/-- The loop of `swap_phys_free`. -/
def release : ℕ → ℕ → Swapinfo → Option Swapinfo
  | _, 0, d => some d
  | page, npage + 1, d =>
    if !d.test page then none
    else release (page + 1) npage { d with slots := d.slots.set page false, nfpgs := d.nfpgs + 1 }

/-- The page at an offset of a vnode lies on the device. -/
def covers (d : Swapinfo) (vp off : ℕ) : Bool := d.vp = vp ∧ d.soff ≤ off ∧ off < d.eoff

/-- `swap_phys_alloc` takes this device; `other` is the page to keep away from under `SA_NOT`. -/
def usable (other : Option (ℕ × ℕ)) (d : Swapinfo) : Bool :=
  !d.indel && decide (0 < d.nfpgs) && other.all fun page => !d.covers page.1 page.2

end Swapinfo

/-- Change one device. -/
def modify (ds : List Swapinfo) (id : ℕ) (f : Swapinfo → Swapinfo) : List Swapinfo :=
  ds.map fun d => if d.id = id then f d else d

/-- The devices in the order of the search, which starts with `silast`. -/
def State.order (s : State) : List Swapinfo :=
  match s.silast with
  | none => []
  | some last => s.swapinfo.dropWhile (fun d => d.id ≠ last) ++ s.swapinfo.takeWhile fun d =>
    d.id ≠ last

/-- The device behind one in the list, and behind the last the first. -/
def next (ds : List Swapinfo) (id : ℕ) : Option ℕ :=
  match (ds.dropWhile fun d => d.id ≠ id).tail.head? with
  | some d => some d.id
  | none => ds.head?.map Swapinfo.id

/-- `swap_phys_alloc`: the vnode, the offset and the length of the run. -/
def swapPhysAlloc (s : State) (other : Option (ℕ × ℕ)) (lenp : ℕ) :
    Option (Option (ℕ × ℕ × ℕ) × State) :=
  -- The devices it passes on its way lose their count of allocations when they have no free page.
  let passed := (s.order.takeWhile fun d => !d.usable other).map Swapinfo.id
  let ds := s.swapinfo.map fun d =>
    if d.id ∈ passed ∧ d.nfpgs = 0 then { d with allocs := 0 } else d
  match s.order.find? fun d => d.usable other with
  | none => some (none, { s with swapinfo := ds })
  | some d =>
    (d.take s.maxcontig lenp).map fun (first, len, d) =>
      if swapMaxcontig ≤ d.allocs + len then
        (some (d.vp, d.soff + first, len),
          { s with
            swapinfo := modify ds d.id fun _ => { d with allocs := 0 }, silast := next ds d.id })
      else
        (some (d.vp, d.soff + first, len),
          { s with swapinfo := modify ds d.id fun _ => { d with allocs := d.allocs + len } })

def swapPhysFree (s : State) (vp off len : ℕ) : Option State :=
  match s.swapinfo.find? fun d => d.covers vp off with
  | none => none
  | some d =>
    (d.release (off - d.soff) len).map fun d =>
      { s with swapinfo := modify s.swapinfo d.id fun _ => d }

/-! ### Slots of anonymous pages -/

def State.anonHash (s : State) (vp off : ℕ) : ℕ := ((vp >>> 7) ^^^ off) &&& (2 ^ s.hashBits - 1)

/-- `swap_anon`: where in the list the slot is. -/
def State.swapAnon (s : State) (vp off : ℕ) : Option ℕ :=
  s.anons.findIdx? fun ap => ap.vp = vp ∧ ap.off = off

/-- Free the physical slot of an anonymous page, if it has one. -/
def freePhys (s : State) : Option (ℕ × ℕ) → Option State
  | none => some s
  | some (pvp, poff) => swapPhysFree s pvp poff 1

/-- Change the physical slot of an anonymous page, and free the old one. -/
def rename (s : State) (i : ℕ) (phys : Option (ℕ × ℕ)) : Option State :=
  match s.anons[i]? with
  | none => some s
  | some ap => (freePhys s ap.phys).map fun s => { s with anons := s.anons.set i { ap with phys } }

/-- `anon_alloc`.  A slot gets its name from its address or from the caller. -/
def anonAlloc (s : State) (vp off : ℕ) (cpu : Fin 8) : State :=
  { s with anons := ⟨vp, off, none, 1⟩ :: s.anons }.aniAdd cpu (-1)

/-- The reference that `anon_dup` takes. -/
def anonDup (s : State) (i : ℕ) : State :=
  { s with anons := s.anons.modify i fun ap => { ap with refcnt := ap.refcnt + 1 } }

def anonDecref (s : State) (i : ℕ) (cpu : Fin 8) : Option State :=
  match s.anons[i]? with
  | none => some s
  | some ap =>
    if ap.refcnt = 0 then none
    else if ap.refcnt - 1 = 0 then
      (freePhys s ap.phys).map fun s => { s with anons := s.anons.eraseIdx i }.aniAdd cpu 1
    else some { s with anons := s.anons.set i { ap with refcnt := ap.refcnt - 1 } }

/-- What `swap_newphysname` returns. -/
inductive Named
  | success
  /-- `SE_NOANON` -/
  | noanon
  /-- `SE_NOSWAP` -/
  | noswap
deriving Repr, DecidableEq

/-- The values that `swap_newphysname` hands back. -/
structure Kluster where
  error : Named
  off : ℕ
  len : ℕ
  phys : Option (ℕ × ℕ)
deriving Repr, DecidableEq

/-- The loop of `swap_newphysname`, over the slots of the run that are left. -/
def nameLoop (vp offset start pvp pstart : ℕ) : ℕ → State → ℕ → ℕ → Option (Kluster × State)
  | 0, s, _, poff => some (⟨.success, start, poff - pstart, some (pvp, pstart)⟩, s)
  | rest + 1, s, off, poff =>
    match s.swapAnon vp off with
    | some i =>
      (rename s i (some (pvp, poff))).bind fun s =>
        nameLoop vp offset start pvp pstart rest s (off + 1) (poff + 1)
    | none =>
      let plen := poff + (rest + 1) - pstart
      if offset < off then
        (swapPhysFree s pvp poff (rest + 1)).map fun s =>
          (⟨.success, start, poff - pstart, some (pvp, pstart)⟩, s)
      else if off = offset then
        (swapPhysFree s pvp poff (rest + 1)).map fun s =>
          (⟨.noanon, start, plen, some (pvp, pstart)⟩, s)
      else match s.swapAnon vp offset with
        | none =>
          (swapPhysFree s pvp poff (rest + 1)).map fun s =>
            (⟨.noanon, start, plen, some (pvp, pstart)⟩, s)
        | some i =>
          (rename s i (some (pvp, poff))).bind fun s =>
            (swapPhysFree s pvp (poff + 1) rest).map fun s =>
              (⟨.success, offset, 1, some (pvp, poff)⟩, s)

/-- `swap_newphysname` for the range of `lenp` pages from `offp` on. -/
def swapNewphysname (s : State) (vp offset offp lenp : ℕ) : Option (Kluster × State) :=
  (swapPhysAlloc s none (lenp * pagesize)).bind fun
    | (none, s) =>
      match (s.swapAnon vp offset).bind fun i => s.anons[i]? with
      | none => some (⟨.noanon, offp, lenp, none⟩, s)
      | some ap => some (⟨if ap.phys.isSome then .success else .noswap, offset, 1, ap.phys⟩, s)
    | (some (pvp, pstart, plen), s) =>
      let start := max offp (if plen < offset + 1 then offset + 1 - plen else 0)
      nameLoop vp offset start pvp pstart plen s start pstart

/-! ### Adding and deleting devices -/

/-- A new device, before it is on the list. -/
def newSwapinfo (id vp soff eoff : ℕ) : Swapinfo :=
  let pages := eoff - soff
  let padded := (pages + nbbw - 1) / nbbw * nbbw
  { id, vp, soff, eoff, allocs := 0, indel := false, doingdel := false,
    npgs := pages, nfpgs := pages
    slots := List.replicate pages false ++ List.replicate (padded - pages) true, hint := 0 }

/-- What `swapadd` finds on the list. -/
inductive Existing
  /-- The area is being deleted, by this device. -/
  | deleting (id : ℕ)
  /-- The area overlaps another one. -/
  | overlaps
deriving Repr, DecidableEq

/-- The search of `swapadd` through the list. -/
def existing (vp soff eoff : ℕ) : List Swapinfo → Option Existing
  | [] => none
  | d :: ds =>
    if d.vp = vp then
      if d.soff = soff ∧ d.npgs = eoff - soff ∧ d.doingdel then some (.deleting d.id)
      else if soff < d.eoff ∧ d.soff < eoff then some .overlaps
      else existing vp soff eoff ds
    else existing vp soff eoff ds

/-- The counters of `swapadd`. -/
def State.addPages (s : State) (pages : ℕ) (cpu : Fin 8) : State :=
  let s :=
    if s.ani.max < s.ani.resv then
      let returnmem := min (s.ani.resv - s.ani.max) pages
      { s with ani := { s.ani with free := s.ani.free - returnmem }
               availrmem := s.availrmem + returnmem }.aniAdd cpu (-returnmem)
    else s
  let s := { s with ani := { s.ani with max := s.ani.max + pages } }.aniAdd cpu pages
  let s := { s with memResv := max (s.ani.resv - s.ani.max) 0 }
  let s :=
    if s.minfree < s.desfree ∧ (s.desfree < s.availrmem ∨ s.memResv = 0) then
      { s with minfree := s.desfree }
    else s
  { s with availsmem := s.availsmem + pages }

/-- `swapadd` of the pages from `soff` to `eoff`, when the vnode can be opened for it. -/
def swapadd (s : State) (vp soff eoff : ℕ) (cpu : Fin 8) : Option Errno × State :=
  if eoff ≤ soff then (some .einval, s)
  else match existing vp soff eoff s.swapinfo with
    | some (.deleting id) =>
      (none, { s with swapinfo := modify s.swapinfo id fun d => { d with doingdel := false } })
    | some .overlaps => (some .eexist, s)
    | none =>
      let s := { s with swapinfo := s.swapinfo ++ [newSwapinfo s.fresh vp soff eoff]
                        silast := some s.fresh, fresh := s.fresh + 1 }
      (none, s.addPages (eoff - soff) cpu)

/-- `swapdel` up to the point where it has set the flags, with its error. -/
def swapdel (s : State) (vp soff : ℕ) (cpu : Fin 8) : Option Errno × State :=
  match s.swapinfo.find? fun d => d.vp = vp ∧ d.soff = soff ∧ !d.indel ∧ !d.doingdel with
  | none => (some .einval, s)
  | some d =>
    let pages : ℤ := d.npgs
    if max (s.ani.max - s.ani.resv) 0 + max (s.availrmem - s.minfree) 0 < pages then
      (some .enomem, s)
    else
      let s :=
        if s.ani.max - s.ani.resv < pages then
          { s with availrmem := s.availrmem - min pages (pages - (s.ani.max - s.ani.resv)) }
        else s
      let s := { s with
        availsmem := s.availsmem - pages, ani := { s.ani with max := s.ani.max - pages } }
      let s := { s with memResv := max (s.ani.resv - s.ani.max) 0 }.aniAdd cpu (-pages)
      (none, { s with
        swapinfo := modify s.swapinfo d.id fun d => { d with indel := true, doingdel := true }
        dels := s.dels ++ [⟨d.id, d.vp, d.soff, d.eoff, d.npgs, .walking 0⟩] })

/-- What `VOP_GETPAGE` returns to `swapslot_free`. -/
inductive Getpage
  | success
  /-- `EIDRM` or `EFAULT`: the page is no more. -/
  | gone
  | failure
deriving Repr, DecidableEq

namespace Del

/-- The physical slot lies on the device that is deleted. -/
def covers (t : Del) (phys : Option (ℕ × ℕ)) : Bool :=
  phys.any fun page => page.1 = t.vp ∧ t.soff ≤ page.2 ∧ page.2 < t.eoff

/-- `swapslot_free`, and whether it fails. -/
def slotFree (t : Del) (s : State) (vp off : ℕ) : Getpage → Option (Bool × State)
  | .failure => some (true, s)
  | .gone => some (false, s)
  | .success =>
    match s.swapAnon vp off with
    | none => some (false, s)
    | some i =>
      if (s.anons[i]?).any fun ap => t.covers ap.phys then (rename s i none).map fun s => (false, s)
      else some (false, s)

/-- The device is added back. -/
def abort (t : Del) (s : State) (cpu : Fin 8) : State :=
  let s := { s with
    swapinfo := modify s.swapinfo t.dev fun d => { d with indel := false, doingdel := false }
    ani := { s.ani with max := s.ani.max + t.pages } }
  { s with
    memResv := max (s.ani.resv - s.ani.max) 0,
    availsmem := s.availsmem + t.pages }.aniAdd cpu t.pages

/-- The device is taken off the list. -/
def finish (t : Del) (s : State) : State :=
  let ds := s.swapinfo.filter fun d => d.id ≠ t.dev
  let silast :=
    if s.silast = some t.dev then
      match (s.swapinfo.dropWhile fun d => d.id ≠ t.dev).tail.head? with
      | some d => some d.id
      | none => ds.head?.map Swapinfo.id
    else s.silast
  { s with swapinfo := ds, silast }

/-- One stretch of a `swapdel`, and where it is then, unless it returned. -/
def step (t : Del) (s : State) (result : Getpage) (cpu : Fin 8) : Option (Option DelPc × State) :=
  match t.pc with
  | .walking bucket =>
    if bucket < 2 ^ s.hashBits then
      match s.anons.find? fun ap => s.anonHash ap.vp ap.off = bucket ∧ t.covers ap.phys with
      | some ap => some (some (.freeing bucket ap.vp ap.off), s)
      | none => some (some (.walking (bucket + 1)), s)
    else some (none, t.finish s)
  | .freeing bucket vp off =>
    (t.slotFree s vp off result).map fun (failed, s) => (some (.checking bucket failed), s)
  | .checking bucket failed =>
    if !failed && (s.swapinfo.any fun d => d.id = t.dev ∧ d.doingdel) then
      some (some (.walking bucket), s)
    else some (none, t.abort s cpu)

end Del

/-- One stretch of the `k`th `swapdel`. -/
def delStep (s : State) (k : ℕ) (result : Getpage) (cpu : Fin 8) : Option State :=
  match s.dels[k]? with
  | none => some s
  | some t =>
    (t.step s result cpu).map fun
      | (some pc, s) => { s with dels := s.dels.set k { t with pc } }
      | (none, s) => { s with dels := s.dels.eraseIdx k }

/-! ### Steps -/

/-- A step of the system. -/
inductive Op
  | anonResvmem (size : ℕ) (takemem : Bool) (cpu : Fin 8)
  | anonUnresv (size : ℕ) (cpu : Fin 8)
  | setAnoninfo
  | anonAlloc (vp off : ℕ) (cpu : Fin 8)
  | anonDup (i : ℕ)
  | anonDecref (i : ℕ) (cpu : Fin 8)
  | swapPhysAlloc (other : Option (ℕ × ℕ)) (lenp : ℕ)
  | swapPhysFree (vp off len : ℕ)
  | swapNewphysname (vp offset offp lenp : ℕ)
  | swapadd (vp soff eoff : ℕ) (cpu : Fin 8)
  | swapdel (vp soff : ℕ) (cpu : Fin 8)
  | delStep (k : ℕ) (result : Getpage) (cpu : Fin 8)
deriving Repr, DecidableEq

def step (s : State) : Op → Option State
  | .anonResvmem size takemem cpu => some (anonResvmem s size takemem cpu).2
  | .anonUnresv size cpu => some (anonUnresv s size cpu)
  | .setAnoninfo => some (setAnoninfo s)
  | .anonAlloc vp off cpu => some (anonAlloc s vp off cpu)
  | .anonDup i => some (anonDup s i)
  | .anonDecref i cpu => anonDecref s i cpu
  | .swapPhysAlloc other lenp => (swapPhysAlloc s other lenp).map Prod.snd
  | .swapPhysFree vp off len => swapPhysFree s vp off len
  | .swapNewphysname vp offset offp lenp => (swapNewphysname s vp offset offp lenp).map Prod.snd
  | .swapadd vp soff eoff cpu => some (swapadd s vp soff eoff cpu).2
  | .swapdel vp soff cpu => some (swapdel s vp soff cpu).2
  | .delStep k result cpu => delStep s k result cpu

/-- A sequence of steps. -/
def run (s : State) : List Op → Option State
  | [] => some s
  | op :: ops => (step s op).bind fun s => run s ops

end Sol25.Swap
