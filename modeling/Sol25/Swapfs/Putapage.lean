import Sol25.Data.Ring

/-!
# Pages on their way to swap space

`swap_putapage` finds a physical slot for a page and writes it there.  If the page is to be freed
and nobody waits for it, it looks for more pages among the requests that were queued and writes
those whose slots turn out to be next to the ones it has.  The allocator of the slots is a
parameter: what it grants at each call.
-/

namespace Sol25.Swapfs

open Function

def pagesize : ℕ := 4096

def bAsync : ℕ := 0x000400

def bDelwri : ℕ := 0x000800

def bFree : ℕ := 0x008000

def bInval : ℕ := 0x010000

def bForce : ℕ := 0x020000

def bTrunc : ℕ := 0x100000

/-- `flags & mask`. -/
def Has (flags mask : ℕ) : Prop := flags &&& mask ≠ 0

instance (flags mask : ℕ) : Decidable (Has flags mask) := inferInstanceAs (Decidable (_ ≠ _))

/-- `SE_EXCL` and `SE_SHARED`. -/
inductive Se where
  | excl
  | shared
  deriving DecidableEq, Repr

/-- A request in the queue: `a_vp` and `a_off`. -/
structure Req where
  vp : ℕ
  off : ℕ
  deriving DecidableEq, Repr

/-- Slots that `swap_phys_alloc` grants when it is asked for a length. -/
structure Grant (lenp : ℕ) where
  pvp : ℕ
  pstart : ℕ
  plen : ℕ
  pos : 0 < plen
  le : plen ≤ lenp
  whole : pagesize ∣ plen
  inside : pstart + plen < 2 ^ 32

/-- What is outside: the allocator at each of its calls, the largest cluster and the result of
`VOP_PAGEIO`. -/
structure Env where
  alloc : ℕ → (lenp : ℕ) → Option (Grant lenp)
  klustsize : ℕ
  pageio : ℤ
  klustsize_lt : klustsize < 2 ^ 31

/-- The pages, the anon slots and the queue of `swapfs`.

`hwmod` is what the translations of a page say about it. -/
structure State where
  /-- Pages that can be found by their name, in the order of a search. -/
  hashed : List ℕ
  vnode : ℕ → ℕ
  offset : ℕ → ℕ
  next : ℕ → ℕ
  prev : ℕ → ℕ
  selock : ℕ → ℤ
  iolock : ℕ → Bool
  free : ℕ → Bool
  lckcnt : ℕ → ℕ
  cowcnt : ℕ → ℕ
  mapped : ℕ → Bool
  hwmod : ℕ → Bool
  mod : ℕ → Bool
  /-- `swap_anon`: the physical slot, if any, of the anon slot of a name, if any. -/
  anon : ℕ → ℕ → Option (Option (ℕ × ℕ))
  pendlist : List Req
  pendingSize : ℤ
  /-- Request structures that are free. -/
  freelist : ℕ
  /-- Calls of the allocator so far. -/
  allocs : ℕ

namespace State

variable (st : State) (p : ℕ)

/-- A page that has to be written before it may be forgotten. -/
def Modified : Prop := st.mod p = true ∨ st.mapped p = true ∧ st.hwmod p = true

def hatSetmod : State := { st with mod := update st.mod p true }

def hatClrrefmod : State := { st with mod := update st.mod p false }

/-- `hat_pagesync` with `HAT_ZERORM`, of a page that is mapped. -/
def hatPagesync : State :=
  { st with
    mod := update st.mod p (st.mod p || st.hwmod p)
    hwmod := update st.hwmod p false }

/-- `hat_pageunload`, of a page that is mapped. -/
def hatPageunload : State := { st.hatPagesync p with mapped := update st.mapped p false }

/-- `page_unlock`; a page that is not locked is a panic. -/
def pageUnlock : State :=
  { st with
    selock := update st.selock p (if st.selock p < 0 then 0 else st.selock p - 1) }

def pageTrylock : Se → Option State
  | .excl => if st.selock p = 0 then
      some { st with selock := update st.selock p (-1) } else none
  | .shared => if 0 ≤ st.selock p then
      some { st with selock := update st.selock p (st.selock p + 1) } else none

def pageDowngrade : State := { st with selock := update st.selock p 1 }

/-- `page_io_lock`, when the lock is free. -/
def pageIoLock : State := { st with iolock := update st.iolock p true }

def pageIoUnlock : State := { st with iolock := update st.iolock p false }

/-- `page_free`: the page can still be found, but is on the list of free pages. -/
def pageFree : State :=
  { st.pageUnlock p with
    free := update st.free p true
    mod := update st.mod p false }

/-- `page_destroy`: the page has no name any more. -/
def pageDestroy : State := { st.pageFree p with hashed := st.hashed.filter fun q => q != p }

/-- `page_add`, with the first page of the list. -/
def pageAdd (first : ℕ) : State :=
  { st with
    next := Ring.insertNext st.next st.prev first p
    prev := Ring.insertPrev st.prev first p }

def pageLookupNowait (vp off : ℕ) (se : Se) : Option (ℕ × State) :=
  match st.hashed.find? fun q => st.vnode q = vp ∧ st.offset q = off with
  | none => none
  | some q => if st.free q = true then none else (st.pageTrylock q se).map fun st => (q, st)

/-- `sw_getreq`, when the queue is `rest` behind its first request. -/
def swGetreq (rest : List Req) : State :=
  { st with pendlist := rest, pendingSize := st.pendingSize - pagesize }

/-- `sw_putreq` and `sw_putbackreq`. -/
def swPutreq (arg : Req) : State :=
  { st with pendlist := arg :: st.pendlist, pendingSize := st.pendingSize + pagesize }

def swPutfree : State := { st with freelist := st.freelist + 1 }

/-- The anon slot of a name is given a physical slot. -/
def assign (vp off : ℕ) (phys : ℕ × ℕ) : State :=
  { st with
    anon := update st.anon vp (update (st.anon vp) off (some (some phys))) }

/-- The last part of `pvn_getdirty`: the page is locked for output. -/
def pvnGetdirtyLocked (flags : ℕ) : Bool × State :=
  let st := st.pageIoLock p
  let st :=
    if st.mapped p = true then
      if Has flags (bInval ||| bFree) then st.hatPageunload p else st.hatPagesync p
    else st
  if st.mod p = false ∨ Has flags bTrunc then
    let st := st.pageIoUnlock p
    (false, if Has flags bInval then st.pageDestroy p
      else if Has flags bFree then st.pageFree p else st.pageUnlock p)
  else
    let st := st.hatClrrefmod p
    (true, if Has flags bFree then st.pageDowngrade p else st)

/-- `pvn_getdirty`: whether the page, which is locked, has to be written. -/
def pvnGetdirty (flags : ℕ) : Bool × State :=
  if Has flags (bInval ||| bFree) ∧ ¬Has flags (bTrunc ||| bForce) ∧
      (st.lckcnt p ≠ 0 ∨ st.cowcnt p ≠ 0) then (false, st.pageUnlock p)
  else if (Has flags bDelwri ∨ flags &&& (bInval ||| bAsync) = bAsync) ∧ st.iolock p = true then
    (false, st.pageUnlock p)
  else st.pvnGetdirtyLocked p flags

end State

/-- The errors of `swap_newphysname`. -/
inductive SeErr where
  | noanon
  | noswap
  deriving DecidableEq, Repr

/-- What `swap_newphysname` gives back: `*offp`, `*lenp`, `*pvpp` and `*poffp`. -/
structure Phys where
  off : ℕ
  len : ℕ
  pvp : ℕ
  poff : ℕ
  deriving DecidableEq, Repr

/-- The loop over the slots of a grant, `n` of which are left.

The slots that are not used go back to the allocator. -/
def nameLoop (vp offset start : ℕ) {lenp : ℕ} (g : Grant lenp) :
    ℕ → State → ℕ → ℕ → Except SeErr Phys × State
  | 0, st, _, _ => (.ok ⟨start, g.plen, g.pvp, g.pstart⟩, st)
  | n + 1, st, off, poff =>
    match st.anon vp off with
    | some _ => nameLoop vp offset start g n (st.assign vp off (g.pvp, poff))
        ((off + pagesize) % 2 ^ 32) ((poff + pagesize) % 2 ^ 32)
    | none =>
      if offset < off then
        (.ok ⟨start, (poff + 2 ^ 32 - g.pstart) % 2 ^ 32, g.pvp, g.pstart⟩, st)
      else if off = offset then (.error .noanon, st)
      else match st.anon vp offset with
        | none => (.error .noanon, st)
        | some _ => (.ok ⟨offset, pagesize, g.pvp, poff⟩, st.assign vp offset (g.pvp, poff))

def swapNewphysname (env : Env) (st : State) (vp offset offp lenp : ℕ) :
    Except SeErr Phys × State :=
  let st' := { st with allocs := st.allocs + 1 }
  match env.alloc st.allocs lenp with
  | none =>
    match st.anon vp offset with
    | none => (.error .noanon, st')
    | some none => (.error .noswap, st')
    | some (some phys) => (.ok ⟨offset, pagesize, phys.1, phys.2⟩, st')
  | some g =>
    let start := max offp (if g.plen < (offset + pagesize) % 2 ^ 32 then
      (offset + pagesize) % 2 ^ 32 - g.plen else 0)
    nameLoop vp offset start g (g.plen / pagesize) st' start g.pstart

/-- The pages that are to be written together: `klvp`, `klstart`, `klsz` and `pplist`. -/
structure Kluster where
  klvp : ℕ
  klstart : ℕ
  klsz : ℕ
  pplist : ℕ
  deriving DecidableEq, Repr

/-- The loop that takes requests from the queue; a `break` is a result. -/
def klusterLoop (env : Env) (flags klustsize : ℕ) (se : Se) :
    List Req → Kluster → State → Kluster × State
  | [], kl, st => (kl, st)
  | arg :: rest, kl, st =>
    if kl.klsz < klustsize then
      match (st.swGetreq rest).pageLookupNowait arg.vp arg.off se with
      | none => (kl, (st.swGetreq rest).swPutfree)
      | some (pp, st) =>
        match st.pvnGetdirty pp (flags ||| bDelwri) with
        | (false, st) => klusterLoop env flags klustsize se rest kl st.swPutfree
        | (true, st) =>
          match swapNewphysname env st arg.vp arg.off arg.off pagesize with
          | (.error _, st) => (kl, (((st.hatSetmod pp).pageIoUnlock pp).pageUnlock pp).swPutreq arg)
          | (.ok phys, st) =>
            if kl.klvp = phys.pvp ∧ phys.poff = (kl.klstart + kl.klsz) % 2 ^ 32 then
              let st := st.pageAdd pp kl.pplist
              -- the new page is first now, and the one behind it becomes the first again
              klusterLoop env flags klustsize se rest
                { kl with klsz := (kl.klsz + pagesize) % 2 ^ 32, pplist := st.next pp }
                st.swPutfree
            else if kl.klvp = phys.pvp ∧ phys.poff = (kl.klstart + 2 ^ 32 - pagesize) % 2 ^ 32 then
              klusterLoop env flags klustsize se rest
                { kl with
                  klsz := (kl.klsz + pagesize) % 2 ^ 32
                  klstart := (kl.klstart + 2 ^ 32 - pagesize) % 2 ^ 32
                  pplist := pp }
                (st.pageAdd pp kl.pplist).swPutfree
            else
              (kl, (((st.hatSetmod pp).pageIoUnlock pp).pageUnlock pp).swPutreq arg)
    else (kl, st)

def enomem : ℤ := 12

/-- What `swap_putapage` comes to: its error, the arguments of `VOP_PAGEIO` if it is called, and the
state at that call, or else at the end. -/
structure Put where
  err : ℤ
  io : Option Kluster
  st : State

/-- `swap_putapage`, up to the completion of the output. -/
def swapPutapage (env : Env) (st : State) (vp pp flags : ℕ) : Put :=
  if flags = bAsync ||| bFree ∧ st.pendingSize < env.klustsize ∧ st.freelist ≠ 0 then
    let st := ((st.hatSetmod pp).pageIoUnlock pp).pageUnlock pp
    ⟨0, none, { st with freelist := st.freelist - 1 }.swPutreq ⟨vp, st.offset pp⟩⟩
  else
    match swapNewphysname env st vp (st.offset pp) (st.offset pp) pagesize with
    | (.error _, st) =>
      ⟨if flags = bAsync ||| bFree then enomem else 0, none,
        ((st.hatSetmod pp).pageIoUnlock pp).pageUnlock pp⟩
    | (.ok phys, st) =>
      let klustsize := if flags = bAsync ||| bFree then env.klustsize else pagesize
      let se := if Has flags bFree then .excl else .shared
      match klusterLoop env flags klustsize se st.pendlist
        ⟨phys.pvp, phys.poff, pagesize, pp⟩ st with
      | (kl, st) => ⟨env.pageio, some kl, st⟩

end Sol25.Swapfs
