import Mathlib.Algebra.Order.Ring.Int

/-!
# The segments of an address space

`vm/vm_as.c`: the list of the segments of an address space, doubly linked at first and a skip list
once it has grown.  A pointer that is followed must point to something; where it does not, there is
no result.  Numbers that `ssl_random` returns come from outside.
-/

namespace Sol25.Seglist

open Function

/-- `SSL_NLEVELS` -/
def nlevels : ℕ := 4

/-- `SSL_BFACTOR` -/
def bfactor : ℕ := 4

/-- `SSL_LOG2BF` -/
def log2bf : ℕ := 2

/-- `struct seg`; `next` is `s_next.list`. -/
structure Seg where
  base : ℕ
  size : ℕ
  next : Option ℕ
  prev : Option ℕ
deriving Repr, DecidableEq

/-- A pointer to a `seg_skiplist`: that of a segment, or that of the address space. -/
abbrev Ssl := Option ℕ

/-- An entry of a `seg_skiplist`. -/
inductive Entry
  | null
  /-- `SSL_UNUSED` -/
  | unused
  | seg (p : ℕ)
deriving Repr, DecidableEq

/-- `a_lrep` -/
inductive Lrep
  | linkedlist
  | skiplist
deriving Repr, DecidableEq

/-- An address space with the segments in memory. -/
structure State where
  lrep : Lrep
  /-- `a_segs.list` -/
  list : Option ℕ
  /-- `a_cache.seglast` -/
  seglast : Option ℕ
  /-- `a_cache.spath` -/
  spath : ℕ → Option Ssl
  tail : Option ℕ
  nsegs : ℕ
  hilevel : ℕ
  /-- The address space is `kas`. -/
  kas : Bool
  seg : ℕ → Seg
  /-- What `a_segs.skiplist` and `s_next.skiplist` point to. -/
  ssl : Ssl → Option (ℕ → Entry)
  /-- `as_mutation_thresh` -/
  thresh : ℕ
  /-- The numbers that `ssl_random` is going to return. -/
  random : ℕ → ℕ

namespace State

/-- Where a segment ends. -/
def eaddr (s : State) (p : ℕ) : ℕ := (s.seg p).base + (s.seg p).size

/-- Change a segment. -/
def modify (s : State) (p : ℕ) (f : Seg → Seg) : State :=
  { s with seg := update s.seg p (f (s.seg p)) }

/-- Change an entry of a `seg_skiplist`. -/
def setEntry (s : State) (ssl : Ssl) (i : ℕ) (entry : Entry) : Option State :=
  (s.ssl ssl).map fun segs => { s with ssl := update s.ssl ssl (some (update segs i entry)) }

/-- The segment at an entry of a `seg_skiplist`. -/
def link (s : State) (ssl : Ssl) (i : ℕ) : Option (Option ℕ) :=
  (s.ssl ssl).bind fun segs =>
    match segs i with
    | .null => some none
    | .unused => none
    | .seg p => some (some p)

end State

/-! ### Skip lists -/

/-- The loop of `ssl_newlevel`. -/
def newlevelLoop : ℕ → ℕ → ℕ → ℕ
  | 0, _, newlev => newlev
  | fuel + 1, r, newlev =>
    if r &&& (bfactor - 1) = 0 ∧ newlev < nlevels then newlevelLoop fuel (r >>> log2bf) (newlev + 1)
    else newlev

/-- `ssl_newlevel` -/
def newlevel (r : ℕ) : ℕ := newlevelLoop nlevels r 1 - 1

/-- The part of `ssl_search` that looks at the path of the last search: the segment and the path, if
it is any help. -/
def sslCached (s : State) (addr : ℕ) : Option (Option (ℕ × (ℕ → Option Ssl))) :=
  match s.spath 0 with
  | none => some none
  | some cssl =>
    (s.link cssl 0).bind fun
      | none => some none
      | some seg =>
        if addr < s.eaddr seg ∧ (s.seg seg).prev.all fun prev => s.eaddr prev ≤ addr then
          some (some (seg, s.spath))
        else (s.link (some seg) 0).bind fun
          | none => some none
          | some next =>
            if s.eaddr seg ≤ addr ∧ addr < s.eaddr next then
              (s.ssl (some seg)).map fun segs =>
                -- The path is set from the lowest level up to the first one that is not used.
                some (next, fun i =>
                  if i < nlevels ∧ ∀ j ≤ i, segs j ≠ .unused then some (some seg)
                    else s.spath i)
            else some none

/-- The inner loop of `ssl_search`, which stays on one level. -/
def sslAdvance (s : State) (addr i : ℕ) : ℕ → Ssl → Option (Ssl × Option ℕ)
  | 0, _ => none
  | fuel + 1, ssl =>
    (s.link ssl i).bind fun
      | none => some (ssl, none)
      | some seg => if s.eaddr seg ≤ addr then sslAdvance s addr i fuel (some seg) else
          some (ssl, some seg)

/-- The outer loop of `ssl_search`, over the levels below a number. -/
def sslDescend (s : State) (addr : ℕ) :
    ℕ → Ssl → Option ℕ → (ℕ → Option Ssl) → Option (Option ℕ × (ℕ → Option Ssl))
  | 0, _, seg, spath => some (seg, spath)
  | i + 1, ssl, _, spath =>
    (sslAdvance s addr i (s.nsegs + 1) ssl).bind fun (ssl, seg) =>
      sslDescend s addr i ssl seg (update spath i (some ssl))

def sslSearch (s : State) (addr : ℕ) (tail : Bool) : Option (Option ℕ × State) :=
  (sslCached s addr).bind fun
    | some (seg, spath) => some (some seg, { s with spath })
    | none =>
      (sslDescend s addr (s.hilevel + 1) none none s.spath).map fun (seg, spath) =>
        (if tail then seg.or s.tail else seg, { s with spath })

/-- `ssl_insert` on one level. -/
def sslLink (newseg : ℕ) (s : State) (i : ℕ) : Option State :=
  (s.spath i).bind fun ssl =>
    (s.ssl ssl).bind fun segs =>
      (s.setEntry (some newseg) i (segs i)).bind fun s => s.setEntry ssl i (.seg newseg)

/-- The path of a search begins at the head on a level that was not used before. -/
def State.raise (s : State) (newlev : ℕ) : State :=
  if s.hilevel < newlev then
    { s with
      spath := fun i => if s.hilevel < i ∧ i ≤ newlev then some none else s.spath i
      hilevel := newlev }
  else s

/-- `ssl_insert` from the point where it knows the place of the new segment. -/
def sslInsertAt (s : State) (newseg : ℕ) : Option State :=
  let newlev := newlevel (s.random 0)
  let s := { s with random := fun n => s.random (n + 1) }.raise newlev
  let s := { s with ssl := update s.ssl (some newseg) (some fun _ => .null) }
  ((List.range (newlev + 1)).foldlM (sslLink newseg) s).bind fun s =>
    (s.ssl (some newseg)).map fun segs =>
      let segs := fun i => if newlev < i ∧ i < nlevels then .unused else segs i
      { s with ssl := update s.ssl (some newseg) (some segs), nsegs := s.nsegs + 1 }

/-- `ssl_insert`, and whether it succeeds. -/
def sslInsert (s : State) (newseg : ℕ) : Option (Bool × State) :=
  let addr := (s.seg newseg).base
  let eaddr := s.eaddr newseg
  (sslSearch s addr true).bind fun
    | (none, s) =>
      (sslInsertAt ({ s with tail := some newseg }.modify newseg fun seg =>
        { seg with prev := none })
        newseg).map fun s => (true, s)
    | (some seg, s) =>
      if s.eaddr seg ≤ addr then
        (sslInsertAt ({ s with tail := some newseg }.modify newseg fun new =>
          { new with prev := some seg })
          newseg).map fun s => (true, s)
      else if (s.seg seg).base ≤ addr ∨ (s.seg seg).base < eaddr then some (false, s)
      else
        (sslInsertAt ((s.modify newseg fun new => { new with prev := (s.seg seg).prev }).modify
            seg fun old =>
          { old with prev := some newseg }) newseg).map fun s => (true, s)

/-- The loop of `ssl_remove` over the levels, from one on. -/
def sslUnlink (seg : ℕ) : ℕ → ℕ → State → Option State
  | 0, _, s => some s
  | levels + 1, i, s =>
    (s.spath i).bind fun ssl =>
      (s.ssl ssl).bind fun segs =>
        if segs i ≠ .seg seg then some s
        else (s.ssl (some seg)).bind fun behind =>
          (s.setEntry ssl i (behind i)).bind fun s => sslUnlink seg levels (i + 1) s

/-- The level that is left when the head has no segment at the highest ones. -/
def lowered (head : ℕ → Entry) : ℕ → ℕ
  | 0 => 0
  | hilev + 1 => if head (hilev + 1) = .null then lowered head hilev else hilev + 1

/-- The end of `ssl_remove`, where the `seg_skiplist` of the segment is freed. -/
def State.forget (s : State) (seg : ℕ) (head : ℕ → Entry) : State :=
  { s with
    hilevel := lowered head s.hilevel
    ssl := update s.ssl (some seg) none
    nsegs := s.nsegs - 1 }

/-- `ssl_remove` from the point where it knows the segment. -/
def sslRemoveAt (s : State) (seg : ℕ) : Option State :=
  (sslUnlink seg (s.hilevel + 1) 0 s).bind fun s =>
    (s.link (some seg) 0).bind fun next =>
      let s :=
        match next with
        | none => { s with tail := (s.seg seg).prev }
        | some next => s.modify next fun old => { old with prev := (s.seg seg).prev }
      (s.ssl none).map fun head => s.forget seg head

def sslRemove (s : State) (addr : ℕ) : Option (Option ℕ × State) :=
  (sslSearch s addr false).bind fun
    | (none, s) => some (none, s)
    | (some seg, s) =>
      if (s.seg seg).base ≠ addr then some (none, s)
      else (sslRemoveAt s seg).map fun s => (some seg, s)

/-- The loop of `as_mutate_seglist`.  It turns once for each segment. -/
def mutateLoop : ℕ → Option ℕ → State → Option State
  | _, none, s => some s
  | 0, some _, _ => none
  | fuel + 1, some car, s =>
    let cdr := (s.seg car).prev
    (sslInsert s car).bind fun (_, s) => mutateLoop fuel cdr s

def asMutateSeglist (s : State) : Option State :=
  mutateLoop s.nsegs s.tail
    { s with
      tail := none
      ssl := update s.ssl none (some fun _ => .null)
      spath := fun _ => none
      lrep := .skiplist
      nsegs := 0 }

/-! ### Linked lists -/

/-- The difference of two addresses, a signed number of 32 bits. -/
def ptrdiff (a b : ℕ) : ℤ := Int.bmod (a - b) (2 ^ 32)

/-- The forward search of `as_findseg`. -/
def forwardLoop (s : State) (addr : ℕ) : ℕ → Option ℕ → Option ℕ
  | 0, _ => none
  | _ + 1, none => none
  | fuel + 1, some seg =>
    if s.eaddr seg ≤ addr then forwardLoop s addr fuel (s.seg seg).next else some seg

/-- The search of `as_findseg` from a segment to the end. -/
def findForward (s : State) (seg : Option ℕ) (addr : ℕ) : Option (Option ℕ × State) :=
  (forwardLoop s addr s.nsegs seg).map fun seg =>
    (some seg, if (s.seg seg).base ≤ addr then { s with seglast := some seg } else s)

/-- The reverse search of `as_findseg`: where it stops, and the segment behind, unless it is still
unset. -/
def reverseLoop (s : State) (addr : ℕ) : ℕ → ℕ → Option ℕ → Option (ℕ × Option ℕ)
  | 0, _, _ => none
  | fuel + 1, seg, prev =>
    if addr < (s.seg seg).base then
      (s.seg seg).prev.bind fun below => reverseLoop s addr fuel below (some seg)
    else some (seg, prev)

/-- The search of `as_findseg` from a segment to the beginning. -/
def findReverse (s : State) (seg addr : ℕ) : Option (Option ℕ × State) :=
  (reverseLoop s addr s.nsegs seg none).bind fun (seg, prev) =>
    if addr < s.eaddr seg then some (some seg, { s with seglast := some seg })
    else prev.map fun prev => (some prev, s)

def asFindseg (s : State) (addr : ℕ) (tail : Bool) : Option (Option ℕ × State) :=
  match s.lrep with
  | .skiplist => sslSearch s addr tail
  | .linkedlist =>
    match s.list with
    | none => some (none, s)
    | some loseg =>
      let seg := s.seglast.getD loseg
      let base := (s.seg seg).base
      if base ≤ addr then
        if addr < base + (s.seg seg).size then some (some seg, s)
        else s.tail.bind fun hiseg =>
          let lastaddr := s.eaddr hiseg
          if lastaddr ≤ addr then some (if tail then some hiseg else none, s)
          else if ptrdiff lastaddr addr < ptrdiff addr base then findReverse s hiseg addr
          else findForward s (s.seg seg).next addr
      else if addr < (s.seg loseg).base then some (some loseg, s)
      else if ptrdiff addr (s.seg loseg).base < ptrdiff base addr then
        findForward s (some loseg) addr
      else findReverse s seg addr

/-- `as_addseg` to a linked list, and whether it succeeds. -/
def listAddseg (s : State) (newseg : ℕ) : Option (Bool × State) :=
  let addr := (s.seg newseg).base
  let eaddr := s.eaddr newseg
  let added (s : State) : Bool × State :=
    (true, { s with seglast := some newseg, nsegs := s.nsegs + 1 })
  (asFindseg s addr true).bind fun
    | (none, s) =>
      some (added ({ s with list := some newseg, tail := some newseg }.modify newseg fun new =>
        { new with next := none, prev := none }))
    | (some seg, s) =>
      if s.eaddr seg ≤ addr then
        some (added (({ s with tail := some newseg }.modify newseg fun new =>
          { new with next := none, prev := some seg }).modify seg fun old =>
            { old with next := some newseg }))
      else if (s.seg seg).base ≤ addr ∨ (s.seg seg).base < eaddr then some (false, s)
      else
        let before := (s.seg seg).prev
        let s := (s.modify newseg fun new => { new with next := some seg, prev := before }).modify
            seg fun old =>
          { old with prev := some newseg }
        if s.list = some seg then some (added { s with list := some newseg })
        else before.map fun before =>
          added (s.modify before fun old => { old with next := some newseg })

/-- `as_addseg`, and whether it succeeds. -/
def asAddseg (s : State) (newseg : ℕ) : Option (Bool × State) :=
  (if s.thresh ≤ s.nsegs ∧ s.lrep ≠ .skiplist ∧ !s.kas then asMutateSeglist s else
      some s).bind fun s =>
    match s.lrep with
    | .skiplist => sslInsert s newseg
    | .linkedlist => listAddseg s newseg

/-- What is behind a segment, another one or the end of the list, gets another predecessor. -/
def State.setPrev (s : State) (seg : ℕ) (next prev : Option ℕ) : Option State :=
  if some seg = s.tail then some { s with tail := prev }
  else next.map fun next => s.modify next fun old => { old with prev := prev }

/-- What is in front of a segment, another one or the start of the list, gets another successor. -/
def State.setNext (s : State) (seg : ℕ) (next prev : Option ℕ) : Option State :=
  if some seg = s.list then some { s with list := next }
  else prev.map fun prev => s.modify prev fun old => { old with next := next }

/-- `as_removeseg` from a linked list, from the point where it knows the segment. -/
def listRemoveAt (s : State) (seg : ℕ) : Option State :=
  let next := (s.seg seg).next
  let prev := (s.seg seg).prev
  (State.setPrev { s with seglast := next } seg next prev).bind fun s =>
    (s.setNext seg next prev).map fun s => { s with nsegs := s.nsegs - 1 }

def asRemoveseg (s : State) (addr : ℕ) : Option (Option ℕ × State) :=
  match s.lrep with
  | .skiplist => sslRemove s addr
  | .linkedlist =>
    (asFindseg s addr false).bind fun
      | (none, s) => some (none, s)
      | (some seg, s) =>
        if (s.seg seg).base ≠ addr then some (none, s)
        else (listRemoveAt s seg).map fun s => (some seg, s)

/-! ### Runs -/

/-- `as_alloc`, in a memory with some segments. -/
def asAlloc (kas : Bool) (thresh : ℕ) (seg : ℕ → Seg) (random : ℕ → ℕ) : State where
  lrep := .linkedlist
  list := none
  seglast := none
  spath := fun _ => none
  tail := none
  nsegs := 0
  hilevel := 0
  kas := kas
  seg := seg
  ssl := fun _ => none
  thresh := thresh
  random := random

/-- A call. -/
inductive Op
  /-- `as_addseg` of a segment that the caller has set up. -/
  | addseg (p base size : ℕ)
  | removeseg (addr : ℕ)
  | findseg (addr : ℕ) (tail : Bool)
deriving Repr, DecidableEq

/-- What a call returns. -/
inductive Result
  | success
  | failure
  | null
  | seg (p : ℕ)
deriving Repr, DecidableEq

/-- A pointer that is returned. -/
def Result.ofSeg : Option ℕ → Result
  | none => .null
  | some p => .seg p

/-- One call. -/
def step (s : State) : Op → Option (Result × State)
  | .addseg p base size =>
    (asAddseg (s.modify p fun seg => { seg with base, size }) p).map fun (added, s) =>
      (if added then .success else .failure, s)
  | .removeseg addr => (asRemoveseg s addr).map fun (seg, s) => (Result.ofSeg seg, s)
  | .findseg addr tail => (asFindseg s addr tail).map fun (seg, s) => (Result.ofSeg seg, s)

/-- A sequence of calls. -/
def run (s : State) : List Op → Option (List Result × State)
  | [] => some ([], s)
  | op :: ops =>
    (step s op).bind fun (result, s) => (run s ops).map fun (results, s) => (result :: results, s)

end Sol25.Seglist
