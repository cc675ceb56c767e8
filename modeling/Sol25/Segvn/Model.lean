import Sol25.Data.Table

/-!
# Vnode segments

The segment driver of `vm/seg_vn.c`: how segments are created, joined with their neighbours, cut,
copied and freed, what they reserve of swap space, and the arrays of anonymous pages they share.
Addresses, offsets, sizes and reservations are counted in pages.
-/

namespace Sol25.Segvn

/-- Protections: read, write, execute and user, from the lowest bit on. -/
abbrev Prot := BitVec 4

/-- `prot & PROT_WRITE`. -/
def Prot.write (prot : Prot) : Bool := prot.getLsbD 1

inductive MapType where
  | mapShared
  | mapPrivate
  deriving DecidableEq, Repr

/-- The protection and the advice of one page, when they are kept for each page. -/
structure Vpage where
  prot : Prot
  advice : ℕ
  deriving DecidableEq, Repr

/-- A segment with its `segvn_data`. -/
structure Seg where
  /-- the address space -/
  as : ℕ
  /-- the first page -/
  base : ℕ
  /-- the number of pages -/
  size : ℕ
  /-- the file, if it is one -/
  vp : Option ℕ
  /-- the page of the file that is mapped first -/
  offset : ℤ
  /-- the protection of all pages -/
  prot : Prot
  /-- what `segvn_setprot` may give -/
  maxprot : Prot
  /-- each page has a protection of its own -/
  pageprot : Bool
  /-- shared or private -/
  type : MapType
  /-- what is kept for each page -/
  vpage : Option (List Vpage)
  /-- whose the mapping is -/
  cred : ℕ
  /-- the advice for all pages -/
  advice : ℕ
  /-- each page has an advice of its own -/
  pageadvice : Bool
  /-- the flags of the mapping -/
  flags : BitVec 16
  /-- how many pages of swap space are reserved -/
  swresv : ℕ
  /-- its anon map -/
  amp : Option ℕ
  /-- the slot of its first page -/
  anonIndex : ℕ
  deriving DecidableEq, Repr

/-- An `anon_map`.  Its references come from segments and from owners outside the driver, such as
shared memory identifiers; the latter are counted apart, though the driver only sees their sum. -/
structure Amp where
  refcnt : ℕ
  outside : ℕ
  anon : List (Option ℕ)
  swresv : ℕ
  deriving DecidableEq, Repr

/-- The segments of all address spaces, the anon maps, and what was taken of swap space and not
given back. -/
structure St where
  segs : Table Seg
  amps : Table Amp
  taken : ℤ
  deriving DecidableEq, Repr

/-- The arguments of `segvn_create`. -/
structure Crargs where
  vp : Option ℕ
  offset : ℕ
  cred : ℕ
  type : MapType
  prot : Prot
  maxprot : Prot
  flags : BitVec 32
  amp : Option ℕ
  deriving DecidableEq, Repr

inductive Errno where
  | eagain
  | eacces
  | enomem
  | other (code : ℕ)
  deriving DecidableEq, Repr

inductive Panic where
  | createAnonMap
  | createAnonMapSize
  | unmap
  | cannotSplit
  deriving DecidableEq, Repr

/-- What the rest of the system answers during a `segvn_create`: whether swap space can be reserved,
the errors of `hat_map` and `VOP_ADDMAP`, whether the arrays that may not be waited for can be had,
the tunables `segvn_comb_thrshld` and `anon_slop`, and the pages `anon_zero` makes. -/
structure Env where
  resv : Bool
  hatMap : Option Errno
  addMap : Option Errno
  prevAnon : Bool
  prevVpage : Bool
  concatVpage : Bool
  nextAnon : Bool
  nextVpage : Bool
  combThrshld : ℕ
  anonSlop : ℕ
  anonZero : ℕ → ℕ

/-- The bit `MAP_NORESERVE` of some flags. -/
def noreserve {w : ℕ} (flags : BitVec w) : Bool := flags.getLsbD 6

/-- The number of pages whose size in bytes does not fit an unsigned integer. -/
def uintPages : ℕ := 2 ^ 20

/-- The difference of two unsigned sizes. -/
def uintSub (m n : ℕ) : ℕ := if n ≤ m then m - n else m + uintPages - n

def anonResv (s : St) (n : ℕ) : St := { s with taken := s.taken + n }

def anonUnresv (s : St) (n : ℕ) : St := { s with taken := s.taken - n }

/-- The slot in a place of an anon array. -/
def slotAt (anon : List (Option ℕ)) (x : ℕ) : Option ℕ := anon[x]?.join

/-- `anon_free` of some slots of an array. -/
def anonFree (anon : List (Option ℕ)) (start n : ℕ) : List (Option ℕ) :=
  anon.mapIdx fun x slot => if start ≤ x ∧ x < start + n then none else slot

/-- `anon_pages`: how many slots of a part of an array are in use. -/
def anonPages (anon : List (Option ℕ)) (start n : ℕ) : ℕ :=
  ((anon.drop start).take n).countP Option.isSome

def anonmapAlloc (size swresv : ℕ) : Amp := ⟨1, 0, List.replicate size none, swresv⟩

def segvnFree (s : St) (j : ℕ) (seg : Seg) : St :=
  let s1 : St :=
    match seg.amp with
    | none => s
    | some id =>
      match s.amps.get id with
      | none => s
      | some amp =>
        if amp.refcnt - 1 = 0 then
          let s := { s with amps := s.amps.put id none }
          if seg.type = .mapPrivate then s else anonUnresv s amp.swresv
        else if seg.type = .mapPrivate then
          let anon := anonFree amp.anon seg.anonIndex seg.size
          { s with
            amps := s.amps.put id (some { amp with refcnt := amp.refcnt - 1, anon := anon }) }
        else { s with amps := s.amps.put id (some { amp with refcnt := amp.refcnt - 1 }) }
  let s2 := anonUnresv s1 seg.swresv
  { s2 with segs := s2.segs.put j none }

/-! ### Joining segments -/

/-- The tests of `segvn_extend_prev` and `segvn_extend_next` on the fields of a segment and of the
arguments. -/
def extendTest (svd : Seg) (a : Crargs) : Bool :=
  svd.vp = a.vp ∧ svd.maxprot = a.maxprot ∧ (svd.pageprot ∨ svd.prot = a.prot) ∧ svd.type = a.type ∧
    svd.flags.setWidth 32 = a.flags

/-- `segvn_extend_prev`, the part on the anon array: a larger one has its slack at the end. -/
def expandAtEnd (e : Env) (s : St) (j : ℕ) (seg1 : Seg) (size2 : ℕ) : Option (St × Seg) :=
  match seg1.amp with
  | none => some (s, seg1)
  | some id =>
    match s.amps.get id with
    | none => none
    | some amp1 =>
      if 1 < amp1.refcnt ∨ seg1.type = .mapShared then none
      else if amp1.anon.length - seg1.anonIndex < seg1.size + size2 then
        if e.prevAnon then
          let aa := (amp1.anon.drop seg1.anonIndex).take seg1.size ++ List.replicate
            (size2 + e.anonSlop) none
          let seg1 := { seg1 with anonIndex := 0 }
          let amps := s.amps.put id (some { amp1 with anon := aa })
          some ({ s with amps := amps, segs := s.segs.put j (some seg1) }, seg1)
        else none
      else some (s, seg1)

/-- The pages of a new segment in the array of a segment that takes it in. -/
def newVpages (svd : Seg) (n : ℕ) (prot : Prot) : List Vpage :=
  List.replicate n ⟨if svd.pageprot then prot else 0, 0⟩

/-- `segvn_extend_prev`: extend the previous segment by a new one. -/
def segvnExtendPrev (e : Env) (s : St) (j : ℕ) (seg1 : Seg) (size2 : ℕ) (a : Crargs)
    (swresv : ℕ) : Bool × St :=
  if !extendTest seg1 a then (false, s)
  else if seg1.vp ≠ none ∧ seg1.offset + seg1.size ≠ a.offset then (false, s)
  else
    match expandAtEnd e s j seg1 size2 with
    | none => (false, s)
    | some (s, seg1) =>
      if seg1.vpage ≠ none ∧ !e.prevVpage then (false, s)
      else
        (true, { s with segs := s.segs.put j (some { seg1 with
          vpage := seg1.vpage.map fun vpage => vpage ++ newVpages seg1 size2 a.prot
          size := seg1.size + size2
          swresv := seg1.swresv + swresv }) })

/-- `segvn_extend_next`, the part on the anon array: a larger one has its slack at the beginning. -/
def expandAtFront (e : Env) (s : St) (j : ℕ) (seg2 : Seg) (size1 : ℕ) : Option (St × Seg) :=
  match seg2.amp with
  | none => some (s, seg2)
  | some id =>
    match s.amps.get id with
    | none => none
    | some amp2 =>
      if 1 < amp2.refcnt ∨ seg2.type = .mapShared then none
      else if seg2.anonIndex < size1 then
        if e.nextAnon then
          let aa := List.replicate (e.anonSlop + size1) none ++
            (amp2.anon.drop seg2.anonIndex).take seg2.size
          let seg2 := { seg2 with anonIndex := e.anonSlop }
          let amps := s.amps.put id (some { amp2 with anon := aa })
          some ({ s with amps := amps, segs := s.segs.put j (some seg2) }, seg2)
        else none
      else
        let seg2 := { seg2 with anonIndex := seg2.anonIndex - size1 }
        some ({ s with segs := s.segs.put j (some seg2) }, seg2)

/-- `segvn_extend_next`: extend the next segment by a new one before it. -/
def segvnExtendNext (e : Env) (s : St) (j : ℕ) (seg2 : Seg) (size1 : ℕ) (a : Crargs)
    (swresv : ℕ) : Bool × St :=
  if !extendTest seg2 a then (false, s)
  else if seg2.vp ≠ none ∧ (a.offset : ℤ) + size1 ≠ seg2.offset then (false, s)
  else
    match expandAtFront e s j seg2 size1 with
    | none => (false, s)
    | some (s, seg2) =>
      if seg2.vpage ≠ none ∧ !e.nextVpage then
        (false, { s with
          segs := s.segs.put j (some
            (if seg2.amp ≠ none then { seg2 with anonIndex := seg2.anonIndex + size1 }
            else seg2)) })
      else
        (true, { s with segs := s.segs.put j (some { seg2 with
          vpage := seg2.vpage.map fun vpage => newVpages seg2 size1 a.prot ++ vpage
          size := seg2.size + size1
          base := seg2.base - size1
          offset := seg2.offset - size1
          swresv := seg2.swresv + swresv }) })

/-- The tests of `segvn_concat`. -/
def concatTest (svd1 svd2 : Seg) : Bool :=
  svd1.vp = svd2.vp ∧ svd1.maxprot = svd2.maxprot ∧
    (svd1.pageadvice ∨ svd2.pageadvice ∨ svd1.advice = svd2.advice) ∧
    (svd1.pageprot ∨ svd2.pageprot ∨ svd1.prot = svd2.prot) ∧
    svd1.type = svd2.type ∧ svd1.cred = svd2.cred ∧ svd1.flags = svd2.flags ∧
    (svd1.vp = none ∨ svd1.offset + svd1.size = svd2.offset) ∧ svd1.amp = none ∧ svd2.amp = none

/-- The pages of one of two segments in their joint array. -/
def joinedVpages (svd other : Seg) : List Vpage :=
  (svd.vpage.getD (List.replicate svd.size ⟨0, 0⟩)).map fun vp =>
    ⟨if other.pageprot && !svd.pageprot then svd.prot else vp.prot,
     if other.pageadvice && !svd.pageadvice then svd.advice else vp.advice⟩

/-- `segvn_concat`: join two segments, unless their fields or a lack of memory forbid it. -/
def segvnConcat (e : Env) (s : St) (j : ℕ) (seg1 : Seg) (k : ℕ) (seg2 : Seg) : St :=
  if !concatTest seg1 seg2 then s
  else if seg1.vpage = none ∧ seg2.vpage = none then
    let s := segvnFree s k { seg2 with swresv := 0 }
    { s with segs := s.segs.put j (some { seg1 with
        swresv := seg1.swresv + seg2.swresv
        size := seg1.size + seg2.size }) }
  else if !e.concatVpage then s
  else
    let s := segvnFree s k { seg2 with vpage := none, swresv := 0 }
    { s with segs := s.segs.put j (some { seg1 with
        pageprot := seg2.pageprot || seg1.pageprot
        pageadvice := seg2.pageadvice || seg1.pageadvice
        vpage := some (joinedVpages seg1 seg2 ++ joinedVpages seg2 seg1)
        swresv := seg1.swresv + seg2.swresv
        size := seg1.size + seg2.size }) }

/-! ### Creating a segment -/

/-- The segment of an address space that ends at an address. -/
def endingAt (s : St) (as base : ℕ) : Option ℕ :=
  s.segs.locate fun seg => seg.as = as ∧ seg.base + seg.size = base

/-- The segment of an address space that starts at an address. -/
def startingAt (s : St) (as base : ℕ) : Option ℕ :=
  s.segs.locate fun seg => seg.as = as ∧ seg.base = base

/-- `MAP_NORESERVE` is dropped for shared mappings. -/
def Crargs.normal (a : Crargs) : Crargs :=
  if a.type = .mapShared then { a with flags := a.flags &&& ~~~0x40 } else a

/-- Whether `segvn_create` reserves swap space. -/
def Crargs.reserves (a : Crargs) : Bool :=
  !noreserve a.flags && ((a.vp = none && a.amp = none) || (a.type = .mapPrivate && a.prot.write))

/-- `segvn_create`, the joining with the next segment: whether it took the new one in, and the
state. -/
def joinNext (e : Env) (s : St) (as base size : ℕ) (a : Crargs) (swresv : ℕ) : Bool × St :=
  match startingAt s as (base + size) with
  | none => (false, s)
  | some k =>
    match s.segs.get k with
    | none => (false, s)
    | some nseg => segvnExtendNext e s k nseg size a swresv

/-- `segvn_create`, the joining of an extended previous segment with the one after the new pages. -/
def concatNext (e : Env) (s : St) (as base : ℕ) (j : ℕ) : St :=
  match startingAt s as base, s.segs.get j with
  | some k, some seg1 =>
    match s.segs.get k with
    | none => s
    | some seg2 => segvnConcat e s j seg1 k seg2
  | _, _ => s

/-- `segvn_create`, the joining with the neighbours: whether one of them took the new segment in,
and the state. -/
def tryJoin (e : Env) (s : St) (as base size : ℕ) (a : Crargs) (swresv : ℕ) : Bool × St :=
  match endingAt s as base with
  | none => joinNext e s as base size a swresv
  | some j =>
    match s.segs.get j with
    | none => joinNext e s as base size a swresv
    | some pseg =>
      if pseg.size + size ≤ e.combThrshld ∨ pseg.amp = none then
        match segvnExtendPrev e s j pseg size a swresv with
        | (false, s) => joinNext e s as base size a swresv
        | (true, s) => (true, concatNext e s as (base + size) j)
      else joinNext e s as base size a swresv

/-- The new segment without its reservation and its anon map. -/
def newSeg (as base size : ℕ) (a : Crargs) : Seg where
  as := as
  base := base
  size := size
  vp := a.vp
  offset := a.offset
  prot := a.prot
  maxprot := a.maxprot
  pageprot := false
  type := a.type
  vpage := none
  cred := a.cred
  advice := 0
  pageadvice := false
  flags := (a.flags.setWidth 8).setWidth 16
  swresv := 0
  amp := none
  anonIndex := 0

/-- An array whose empty slots in a part are filled with new pages. -/
def fillSlots (anon : List (Option ℕ)) (start n : ℕ) (anonZero : ℕ → ℕ) : List (Option ℕ) :=
  anon.mapIdx fun x slot => if start ≤ x ∧
    x < start + n then some (slot.getD (anonZero x)) else slot

/-- `segvn_create`, a segment of its own. -/
def createAlone (e : Env) (s : St) (as base size : ℕ) (a : Crargs) (swresv : ℕ) : Except Panic St :=
  let seg := newSeg as base size a
  match a.amp with
  | none =>
    if a.type = .mapShared then
      if a.vp = none then
        let segs := s.segs.add { seg with amp := some s.amps.next }
        .ok { s with segs := segs, amps := s.amps.add (anonmapAlloc size swresv) }
      else .ok { s with segs := s.segs.add seg }
    else .ok { s with segs := s.segs.add { seg with swresv := swresv } }
  | some id =>
    match s.amps.get id with
    | none => .error .createAnonMapSize
    | some amp =>
      if amp.anon.length < a.offset + size then .error .createAnonMapSize
      else if a.type = .mapShared then
        let segs := s.segs.add { seg with amp := some id, anonIndex := a.offset }
        .ok { s with
          segs := segs, amps := s.amps.put id (some { amp with refcnt := amp.refcnt + 1 }) }
      else
        let anon := fillSlots amp.anon a.offset size e.anonZero
        let amps := s.amps.put id (some { amp with anon := anon })
        let segs := s.segs.add { seg with amp := some amps.next, swresv := swresv }
        let copy := { anonmapAlloc size 0 with anon := (anon.drop a.offset).take size }
        .ok { s with segs := segs, amps := amps.add copy }

def segvnCreate (e : Env) (s : St) (as base size : ℕ)
    (args : Crargs) : Except Panic (Option Errno × St) :=
  if args.amp ≠ none ∧ args.vp ≠ none then .error .createAnonMap
  else
    let a := args.normal
    if a.reserves && !e.resv then .ok (some .eagain, s)
    else
      let swresv := if a.reserves then size else 0
      let s1 := anonResv s swresv
      match e.hatMap, (if a.vp = none then none else e.addMap) with
      | some error, _ => .ok (some error, anonUnresv s1 swresv)
      | none, some error => .ok (some error, anonUnresv s1 swresv)
      | none, none =>
        match if a.amp = none then tryJoin e s1 as base size a swresv else (false, s1) with
        | (true, s2) => .ok (none, s2)
        | (false, s2) => (createAlone e s2 as base size a swresv).map fun s3 => (none, s3)

/-! ### Cutting a segment -/

/-- The slots of a part that goes away are freed, unless the array is shared. -/
def freeUnused (s : St) (seg : Seg) (page n : ℕ) : St :=
  match seg.amp with
  | none => s
  | some id =>
    match s.amps.get id with
    | none => s
    | some amp =>
      if amp.refcnt = 1 ∨ seg.type = .mapPrivate then
        { s with
          amps := s.amps.put id
            (some { amp with anon := anonFree amp.anon (seg.anonIndex + page) n }) }
      else s

/-- `amp->refcnt++` for the second part of a segment. -/
def holdAmp (s : St) (ref : Option ℕ) : St :=
  match ref with
  | none => s
  | some id =>
    match s.amps.get id with
    | none => s
    | some amp => { s with amps := s.amps.put id (some { amp with refcnt := amp.refcnt + 1 }) }

/-- The slots in use under a segment. -/
def pagesHeld (s : St) (seg : Seg) : ℕ :=
  match seg.amp.bind s.amps.get with
  | none => 0
  | some amp => anonPages amp.anon seg.anonIndex seg.size

/-- The reservation of a segment that lost some pages at one end. -/
def trimResv (s : St) (seg : Seg) (n : ℕ) : St × Seg :=
  if seg.swresv = 0 then (s, seg)
  else if noreserve seg.flags then
    (anonUnresv s (uintSub seg.swresv (pagesHeld s seg)), { seg with swresv := pagesHeld s seg })
  else (anonUnresv s n, { seg with swresv := uintSub seg.swresv n })

/-- What is left of a segment that loses pages at its beginning. -/
def cutHead (seg : Seg) (len : ℕ) : Seg :=
  { seg with
    vpage := seg.vpage.map fun vpage => vpage.drop len
    anonIndex := if seg.amp = none then seg.anonIndex else seg.anonIndex + len
    offset := if seg.vp = none then seg.offset else seg.offset + len
    base := seg.base + len
    size := seg.size - len }

/-- What is left of a segment that loses pages at its end. -/
def cutTail (seg : Seg) (npages : ℕ) : Seg :=
  { seg with vpage := seg.vpage.map fun vpage => vpage.take npages, size := npages }

/-- The segment for the high end, when pages in the middle go. -/
def highEnd (seg : Seg) (nbase nsize : ℕ) : Seg :=
  { seg with
    base := nbase
    size := nsize
    offset := seg.offset + nbase - seg.base
    swresv := 0
    vpage := seg.vpage.map fun vpage => vpage.drop (seg.size - nsize)
    anonIndex := if seg.amp = none then 0 else seg.anonIndex + (nbase - seg.base) }

/-- `segvn_unmap`, the reservation of a segment that falls in two. -/
def splitResv (s : St) (seg nseg : Seg) (len : ℕ) : Except Panic (St × Seg × Seg) :=
  if seg.swresv = 0 then .ok (s, seg, nseg)
  else if noreserve seg.flags then
    .ok (anonUnresv s (uintSub seg.swresv (pagesHeld s seg + pagesHeld s nseg)),
      { seg with swresv := pagesHeld s seg }, { nseg with swresv := pagesHeld s nseg })
  else if seg.size + nseg.size + len ≠ seg.swresv then .error .cannotSplit
  else .ok (anonUnresv s len, { seg with swresv := seg.size }, { nseg with swresv := nseg.size })

def segvnUnmap (s : St) (j : ℕ) (seg : Seg) (addr len : ℕ) : Except Panic St :=
  if addr < seg.base ∨ seg.base + seg.size < addr + len then .error .unmap
  else if addr = seg.base ∧ len = seg.size then .ok (segvnFree s j seg)
  else if addr = seg.base then
    let r := trimResv (freeUnused s seg 0 len) (cutHead seg len) len
    .ok { r.1 with segs := r.1.segs.put j (some r.2) }
  else if addr + len = seg.base + seg.size then
    let npages := seg.size - len
    let r := trimResv (freeUnused s seg npages len) (cutTail seg npages) len
    .ok { r.1 with segs := r.1.segs.put j (some r.2) }
  else
    let nbase := addr + len
    let nsize := seg.base + seg.size - nbase
    let lower := cutTail seg (addr - seg.base)
    let upper := highEnd seg nbase nsize
    let s1 := holdAmp (freeUnused s seg (addr - seg.base) len) seg.amp
    (splitResv s1 lower upper len).map fun r =>
      { r.1 with segs := (r.1.segs.put j (some r.2.1)).add r.2.2 }

/-! ### Protections, copies and faults -/

def segvnVpage (seg : Seg) : Seg :=
  match seg.vpage with
  | some _ => seg
  | none =>
    { seg with
      pageprot := true
      pageadvice := true
      vpage := some (List.replicate seg.size ⟨seg.prot, seg.advice⟩) }

def protectPages (vpage : List Vpage) (start n : ℕ) (prot : Prot) : List Vpage :=
  vpage.mapIdx fun x vp => if start ≤ x ∧ x < start + n then { vp with prot := prot } else vp

/-- `segvn_setprot`, the reservation: an error, or the state and the segment. -/
def protResv (resv : Bool) (s : St) (seg : Seg) (addr len : ℕ)
    (prot : Prot) : Except Errno (St × Seg) :=
  if seg.type ≠ .mapPrivate then .ok (s, seg)
  else if prot.write then
    if seg.swresv = 0 ∧ !noreserve seg.flags then
      if resv then .ok (anonResv s seg.size, { seg with swresv := seg.size }) else .error .eagain
    else .ok (s, seg)
  else if seg.swresv ≠ 0 ∧ seg.vp ≠ none ∧ seg.amp = none ∧ addr = seg.base ∧ len = seg.size ∧
    !seg.pageprot then
    .ok (anonUnresv s seg.swresv, { seg with swresv := 0 })
  else .ok (s, seg)

/-- The protections of a segment after `segvn_setprot`. -/
def protectSeg (seg : Seg) (addr len : ℕ) (prot : Prot) : Seg :=
  if addr = seg.base ∧ len = seg.size ∧ !seg.pageprot then { seg with prot := prot }
  else
    let seg := segvnVpage seg
    { seg with vpage := seg.vpage.map fun vpage => protectPages vpage (addr - seg.base) len prot }

def segvnSetprot (resv : Bool) (s : St) (j : ℕ) (seg : Seg) (addr len : ℕ)
    (prot : Prot) : Option Errno × St :=
  if seg.maxprot &&& prot ≠ prot then (some .eacces, s)
  else
    match protResv resv s seg addr len prot with
    | .error error => (some error, s)
    | .ok (s1, seg1) =>
      (none, { s1 with segs := s1.segs.put j (some (protectSeg seg1 addr len prot)) })

/-- `segvn_dup` into another address space. -/
def segvnDup (resv : Bool) (addMap : Option Errno) (s : St) (seg : Seg)
    (newas : ℕ) : Option Errno × St :=
  if seg.swresv ≠ 0 ∧ !resv then (some .enomem, s)
  else
    let s1 := anonResv s seg.swresv
    let newseg := { seg with as := newas }
    let s2 : St :=
      match seg.amp with
      | none => { s1 with segs := s1.segs.add { newseg with anonIndex := 0 } }
      | some id =>
        if seg.type = .mapShared then
          let s1 := holdAmp s1 (some id)
          { s1 with segs := s1.segs.add newseg }
        else
          match s1.amps.get id with
          | none => s1
          | some amp =>
            let segs := s1.segs.add { newseg with amp := some s1.amps.next, anonIndex := 0 }
            let copy := { anonmapAlloc seg.size 0 with
                anon := (amp.anon.drop seg.anonIndex).take seg.size }
            { s1 with segs := segs, amps := s1.amps.add copy }
    (if seg.vp = none then none else addMap, s2)

/-- A page fault: the page, whether it is a write, whether a page that is there is copied, the new
page, and whether swap space and memory can be had. -/
structure Fault where
  page : ℕ
  write : Bool
  copy : Bool
  anon : ℕ
  resv : Bool
  memory : Bool
  deriving DecidableEq, Repr

/-- `segvn_fault`: an anon map is allocated when it is needed. -/
def faultAmp (s : St) (j : ℕ) (seg : Seg) (f : Fault) : St × Seg :=
  if seg.amp = none ∧ (seg.vp = none ∨ (f.write ∧ seg.type = .mapPrivate)) then
    let seg := { seg with amp := some s.amps.next }
    ({ s with amps := s.amps.add (anonmapAlloc seg.size 0), segs := s.segs.put j (some seg) }, seg)
  else (s, seg)

/-- `segvn_faultpage`: a page of zeroes, or a private copy of a page, is put in the slot. -/
def faultPage (s : St) (j : ℕ) (seg : Seg) (f : Fault) : St :=
  match seg.amp with
  | none => s
  | some id =>
    match s.amps.get id with
    | none => s
    | some amp =>
      let x := seg.anonIndex + f.page
      let empty := (slotAt amp.anon x).isNone
      if (seg.vp = none ∧ empty) ∨ (f.write ∧ seg.type = .mapPrivate ∧ f.copy) then
        if noreserve seg.flags ∧ empty ∧ !f.resv then s
        else
          let s1 :=
            if noreserve seg.flags ∧ empty then
              { anonResv s 1 with
                  segs := s.segs.put j (some { seg with swresv := seg.swresv + 1 }) }
            else s
          let anon := amp.anon.set x (some f.anon)
          if f.memory then
            { s1 with amps := s1.amps.put id (some { amp with anon := anon }) } else s1
      else s

def segvnFault (s : St) (j : ℕ) (seg : Seg) (f : Fault) : St :=
  let r := faultAmp s j seg f
  faultPage r.1 j r.2 f

/-! ### Runs -/

/-- The calls of the driver, and what owners outside it do with anon maps of their own: make one
with some pages, a reservation and a reference, take another reference, drop a reference. -/
inductive Op where
  | create (e : Env) (as base size : ℕ) (a : Crargs)
  | unmap (j addr len : ℕ)
  | setprot (resv : Bool) (j addr len : ℕ) (prot : Prot)
  | dup (resv : Bool) (addMap : Option Errno) (j newas : ℕ)
  | free (j : ℕ)
  | fault (j : ℕ) (f : Fault)
  | ampMake (size swresv : ℕ)
  | ampHold (id : ℕ)
  | ampRele (id : ℕ)

/-- An owner outside the driver drops a reference. -/
def ampRele (s : St) (id : ℕ) (amp : Amp) : St :=
  if amp.refcnt - 1 = 0 then anonUnresv { s with amps := s.amps.put id none } amp.swresv
  else
    { s with
      amps := s.amps.put id
        (some { amp with refcnt := amp.refcnt - 1, outside := amp.outside - 1 }) }

/-- One call: a panic, or an error and a state. -/
def step (s : St) : Op → Except Panic (Option Errno × St)
  | .create e as base size a => segvnCreate e s as base size a
  | .unmap j addr len =>
    match s.segs.get j with
    | none => .ok (none, s)
    | some seg => (segvnUnmap s j seg addr len).map fun s => (none, s)
  | .setprot resv j addr len prot =>
    match s.segs.get j with
    | none => .ok (none, s)
    | some seg => .ok (segvnSetprot resv s j seg addr len prot)
  | .dup resv addMap j newas =>
    match s.segs.get j with
    | none => .ok (none, s)
    | some seg => .ok (segvnDup resv addMap s seg newas)
  | .free j =>
    match s.segs.get j with
    | none => .ok (none, s)
    | some seg => .ok (none, segvnFree s j seg)
  | .fault j f =>
    match s.segs.get j with
    | none => .ok (none, s)
    | some seg => .ok (none, segvnFault s j seg f)
  | .ampMake size swresv =>
    .ok (none, { anonResv s swresv with
        amps := s.amps.add { anonmapAlloc size swresv with outside := 1 } })
  | .ampHold id =>
    match s.amps.get id with
    | none => .ok (none, s)
    | some amp =>
      let amp := { amp with refcnt := amp.refcnt + 1, outside := amp.outside + 1 }
      .ok (none, { s with amps := s.amps.put id (some amp) })
  | .ampRele id =>
    match s.amps.get id with
    | none => .ok (none, s)
    | some amp => .ok (none, ampRele s id amp)

/-- Two stretches of pages have no page in common. -/
def Apart (base size base' size' : ℕ) : Prop := base + size ≤ base' ∨ base' + size' ≤ base

/-- No segment of an address space lies in a stretch of pages. -/
def Vacant (s : St) (as base size : ℕ) : Prop :=
  ∀ j seg, s.segs.get j = some seg → seg.as = as → Apart seg.base seg.size base size

/-- A part of a segment that a caller names. -/
def Within (s : St) (j addr len : ℕ) : Prop :=
  ∃ seg, s.segs.get j = some seg ∧ 0 < len ∧ seg.base ≤ addr ∧ addr + len ≤ seg.base + seg.size

/-- What the callers of the driver see to: segments are made where there are none, a given anon map
is held by its giver, goes without a vnode and is large enough, and parts of segments lie in
them. -/
def Legal (s : St) : Op → Prop
  | .create _ as base size a =>
    0 < size ∧ Vacant s as base size ∧
      ∀ id, a.amp = some id → a.vp = none ∧
        ∃ amp, s.amps.get id = some amp ∧ 0 < amp.outside ∧ a.offset + size ≤ amp.anon.length
  | .unmap j addr len => Within s j addr len
  | .setprot _ j addr len _ => Within s j addr len
  | .dup _ _ j newas => ∃ seg, s.segs.get j = some seg ∧ Vacant s newas seg.base seg.size
  | .free j => ∃ seg, s.segs.get j = some seg
  | .fault j f => ∃ seg, s.segs.get j = some seg ∧ f.page < seg.size
  | .ampMake _ _ => True
  | .ampHold id => ∃ amp, s.amps.get id = some amp ∧ 0 < amp.outside
  | .ampRele id => ∃ amp, s.amps.get id = some amp ∧ 0 < amp.outside

/-- No segments, no anon maps, nothing taken. -/
def St.init : St := ⟨.empty, .empty, 0⟩

end Sol25.Segvn
