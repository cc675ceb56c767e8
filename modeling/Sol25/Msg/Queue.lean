import Mathlib.Data.List.Perm.Lattice
import Sol25.Data.Singly
import Sol25.Msg.Kernel
import Sol25.Rmap.Space

/-!
# Headers, queues and segments

Every header is on the free list or on one queue, and the segments of the messages on the queues
fill the pool together with the segments of the map.
-/

namespace Sol25.Msg

open Function List

open Rmap (Seg held RepInv)

/-- The links between headers. -/
def nexts (hdr : ℕ → Header) (i : ℕ) : Option ℕ := (hdr i).next

theorem nexts_setNext (hdr : ℕ → Header) (i : ℕ) (next : Option ℕ) :
    nexts (setNext hdr i next) = update (nexts hdr) i next := by
  funext j
  by_cases same : j = i
  · subst same
    simp [nexts, setNext]
  · simp [nexts, setNext, same]

@[simp] theorem setNext_ts (hdr : ℕ → Header) (i j : ℕ) (next : Option ℕ) :
    (setNext hdr i next j).ts = (hdr j).ts := by
  by_cases same : j = i
  · subst same
    simp [setNext]
  · simp [setNext, same]

@[simp] theorem setNext_spot (hdr : ℕ → Header) (i j : ℕ) (next : Option ℕ) :
    (setNext hdr i next j).spot = (hdr j).spot := by
  by_cases same : j = i
  · subst same
    simp [setNext]
  · simp [setNext, same]

variable {k : Kernel} {l : List ℕ} {i mp qp : ℕ} {hdr : ℕ → Header}

theorem setNext_of_ne {j : ℕ} {next : Option ℕ} (differ : j ≠ i) : setNext hdr i next j = hdr j :=
  update_of_ne differ _ _

theorem minus_of_le {x y : ℕ} (le : y ≤ x) (small : x < 2 ^ 32) : minus x y = x - y := by
  simp only [minus, Rmap.ulong]
  omega

/-! ### One queue -/

/-- The messages on a queue. -/
structure Chained (hdr : ℕ → Header) (q : MsqidDs) (l : List ℕ) : Prop where
  links : Links (nexts hdr) q.first l none
  last : q.last = l.getLast?
  qnum : q.qnum = l.length
  /-- A queue that is not in use is empty. -/
  idle : q.perm.allocated = false → l = []

theorem Chained.congr {hdr' : ℕ → Header} {q : MsqidDs} (chained : Chained hdr q l)
    (same : ∀ i ∈ l, (hdr' i).next = (hdr i).next) : Chained hdr' q l :=
  { chained with links := chained.links.congr same }

theorem Chained.of_fields {q q' : MsqidDs} (chained : Chained hdr q l) (first : q'.first = q.first)
    (last : q'.last = q.last) (qnum : q'.qnum = q.qnum)
    (allocated : q'.perm.allocated = q.perm.allocated) :
    Chained hdr q' l where
  links := by
    rw [first]
    exact chained.links
  last := last.trans chained.last
  qnum := qnum.trans chained.qnum
  idle := by
    rw [allocated]
    exact chained.idle

/-! ### All headers and segments -/

section Linked

variable (t : Msginfo)

def Msginfo.headers : ℕ := t.msgtql.toInt.toNat

def Msginfo.queues : ℕ := t.msgmni.toInt.toNat

def queued (queue : ℕ → List ℕ) : List ℕ := (List.range t.queues).flatMap queue

/-- The segments that hold the text of a message, by their addresses in the map. -/
def Header.text (h : Header) : List Seg :=
  if h.ts = 0 then [] else [⟨segs t (h.ts.setWidth 32), h.spot.toNat + 1⟩]

theorem Header.text_of_ne {h : Header} (some_text : h.ts ≠ 0) :
    h.text t = [⟨segs t (h.ts.setWidth 32), h.spot.toNat + 1⟩] :=
  if_neg some_text

theorem Header.text_of_eq {h : Header} (no_text : h.ts = 0) : h.text t = [] := if_pos no_text

/-- The segments that hold the texts of messages. -/
def texts (hdr : ℕ → Header) (l : List ℕ) : List Seg := l.flatMap fun i => (hdr i).text t

/-- The addresses of these segments. -/
def spans (hdr : ℕ → Header) (l : List ℕ) : List ℕ := (texts t hdr l).flatMap Seg.span

/-- The headers `free` are on the free list, and the headers `queue qp` on the queue `qp`. -/
structure Linked (k : Kernel) (free : List ℕ) (queue : ℕ → List ℕ) : Prop where
  free_links : Links (nexts k.hdr) k.msgfp free none
  chained : ∀ qp, Chained k.hdr (k.que qp) (queue qp)
  beyond : ∀ qp, t.queues ≤ qp → queue qp = []
  /-- Every header is on one list, once. -/
  headers : (free ++ queued t queue).Perm (List.range t.headers)
  inv : RepInv k.map
  cap : k.map.cap = t.msgmap.toNat - Rmap.mapOverhead
  live : ∀ seg ∈ texts t k.hdr (queued t queue), seg.size ≠ 0
  /-- Every segment is in the map or in one message, once. -/
  cover : (held k.map ++ spans t k.hdr (queued t queue)).Perm
    (List.range' 1 t.msgseg.toNat)

end Linked

variable {t : Msginfo} {k : Kernel} {free : List ℕ} {queue : ℕ → List ℕ} {qp : ℕ}

theorem texts_append (hdr : ℕ → Header) (l₁ l₂ : List ℕ) :
    texts t hdr (l₁ ++ l₂) = texts t hdr l₁ ++ texts t hdr l₂ :=
  flatMap_append

theorem texts_perm {l₁ l₂ : List ℕ} (perm : l₁.Perm l₂) : (texts t hdr l₁).Perm (texts t hdr l₂) :=
  perm.flatMap_right _

theorem spans_append (t : Msginfo) (hdr : ℕ → Header) (l₁ l₂ : List ℕ) :
    spans t hdr (l₁ ++ l₂) = spans t hdr l₁ ++ spans t hdr l₂ := by
  rw [spans, texts_append, flatMap_append]
  rfl

theorem spans_perm {l₁ l₂ : List ℕ} (perm : l₁.Perm l₂) : (spans t hdr l₁).Perm (spans t hdr l₂) :=
  (texts_perm perm).flatMap_right _

theorem texts_congr {hdr' : ℕ → Header} (same_ts : ∀ i ∈ l, (hdr' i).ts = (hdr i).ts)
    (same_spot : ∀ i ∈ l, (hdr' i).spot = (hdr i).spot) : texts t hdr' l = texts t hdr l := by
  unfold texts
  rw [flatMap_def, flatMap_def]
  congr 1
  refine map_congr_left fun i mem => ?_
  rw [Header.text, Header.text, same_ts i mem, same_spot i mem]

/-- The headers on the queues but one. -/
def elsewhere (t : Msginfo) (queue : ℕ → List ℕ) (qp : ℕ) : List ℕ :=
  ((List.range t.queues).erase qp).flatMap queue

theorem queued_perm (small : qp < t.queues) :
    (queued t queue).Perm (queue qp ++ elsewhere t queue qp) :=
  ((perm_cons_erase (mem_range.2 small)).flatMap_right queue)

theorem queued_update_perm (small : qp < t.queues) (l : List ℕ) :
    (queued t (update queue qp l)).Perm (l ++ elsewhere t queue qp) := by
  refine (@queued_perm t (update queue qp l) qp small).trans ?_
  have same : elsewhere t (update queue qp l) qp = elsewhere t queue qp := by
    unfold elsewhere
    rw [flatMap_def, flatMap_def]
    congr 1
    refine map_congr_left fun i mem => update_of_ne ?_ _ _
    exact (Nodup.mem_erase_iff nodup_range).1 mem |>.1
  rw [update_self, same]

theorem Linked.nodup (linked : Linked t k free queue) : (free ++ queued t queue).Nodup :=
  linked.headers.nodup_iff.2 nodup_range

theorem Linked.nodup_split (linked : Linked t k free queue) (small : qp < t.queues) :
    (free ++ (queue qp ++ elsewhere t queue qp)).Nodup :=
  ((queued_perm small).append_left free).nodup_iff.1 linked.nodup

theorem mem_elsewhere {other : ℕ} (small : other < t.queues) (differ : other ≠ qp)
    (mem : i ∈ queue other) : i ∈ elsewhere t queue qp := by
  refine mem_flatMap.2 ⟨other, ?_, mem⟩
  exact (Nodup.mem_erase_iff nodup_range).2 ⟨differ, mem_range.2 small⟩

theorem Linked.free_apart (linked : Linked t k free queue) (mem : i ∈ free) (other : ℕ) :
    i ∉ queue other := by
  intro mem'
  rcases Nat.lt_or_ge other t.queues with small | large
  · refine (nodup_append.1 linked.nodup).2.2 i mem i ?_ rfl
    exact mem_flatMap.2 ⟨other, mem_range.2 small, mem'⟩
  · rw [linked.beyond other large] at mem'
    exact not_mem_nil mem'

/-- A step that works on the free list, on one queue and on the map, and keeps their headers and
their segments. -/
theorem Linked.change (linked : Linked t k free queue) (small : qp < t.queues) {k' : Kernel}
    {free' l' : List ℕ} (que : ∀ other, other ≠ qp → k'.que other = k.que other)
    (same : ∀ i, i ∉ free → i ∉ queue qp → k'.hdr i = k.hdr i)
    (free_links : Links (nexts k'.hdr) k'.msgfp free' none)
    (chained : Chained k'.hdr (k'.que qp) l') (headers : (free' ++ l').Perm (free ++ queue qp))
    (inv : RepInv k'.map) (cap : k'.map.cap = k.map.cap)
    (live : ∀ seg ∈ texts t k'.hdr l', seg.size ≠ 0)
    (cover : (held k'.map ++ spans t k'.hdr l').Perm (held k.map ++ spans t k.hdr (queue qp))) :
    Linked t k' free' (update queue qp l') := by
  have distinct := linked.nodup_split small
  have untouched : ∀ i ∈ elsewhere t queue qp, k'.hdr i = k.hdr i := by
    intro i mem
    rw [nodup_append] at distinct
    obtain ⟨-, distinct', apart⟩ := distinct
    rw [nodup_append] at distinct'
    refine same i (fun mem' => ?_) (fun mem' => ?_)
    · exact apart i mem' i (mem_append_right _ mem) rfl
    · exact distinct'.2.2 i mem' i mem rfl
  have same_texts : texts t k'.hdr (elsewhere t queue qp) = texts t k.hdr (elsewhere t queue qp) :=
    texts_congr (fun i mem => by rw [untouched i mem]) (fun i mem => by rw [untouched i mem])
  refine ⟨free_links, ?_, ?_, ?_, inv, cap.trans linked.cap, ?_, ?_⟩
  · intro other
    by_cases this : other = qp
    · subst this
      rw [update_self]
      exact chained
    · rw [update_of_ne this, que other this]
      rcases Nat.lt_or_ge other t.queues with small' | large
      · exact (linked.chained other).congr fun i mem => by
          rw [untouched i (mem_elsewhere small' this mem)]
      · refine (linked.chained other).congr fun i mem => ?_
        rw [linked.beyond other large] at mem
        exact absurd mem not_mem_nil
  · intro other large
    rw [update_of_ne (by omega)]
    exact linked.beyond other large
  · calc
      List.Perm (free' ++ queued t (update queue qp l'))
          (free' ++ (l' ++ elsewhere t queue qp)) := (queued_update_perm small l').append_left _
      List.Perm _ (free ++ queue qp ++ elsewhere t queue qp) := by
        rw [← append_assoc]
        exact headers.append_right _
      List.Perm _ (free ++ queued t queue) := by
        rw [append_assoc]
        exact (queued_perm small).symm.append_left _
      List.Perm _ (List.range t.headers) := linked.headers
  · intro seg mem
    rw [(texts_perm (queued_update_perm small l')).mem_iff, texts_append, mem_append,
      same_texts] at mem
    rcases mem with mem | mem
    · exact live seg mem
    · refine linked.live seg ?_
      rw [(texts_perm (queued_perm small)).mem_iff, texts_append]
      exact mem_append_right _ mem
  · calc
      List.Perm (held k'.map ++ spans t k'.hdr (queued t (update queue qp l')))
          (held k'.map ++ spans t k'.hdr (l' ++ elsewhere t queue qp)) :=
        (spans_perm (queued_update_perm small l')).append_left _
      List.Perm _ (held k.map ++ spans t k.hdr (queue qp) ++ spans t k.hdr
          (elsewhere t queue qp)) := by
        rw [spans_append, ← append_assoc, spans, spans, same_texts]
        exact cover.append_right _
      List.Perm _ (held k.map ++ spans t k.hdr (queued t queue)) := by
        rw [append_assoc, ← spans_append]
        exact (spans_perm (queued_perm small)).symm.append_left _
      List.Perm _ (List.range' 1 t.msgseg.toNat) := linked.cover

theorem length_texts_le (hdr : ℕ → Header) (l : List ℕ) : (texts t hdr l).length ≤ l.length := by
  induction l with
  | nil => exact Nat.le_refl _
  | cons i l ih =>
    have one : ((hdr i).text t).length ≤ 1 := by
      rw [Header.text]
      split_ifs <;> simp
    simp only [texts, flatMap_cons, length_append, length_cons] at ih ⊢
    omega

/-! ### The tuning -/

/-- The tunables that the facility can work with: the counts are counts, and the map has a slot for
every segment that there can be at a time. -/
structure Tuned (t : Msginfo) : Prop where
  msgtql : 0 ≤ t.msgtql.toInt
  msgmni : 0 < t.msgmni.toInt
  msgssz : 0 < t.msgssz.toInt
  slots : min t.headers ((t.msgseg.toNat + 1) / 2) ≤ t.msgmap.toNat - Rmap.mapOverhead

/-- Segments that are in no map can be freed. -/
theorem Tuned.rmfree (tuned : Tuned t) (few : t.msgseg.toNat < 32768) {map : Rmap.Map} {seg : Seg}
    {others : List Seg} (inv : RepInv map) (cap : map.cap = t.msgmap.toNat - Rmap.mapOverhead)
    (seg_live : seg.size ≠ 0) (live : ∀ other ∈ others, other.size ≠ 0)
    (headers : (seg :: others).length ≤ t.headers)
    (cover : (held map ++ (seg :: others).flatMap Seg.span).Perm (List.range' 1 t.msgseg.toNat)) :
    ∃ map', Msg.rmfree map seg.size seg.addr = .ok map' ∧
      Rmap.Freed map seg.size seg.addr map' := by
  have inside : ∀ a ∈ seg.span, 1 ≤ a ∧ a < 1 + t.msgseg.toNat := by
    intro a mem
    rw [← mem_range'_1, ← cover.mem_iff]
    exact mem_append_right _ (mem_flatMap.2 ⟨seg, mem_cons_self, mem⟩)
  have low := inside seg.addr (mem_range'_1.2 (by omega))
  have high := inside (seg.addr + seg.size - 1) (mem_range'_1.2 (by omega))
  have absent : ∀ a ∈ held map, ¬ (seg.addr ≤ a ∧ a < seg.addr + seg.size) := by
    intro a mem bounds
    have distinct := cover.nodup_iff.2 nodup_range'
    refine (nodup_append.1 distinct).2.2 a mem a ?_ rfl
    exact mem_flatMap.2 ⟨seg, mem_cons_self, mem_range'_1.2 bounds⟩
  have room : map.free ≠ 0 ∨ ¬ Rmap.Detached map seg.size seg.addr := by
    by_contra none_left
    obtain ⟨full, detached⟩ := not_or.1 none_left
    have count := inv.count
    have slots := tuned.slots
    obtain ⟨few, half⟩ := (not_not.1 detached).length_le inv seg_live live cover
    omega
  obtain ⟨map', frees, freed⟩ := Rmap.rmfree_spec inv (by omega) seg_live (by omega)
    (by omega) absent room
  exact ⟨map', by rw [Msg.rmfree, frees], freed⟩

theorem Tuned.btoq (tuned : Tuned t) (x : BitVec 32) : btoq t x = .ok (segs t x) := by
  have := tuned.msgssz
  refine if_neg fun zero => ?_
  rw [zero] at this
  exact absurd this (by decide)

/-- A segment has at least one byte and at most 2^30; the segments for a number of bytes have room
for them. -/
theorem Tuned.segs_eq (tuned : Tuned t) (small : t.msgssz.toNat ≤ 2 ^ 30) {x : BitVec 32}
    (short : x.toNat < 2 ^ 16) :
    segs t x = (x.toNat + t.msgssz.toNat - 1) / t.msgssz.toNat := by
  have positive := tuned.msgssz
  rw [BitVec.toInt_eq_toNat_of_lt (by omega)] at positive
  have sum : (x + t.msgssz - 1).toNat = x.toNat + t.msgssz.toNat - 1 := by
    rw [BitVec.toNat_sub, BitVec.toNat_add]
    simp
    omega
  have sum_msb : (x + t.msgssz - 1).msb = false := by
    rw [BitVec.msb_eq_false_iff_two_mul_lt]
    omega
  have msb : t.msgssz.msb = false := by
    rw [BitVec.msb_eq_false_iff_two_mul_lt]
    omega
  rw [segs, BitVec.sdiv_eq, sum_msb, msb]
  simp only [BitVec.udiv_eq, BitVec.toNat_udiv, sum]

/-! ### Taking a message off its queue -/

theorem allocated_wakeWriters (q : MsqidDs) : q.wakeWriters.perm.allocated = q.perm.allocated := by
  have kept : q.perm.mode &&& ~~~msgWwait &&& Ipc.ipcAlloc = q.perm.mode &&& Ipc.ipcAlloc := by
    rw [BitVec.and_assoc]
    rfl
  simp only [MsqidDs.wakeWriters, MsqidDs.setMode, Ipc.IpcPerm.allocated, kept]

theorem Chained.unlink {before after : List ℕ}
    (chained : Chained k.hdr (k.que qp) (before ++ mp :: after))
    (distinct : (before ++ mp :: after).Nodup) (few : (before ++ mp :: after).length < 2 ^ 32) :
    Chained (k.unlink qp before.getLast? mp).hdr ((k.unlink qp before.getLast? mp).que qp)
      (before ++ after) := by
  have next_eq : (k.hdr mp).next = after.head? := chained.links.next_eq
  have counted : minus (k.que qp).qnum 1 = (before ++ after).length := by
    rw [chained.qnum, minus_of_le (by simp; omega) few]
    simp only [length_append, length_cons]
    omega
  have in_use : (k.que qp).perm.allocated = true := by
    by_contra unused
    have := chained.idle (Bool.eq_false_iff.2 unused)
    simp at this
  have last_eq : (if after.head? = none then before.getLast? else (k.que qp).last) =
      (before ++ after).getLast? := by
    cases after with
    | nil => simp
    | cons a after =>
      rw [chained.last, head?_cons, if_neg (by simp), getLast?_append,
        getLast?_append, getLast?_cons_cons]
  have still {q : MsqidDs} (same : q.perm = (k.que qp).perm) :
      q.wakeWriters.perm.allocated = false → before ++ after = [] := by
    intro unused
    rw [allocated_wakeWriters, same, in_use] at unused
    exact absurd unused (by decide)
  rcases eq_nil_or_concat before with rfl | ⟨front, p, rfl⟩
  · obtain ⟨-, rest⟩ := chained.links
    refine ⟨?_, ?_, ?_, ?_⟩ <;>
      simp only [Kernel.unlink, Kernel.put, getLast?_nil, update_self, if_true]
    · exact rest
    · simpa [MsqidDs.wakeWriters, MsqidDs.setMode, next_eq] using last_eq
    · exact counted
    · exact still rfl
  · rw [concat_eq_append] at *
    have links : Links (nexts k.hdr) (k.que qp).first (front ++ p :: mp :: after) none := by
      simpa using chained.links
    have unlinked := links.unlink (by simpa using distinct)
    rw [nexts] at unlinked
    refine ⟨?_, ?_, ?_, ?_⟩ <;>
      simp only [Kernel.unlink, Kernel.put, getLast?_concat, update_self]
    · rw [nexts_setNext]
      simpa [MsqidDs.wakeWriters, MsqidDs.setMode] using unlinked
    · simpa [MsqidDs.wakeWriters, MsqidDs.setMode, next_eq] using last_eq
    · exact counted
    · exact still rfl

theorem unlink_ts (k : Kernel) (qp mp i : ℕ) (pmp : Option ℕ) :
    ((k.unlink qp pmp mp).hdr i).ts = (k.hdr i).ts := by
  cases pmp with
  | none => rfl
  | some p => exact setNext_ts _ _ _ _

theorem unlink_spot (k : Kernel) (qp mp i : ℕ) (pmp : Option ℕ) :
    ((k.unlink qp pmp mp).hdr i).spot = (k.hdr i).spot := by
  cases pmp with
  | none => rfl
  | some p => exact setNext_spot _ _ _ _

theorem unlink_msgfp (k : Kernel) (qp mp : ℕ) (pmp : Option ℕ) :
    (k.unlink qp pmp mp).msgfp = k.msgfp := by
  cases pmp <;> rfl

theorem unlink_map (k : Kernel) (qp mp : ℕ) (pmp : Option ℕ) :
    (k.unlink qp pmp mp).map = k.map := by
  cases pmp <;> rfl

theorem unlink_cbytes (k : Kernel) (qp mp other : ℕ) (pmp : Option ℕ) :
    ((k.unlink qp pmp mp).que other).cbytes = (k.que other).cbytes := by
  by_cases this : other = qp
  · subst this
    cases pmp <;> simp [Kernel.unlink, Kernel.put, MsqidDs.wakeWriters, MsqidDs.setMode]
  · cases pmp <;> simp [Kernel.unlink, Kernel.put, this]

theorem unlink_que {other : ℕ} {pmp : Option ℕ} (this : other ≠ qp) :
    (k.unlink qp pmp mp).que other = k.que other := by
  cases pmp <;> simp [Kernel.unlink, Kernel.put, this]

theorem unlink_hdr {pmp : Option ℕ} (other : pmp ≠ some i) :
    (k.unlink qp pmp mp).hdr i = k.hdr i := by
  cases pmp with
  | none => rfl
  | some p => exact setNext_of_ne fun same => other (by rw [same])

/-- What freeing a message leaves alone. -/
structure Kept (k k' : Kernel) : Prop where
  ts : ∀ i, (k'.hdr i).ts = (k.hdr i).ts
  cbytes : ∀ qp, (k'.que qp).cbytes = (k.que qp).cbytes

/-- The addresses of a queued message are addresses of segments. -/
theorem Linked.spot_lt (linked : Linked t k free queue) (mem : mp ∈ queued t queue)
    (some_text : (k.hdr mp).ts ≠ 0) :
    segs t ((k.hdr mp).ts.setWidth 32) ≠ 0 ∧
      (k.hdr mp).spot.toNat + segs t ((k.hdr mp).ts.setWidth 32) ≤ t.msgseg.toNat := by
  have text_mem : ⟨segs t ((k.hdr mp).ts.setWidth 32), (k.hdr mp).spot.toNat + 1⟩ ∈
      texts t k.hdr (queued t queue) := by
    refine mem_flatMap.2 ⟨mp, mem, ?_⟩
    rw [Header.text_of_ne t some_text]
    exact mem_singleton_self _
  have live := linked.live _ text_mem
  simp only at live
  have inside : (k.hdr mp).spot.toNat + segs t ((k.hdr mp).ts.setWidth 32) ∈
      List.range' 1 t.msgseg.toNat := by
    rw [← linked.cover.mem_iff]
    refine mem_append_right _ (mem_flatMap.2 ⟨_, text_mem, mem_range'_1.2 ?_⟩)
    simp only
    omega
  have := mem_range'_1.1 inside
  omega

theorem spot_address {spot : BitVec 16} (small : spot.toNat < 32767) :
    (spot.signExtend 32 + 1).toNat = spot.toNat + 1 := by
  have msb : spot.msb = false := by
    rw [BitVec.msb_eq_false_iff_two_mul_lt]
    omega
  rw [BitVec.signExtend_eq_setWidth_of_msb_false msb, BitVec.toNat_add, BitVec.toNat_setWidth]
  have : (1 : BitVec 32).toNat = 1 := rfl
  omega

theorem Linked.length_queued_le (linked : Linked t k free queue) :
    (queued t queue).length ≤ t.headers := by
  have := linked.headers.length_eq
  simp only [length_append, length_range] at this
  omega

theorem Msginfo.headers_lt (t : Msginfo) : t.headers < 2 ^ 31 := by
  have := BitVec.toInt_lt (x := t.msgtql)
  rw [Msginfo.headers]
  omega

/-- The segments of a message on a queue can be freed. -/
theorem Linked.rmfree (linked : Linked t k free queue) (tuned : Tuned t)
    (few : t.msgseg.toNat < 32768) {others : List ℕ} (perm : (queued t queue).Perm (mp :: others))
    (some_text : (k.hdr mp).ts ≠ 0) :
    ∃ map', Msg.rmfree k.map (segs t ((k.hdr mp).ts.setWidth 32))
      ((k.hdr mp).spot.toNat + 1) = .ok map' ∧
      Rmap.Freed k.map (segs t ((k.hdr mp).ts.setWidth 32)) ((k.hdr mp).spot.toNat + 1) map' := by
  have text_eq : texts t k.hdr (mp :: others) =
      ⟨segs t ((k.hdr mp).ts.setWidth 32), (k.hdr mp).spot.toNat + 1⟩ :: texts t k.hdr others := by
    rw [texts, flatMap_cons, Header.text_of_ne t some_text]
    rfl
  have live : ∀ seg ∈ texts t k.hdr (mp :: others), seg.size ≠ 0 := fun seg mem =>
    linked.live seg ((texts_perm perm).mem_iff.2 mem)
  have cover := ((spans_perm perm).symm.append_left (held k.map)).trans linked.cover
  have short : (texts t k.hdr (mp :: others)).length ≤ t.headers :=
    (length_texts_le _ _).trans (perm.length_eq ▸ linked.length_queued_le)
  rw [spans, text_eq] at cover
  rw [text_eq] at live short
  exact tuned.rmfree few linked.inv linked.cap (live _ mem_cons_self)
    (fun other mem => live other (mem_cons_of_mem _ mem)) short cover

/-- `msgfree` moves a message from its queue to the free list, and its segments to the map. -/
theorem Linked.msgfree (linked : Linked t k free queue) (tuned : Tuned t)
    (few : t.msgseg.toNat < 32768) (small : qp < t.queues) {before after : List ℕ}
    (queue_eq : queue qp = before ++ mp :: after) :
    ∃ k', Msg.msgfree t k qp before.getLast? mp = .ok k' ∧
      Linked t k' (mp :: free) (update queue qp (before ++ after)) ∧ Kept k k' := by
  have distinct := linked.nodup_split small
  have perm := @queued_perm t queue qp small
  rw [queue_eq] at distinct perm
  have perm' : (queued t queue).Perm (mp :: (before ++ after ++ elsewhere t queue qp)) := by
    refine perm.trans ?_
    simp
  rw [nodup_append] at distinct
  obtain ⟨-, distinct', -⟩ := distinct
  have queue_distinct : (before ++ mp :: after).Nodup := (nodup_append.1 distinct').1
  have mp_notMem : mp ∉ before ++ after := (nodup_middle.1 queue_distinct).notMem
  have free_apart : ∀ i ∈ free, i ∉ before ++ mp :: after := fun i mem => by
    rw [← queue_eq]
    exact linked.free_apart mem qp
  have short : (before ++ mp :: after).length < 2 ^ 32 := by
    have := linked.length_queued_le
    have := t.headers_lt
    have := perm.length_eq
    rw [length_append] at this
    omega
  have pred_mem {i : ℕ} (is_pred : before.getLast? = some i) : i ∈ before := mem_of_getLast? is_pred
  -- The segments go back to the map.
  obtain ⟨map', frees, inv', cap', held'⟩ : ∃ map', Msg.msgfree t k qp before.getLast? mp =
        .ok ({ k.unlink qp before.getLast? mp with map := map' }.pushHeader mp) ∧
      RepInv map' ∧ map'.cap = k.map.cap ∧
      (held map').Perm (spans t k.hdr [mp] ++ held k.map) := by
    rw [Msg.msgfree]
    simp only [unlink_ts, unlink_spot, unlink_map, bind, Except.bind, pure, Except.pure]
    by_cases some_text : (k.hdr mp).ts = 0
    · refine ⟨k.map, ?_, linked.inv, rfl, ?_⟩
      · rw [if_neg (by simpa using some_text)]
      · simp [spans, texts, Header.text_of_eq t some_text]
    · obtain ⟨map', frees, freed⟩ := linked.rmfree tuned few perm' some_text
      obtain ⟨-, bound⟩ := linked.spot_lt (perm'.mem_iff.2 mem_cons_self) some_text
      have live := (linked.spot_lt (perm'.mem_iff.2 mem_cons_self) some_text).1
      refine ⟨map', ?_, freed.inv, freed.cap, ?_⟩
      · rw [if_pos some_text, tuned.btoq]
        simp only
        rw [spot_address (by omega), frees]
      · simpa [spans, texts, Header.text_of_ne t some_text, Seg.span] using freed.held
  have same_texts : texts t ({ k.unlink qp before.getLast? mp with map := map' }.pushHeader mp).hdr
      (before ++ after) = texts t k.hdr (before ++ after) :=
    texts_congr (fun i _ => (setNext_ts _ _ _ _).trans (unlink_ts _ _ _ _ _))
      (fun i _ => (setNext_spot _ _ _ _).trans (unlink_spot _ _ _ _ _))
  refine ⟨_, frees, linked.change small ?_ ?_ ?_ ?_ ?_ inv' cap' ?_ ?_, ?_⟩
  · exact fun other this => unlink_que this
  · intro i not_free not_queued
    rw [queue_eq] at not_queued
    have other : i ≠ mp := by
      rintro rfl
      exact not_queued (by simp)
    refine (setNext_of_ne other).trans (unlink_hdr fun is_pred => not_queued ?_)
    exact mem_append_left _ (pred_mem is_pred)
  · have free_links : Links (nexts (k.unlink qp before.getLast? mp).hdr) k.msgfp free none := by
      refine linked.free_links.congr fun i mem => ?_
      rw [nexts, nexts, unlink_hdr fun is_pred => ?_]
      exact free_apart i mem (mem_append_left _ (pred_mem is_pred))
    have outside : mp ∉ free := fun mem => free_apart mp mem (by simp)
    have pushed := free_links.push outside
    rw [← nexts_setNext] at pushed
    simpa only [Kernel.pushHeader, unlink_msgfp] using pushed
  · have chained := linked.chained qp
    rw [queue_eq] at chained
    refine (chained.unlink queue_distinct short).congr fun i mem => ?_
    have other : i ≠ mp := by
      rintro rfl
      exact mp_notMem mem
    exact congrArg Header.next (setNext_of_ne other)
  · rw [queue_eq]
    calc
      List.Perm (mp :: free ++ (before ++ after)) (free ++ mp :: (before ++ after)) :=
        perm_middle.symm
      List.Perm _ (free ++ (before ++ mp :: after)) := perm_middle.symm.append_left free
  · intro seg mem
    rw [same_texts] at mem
    refine linked.live seg ((texts_perm perm').mem_iff.2 ?_)
    rw [← cons_append, texts_append]
    exact mem_append_left _ (mem_flatMap.2 (by
      obtain ⟨i, i_mem, seg_mem⟩ := mem_flatMap.1 mem
      exact ⟨i, mem_cons_of_mem _ i_mem, seg_mem⟩))
  · rw [spans, same_texts, queue_eq]
    calc
      List.Perm (held map' ++ spans t k.hdr (before ++ after))
          (spans t k.hdr [mp] ++ held k.map ++ spans t k.hdr (before ++ after)) :=
            held'.append_right _
      List.Perm _ (held k.map ++ spans t k.hdr (mp :: (before ++ after))) := by
        rw [show mp :: (before ++ after) = [mp] ++ (before ++ after) from rfl,
          spans_append t k.hdr [mp], append_assoc]
        exact perm_append_comm_assoc _ _ _
      List.Perm _ (held k.map ++ spans t k.hdr (before ++ mp :: after)) :=
        (spans_perm perm_middle.symm).append_left _
  · constructor
    · exact fun i => (setNext_ts _ _ _ _).trans (unlink_ts _ _ _ _ _)
    · exact fun other => unlink_cbytes _ _ _ _ _

end Sol25.Msg
