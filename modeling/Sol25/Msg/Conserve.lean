import Sol25.Msg.Queue

/-!
# Conservation of messages

No call loses a header or a segment, and the counters of the queues are right, as long as no message
is longer than its header can tell.
-/

namespace Sol25.Msg

open Function List

open Rmap (Seg held RepInv)

def bytesOf (hdr : ℕ → Header) (l : List ℕ) : ℕ := (l.map fun i => (hdr i).ts.toNat).sum

/-- The headers are on the lists `free` and `queue`, and the counters of the queues are right. -/
structure Conserved (t : Msginfo) (k : Kernel) (free : List ℕ) (queue : ℕ → List ℕ) : Prop
    extends Linked t k free queue where
  cbytes : ∀ qp, (k.que qp).cbytes = bytesOf k.hdr (queue qp)

variable {t : Msginfo} {k : Kernel} {free : List ℕ} {queue : ℕ → List ℕ} {qp : ℕ}

theorem bytesOf_congr {hdr hdr' : ℕ → Header} {l : List ℕ}
    (same : ∀ i ∈ l, (hdr' i).ts = (hdr i).ts) : bytesOf hdr' l = bytesOf hdr l := by
  unfold bytesOf
  congr 1
  exact map_congr_left fun i mem => by rw [same i mem]

theorem bytesOf_append (hdr : ℕ → Header) (l₁ l₂ : List ℕ) :
    bytesOf hdr (l₁ ++ l₂) = bytesOf hdr l₁ + bytesOf hdr l₂ := by
  simp [bytesOf]

/-! ### Steps that leave the messages alone -/

/-- The pool has at most a quarter of an address space. -/
def Pooled (t : Msginfo) : Prop := t.msgseg.toNat * t.msgssz.toNat ≤ 2 ^ 30

theorem Linked.put (linked : Linked t k free queue) {q : MsqidDs}
    (chained : Chained k.hdr q (queue qp)) : Linked t (k.put qp q) free queue := by
  refine { linked with chained := fun other => ?_ }
  by_cases this : other = qp
  · subst this
    simp only [Kernel.put, update_self]
    exact chained
  · simp only [Kernel.put, update_of_ne this]
    exact linked.chained other

theorem Conserved.put (conserved : Conserved t k free queue) {q : MsqidDs}
    (chained : Chained k.hdr q (queue qp)) (cbytes : q.cbytes = (k.que qp).cbytes) :
    Conserved t (k.put qp q) free queue := by
  refine ⟨conserved.toLinked.put chained, fun other => ?_⟩
  by_cases this : other = qp
  · subst this
    simp only [Kernel.put, update_self]
    exact cbytes.trans (conserved.cbytes other)
  · simp only [Kernel.put, update_of_ne this]
    exact conserved.cbytes other

theorem Conserved.setMode (conserved : Conserved t k free queue) {mode : BitVec 32}
    (allocated : ((k.que qp).setMode mode).perm.allocated = (k.que qp).perm.allocated) :
    Conserved t (k.put qp ((k.que qp).setMode mode)) free queue :=
  conserved.put ((conserved.chained qp).of_fields rfl rfl rfl allocated) rfl

theorem Conserved.map (conserved : Conserved t k free queue) {map : Rmap.Map} (inv : RepInv map)
    (cap : map.cap = k.map.cap) (same : (held map).Perm (held k.map)) :
    Conserved t { k with map := map } free queue :=
  { conserved with
    inv := inv
    cap := cap.trans conserved.cap
    cover := (same.append_right _).trans conserved.cover }

theorem allocated_or {q : MsqidDs} {bits : BitVec 32} (apart : bits &&& Ipc.ipcAlloc = 0#32) :
    (q.setMode (q.perm.mode ||| bits)).perm.allocated = q.perm.allocated := by
  simp only [MsqidDs.setMode, Ipc.IpcPerm.allocated]
  rw [BitVec.and_or_distrib_right, apart, BitVec.or_zero]

theorem allocated_set (mode bits : BitVec 32) :
    (mode &&& ~~~0o777 ||| bits &&& 0o777) &&& Ipc.ipcAlloc = mode &&& Ipc.ipcAlloc := by
  have outside : (~~~0o777 : BitVec 32) &&& Ipc.ipcAlloc = Ipc.ipcAlloc := rfl
  have inside : (0o777 : BitVec 32) &&& Ipc.ipcAlloc = 0#32 := rfl
  rw [BitVec.and_or_distrib_right, BitVec.and_assoc, BitVec.and_assoc, outside, inside,
    BitVec.and_zero, BitVec.or_zero]

/-! ### Sending -/

/-- The messages of a queue do not have more bytes than their segments. -/
theorem bytesOf_le (tuned : Tuned t) {hdr : ℕ → Header} {l : List ℕ}
    (small : ∀ i ∈ l, (hdr i).ts ≠ 0 → t.msgssz.toNat ≤ 2 ^ 30) :
    bytesOf hdr l ≤ (spans t hdr l).length * t.msgssz.toNat := by
  induction l with
  | nil => exact Nat.zero_le _
  | cons i l ih =>
    have rest := ih fun j mem => small j (mem_cons_of_mem _ mem)
    have one : (hdr i).ts.toNat ≤ (spans t hdr [i]).length * t.msgssz.toNat := by
      by_cases some_text : (hdr i).ts = 0
      · rw [some_text]
        exact Nat.zero_le _
      · have positive := tuned.msgssz
        have ssz_small := small i mem_cons_self some_text
        rw [BitVec.toInt_eq_toNat_of_lt (by omega)] at positive
        have width : ((hdr i).ts.setWidth 32).toNat = (hdr i).ts.toNat := by
          rw [BitVec.toNat_setWidth]
          omega
        have length_eq : (spans t hdr [i]).length =
            ((hdr i).ts.toNat + t.msgssz.toNat - 1) / t.msgssz.toNat := by
          rw [← width, ← tuned.segs_eq ssz_small (by omega)]
          simp [spans, texts, Header.text_of_ne t some_text, Seg.span]
        have divided := Nat.div_add_mod ((hdr i).ts.toNat + t.msgssz.toNat - 1) t.msgssz.toNat
        have remainder := Nat.mod_lt ((hdr i).ts.toNat + t.msgssz.toNat - 1)
          (Nat.pos_of_ne_zero fun zero => by omega : 0 < t.msgssz.toNat)
        rw [length_eq, Nat.mul_comm]
        omega
    have split : spans t hdr (i :: l) = spans t hdr [i] ++ spans t hdr l := spans_append t hdr [i] l
    have sum : bytesOf hdr (i :: l) = (hdr i).ts.toNat + bytesOf hdr l := by
      simp [bytesOf]
    rw [sum, split, length_append, Nat.add_mul]
    omega

/-- The bytes on a queue fit into the pool. -/
theorem Conserved.cbytes_le (conserved : Conserved t k free queue) (tuned : Tuned t)
    (pooled : Pooled t) (small : qp < t.queues) : (k.que qp).cbytes ≤ 2 ^ 30 := by
  have perm := @queued_perm t queue qp small
  have ssz_small : ∀ i ∈ queue qp, (k.hdr i).ts ≠ 0 → t.msgssz.toNat ≤ 2 ^ 30 := by
    intro i mem some_text
    obtain ⟨live, bound⟩ :=
      conserved.toLinked.spot_lt (perm.mem_iff.2 (mem_append_left _ mem)) some_text
    have : 1 * t.msgssz.toNat ≤ t.msgseg.toNat * t.msgssz.toNat := Nat.mul_le_mul_right _ (by omega)
    rw [Pooled] at pooled
    omega
  have few : (spans t k.hdr (queue qp)).length ≤ t.msgseg.toNat := by
    have covered := conserved.cover.length_eq
    have split := (@spans_perm k.hdr t _ _ perm).length_eq
    rw [spans_append, length_append] at split
    rw [length_append, length_range'] at covered
    omega
  rw [conserved.cbytes]
  exact (bytesOf_le tuned ssz_small).trans ((Nat.mul_le_mul_right _ few).trans pooled)

def sentHeader (cnt type : BitVec 32) (spot : ℕ) : Header :=
  ⟨none, type, cnt.setWidth 16, if cnt ≠ 0 then BitVec.ofNat 16 (spot - 1) else -1⟩

theorem nexts_update (hdr : ℕ → Header) (i : ℕ) (h : Header) :
    nexts (update hdr i h) = update (nexts hdr) i h.next := by
  funext j
  by_cases same : j = i
  · subst same
    simp [nexts]
  · simp [nexts, same]

theorem allocated_readers (q : MsqidDs) :
    (q.setMode (q.perm.mode &&& ~~~msgRwait)).perm.allocated = q.perm.allocated := by
  have kept : q.perm.mode &&& ~~~msgRwait &&& Ipc.ipcAlloc = q.perm.mode &&& Ipc.ipcAlloc := by
    rw [BitVec.and_assoc]
    rfl
  simp only [MsqidDs.setMode, Ipc.IpcPerm.allocated, kept]

theorem enqueue_hdr (k : Kernel) (caller : Caller) (qp mp : ℕ) (cnt type : BitVec 32) (spot : ℕ) :
    (enqueue k caller qp mp cnt type spot).hdr =
      match (k.que qp).last with
      | none => update k.hdr mp (sentHeader cnt type spot)
      | some last => setNext (update k.hdr mp (sentHeader cnt type spot)) last (some mp) := by
  unfold enqueue sentHeader
  cases (k.que qp).last <;> rfl

theorem Chained.enqueue {k : Kernel} {caller : Caller} {qp mp : ℕ} {cnt type : BitVec 32} {spot : ℕ}
    {l : List ℕ} (chained : Chained k.hdr (k.que qp) l) (distinct : l.Nodup) (outside : mp ∉ l)
    (few : l.length + 1 < 2 ^ 32) (in_use : (k.que qp).perm.allocated = true) :
    Chained (enqueue k caller qp mp cnt type spot).hdr
      ((enqueue k caller qp mp cnt type spot).que qp) (l ++ [mp]) := by
  have counted : Rmap.ulong ((k.que qp).qnum + 1) = (l ++ [mp]).length := by
    rw [chained.qnum, Rmap.ulong, Nat.mod_eq_of_lt few, length_append, length_singleton]
  rw [enqueue_hdr]
  rcases eq_nil_or_concat l with rfl | ⟨front, z, rfl⟩
  · have last_eq : (k.que qp).last = none := chained.last
    refine ⟨?_, ?_, ?_, ?_⟩
    · simp only [Msg.enqueue, last_eq, Kernel.put, update_self, if_true, MsqidDs.setMode]
      rw [nexts_update]
      exact ⟨rfl, by simp [sentHeader, Links]⟩
    · simp [Msg.enqueue, last_eq, Kernel.put, MsqidDs.setMode]
    · simp only [Msg.enqueue, last_eq, Kernel.put, update_self, MsqidDs.setMode]
      exact counted
    · simp only [Msg.enqueue, last_eq, Kernel.put, update_self, allocated_readers, in_use]
      exact fun impossible => absurd impossible (by decide)
  · rw [concat_eq_append] at *
    have last_eq : (k.que qp).last = some z := by
      rw [chained.last, getLast?_concat]
    have z_notMem : z ∉ front := by
      have := nodup_append.1 distinct
      exact fun mem => this.2.2 z mem z (by simp) rfl
    have differ : mp ≠ z := by
      rintro rfl
      exact outside (by simp)
    refine ⟨?_, ?_, ?_, ?_⟩
    · simp only [Msg.enqueue, last_eq, Kernel.put, update_self, reduceCtorEq, if_false,
        MsqidDs.setMode]
      rw [nexts_setNext, nexts_update]
      refine ((chained.links.update outside).redirect z_notMem).append ⟨rfl, ?_⟩
      rw [update_of_ne differ, update_self]
      rfl
    · simp [Msg.enqueue, last_eq, Kernel.put, MsqidDs.setMode]
    · simp only [Msg.enqueue, last_eq, Kernel.put, update_self, MsqidDs.setMode]
      exact counted
    · simp only [Msg.enqueue, last_eq, Kernel.put, update_self, allocated_readers, in_use]
      exact fun impossible => absurd impossible (by decide)

theorem enqueue_ts {k : Kernel} {caller : Caller} {qp mp i : ℕ} {cnt type : BitVec 32} {spot : ℕ}
    (other : i ≠ mp) :
    ((enqueue k caller qp mp cnt type spot).hdr i).ts = (k.hdr i).ts ∧
      ((enqueue k caller qp mp cnt type spot).hdr i).spot = (k.hdr i).spot := by
  rw [enqueue_hdr]
  cases (k.que qp).last with
  | none => simp [other]
  | some last => simp [other]

theorem enqueue_text {k : Kernel} {caller : Caller} {qp mp : ℕ} {cnt type : BitVec 32} {spot : ℕ} :
    ((enqueue k caller qp mp cnt type spot).hdr mp).ts = cnt.setWidth 16 ∧
      ((enqueue k caller qp mp cnt type spot).hdr mp).spot = (sentHeader cnt type spot).spot := by
  rw [enqueue_hdr]
  cases (k.que qp).last with
  | none => simp [sentHeader]
  | some last => simp [sentHeader]

theorem enqueue_que {k : Kernel} {caller : Caller} {qp mp other : ℕ} {cnt type : BitVec 32}
    {spot : ℕ} (this : other ≠ qp) :
    (enqueue k caller qp mp cnt type spot).que other = k.que other := by
  unfold enqueue
  cases (k.que qp).last <;> simp [Kernel.put, this]

theorem enqueue_cbytes {k : Kernel} {caller : Caller} {qp mp : ℕ} {cnt type : BitVec 32}
    {spot : ℕ} :
    ((enqueue k caller qp mp cnt type spot).que qp).cbytes =
      Rmap.ulong ((k.que qp).cbytes + cnt.toNat) := by
  unfold enqueue
  cases (k.que qp).last <;> simp [Kernel.put, MsqidDs.setMode]

theorem enqueue_msgfp {k : Kernel} {caller : Caller} {qp mp : ℕ} {cnt type : BitVec 32} {spot : ℕ} :
    (enqueue k caller qp mp cnt type spot).msgfp = k.msgfp := by
  unfold enqueue
  cases (k.que qp).last <;> rfl

theorem enqueue_map {k : Kernel} {caller : Caller} {qp mp : ℕ} {cnt type : BitVec 32} {spot : ℕ} :
    (enqueue k caller qp mp cnt type spot).map = k.map := by
  unfold enqueue
  cases (k.que qp).last <;> rfl

theorem enqueue_same {k : Kernel} {caller : Caller} {qp mp i : ℕ} {cnt type : BitVec 32} {spot : ℕ}
    (other : i ≠ mp) (not_last : (k.que qp).last ≠ some i) :
    (enqueue k caller qp mp cnt type spot).hdr i = k.hdr i := by
  rw [enqueue_hdr]
  cases last_eq : (k.que qp).last with
  | none => exact update_of_ne other _ _
  | some last =>
    have differ : i ≠ last := fun same => not_last (by rw [last_eq, same])
    exact (setNext_of_ne differ).trans (update_of_ne other _ _)

section

variable {l : List ℕ} {mp : ℕ} {caller : Caller} {cnt type : BitVec 32} {spot : ℕ}

theorem enqueue_texts (absent : mp ∉ l) :
    texts t (Msg.enqueue k caller qp mp cnt type spot).hdr (l ++ [mp]) =
      texts t k.hdr l ++ (sentHeader cnt type spot).text t := by
  have text_eq : ((Msg.enqueue k caller qp mp cnt type spot).hdr mp).text t =
      (sentHeader cnt type spot).text t := by
    have := @enqueue_text k caller qp mp cnt type spot
    rw [Header.text, Header.text, this.1, this.2]
    rfl
  have old : ∀ i ∈ l, i ≠ mp := by
    rintro i mem rfl
    exact absent mem
  rw [texts_append, ← text_eq]
  congr 1
  · exact texts_congr (fun i mem => (enqueue_ts (old i mem)).1)
      fun i mem => (enqueue_ts (old i mem)).2
  · simp [texts]

theorem enqueue_bytesOf (absent : mp ∉ l) :
    bytesOf (Msg.enqueue k caller qp mp cnt type spot).hdr l = bytesOf k.hdr l := by
  refine bytesOf_congr fun i mem => ?_
  rw [(enqueue_ts _).1]
  rintro rfl
  exact absent mem

end

/-- A message that has a header and segments is put on its queue. -/
theorem Conserved.enqueue {mp : ℕ} (conserved : Conserved t k (mp :: free) queue) (tuned : Tuned t)
    (pooled : Pooled t) (small : qp < t.queues) {caller : Caller} {cnt type : BitVec 32} {spot : ℕ}
    {map : Rmap.Map} (short : cnt.toNat < 2 ^ 16) (in_use : (k.que qp).perm.allocated = true)
    (inv : RepInv map) (cap : map.cap = k.map.cap)
    (live : ∀ seg ∈ (sentHeader cnt type spot).text t, seg.size ≠ 0)
    (taken : (held k.map).Perm (((sentHeader cnt type spot).text t).flatMap Seg.span ++ held map)) :
    Conserved t
      (Msg.enqueue { k with msgfp := (k.hdr mp).next, map := map } caller qp mp cnt type spot) free
      (update queue qp (queue qp ++ [mp])) := by
  generalize k₀_eq : ({ k with msgfp := (k.hdr mp).next, map := map } : Kernel) = k₀
  have hdr_eq : k₀.hdr = k.hdr := by rw [← k₀_eq]
  have que_eq : k₀.que = k.que := by rw [← k₀_eq]
  have msgfp_eq : k₀.msgfp = (k.hdr mp).next := by rw [← k₀_eq]
  have map_eq : k₀.map = map := by rw [← k₀_eq]
  have distinct := conserved.nodup_split small
  rw [cons_append, nodup_cons, nodup_append] at distinct
  obtain ⟨mp_notMem, -, distinct', -⟩ := distinct
  have queue_distinct : (queue qp).Nodup := (nodup_append.1 distinct').1
  have mp_free : mp ∉ free := fun mem => mp_notMem (mem_append_left _ mem)
  have mp_queue : mp ∉ queue qp := conserved.free_apart mem_cons_self qp
  have chained := conserved.chained qp
  have last_mem {i : ℕ} (is_last : (k.que qp).last = some i) : i ∈ queue qp := by
    rw [chained.last] at is_last
    exact mem_of_getLast? is_last
  have few : (queue qp).length + 1 < 2 ^ 32 := by
    have := conserved.length_queued_le
    have := t.headers_lt
    have := (@queued_perm t queue qp small).length_eq
    rw [length_append] at this
    omega
  have sent_ts : ((Msg.enqueue k₀ caller qp mp cnt type spot).hdr mp).ts.toNat = cnt.toNat := by
    rw [enqueue_text.1, BitVec.toNat_setWidth, Nat.mod_eq_of_lt short]
  refine ⟨conserved.toLinked.change small ?_ ?_ ?_ ?_ ?_ ?_ ?_ ?_ ?_, ?_⟩
  · intro other this
    rw [enqueue_que this, que_eq]
  · intro i not_free not_queued
    rw [mem_cons, not_or] at not_free
    rw [enqueue_same not_free.1 fun is_last => not_queued (last_mem (by rwa [que_eq] at is_last)),
      hdr_eq]
  · rw [enqueue_msgfp, msgfp_eq]
    obtain ⟨-, rest⟩ := conserved.free_links
    refine rest.congr fun i mem => ?_
    have other : i ≠ mp := by
      rintro rfl
      exact mp_free mem
    rw [nexts, nexts, enqueue_same other, hdr_eq]
    intro is_last
    rw [que_eq] at is_last
    exact conserved.free_apart (mem_cons_of_mem _ mem) qp (last_mem is_last)
  · rw [← hdr_eq, ← que_eq] at chained
    exact chained.enqueue queue_distinct mp_queue few (by rw [que_eq]; exact in_use)
  · rw [← append_assoc]
    exact perm_append_singleton mp (free ++ queue qp)
  · rw [enqueue_map, map_eq]
    exact inv
  · rw [enqueue_map, map_eq]
    exact cap
  · intro seg mem
    rw [enqueue_texts mp_queue, hdr_eq, mem_append] at mem
    rcases mem with mem | mem
    · refine conserved.live seg ((texts_perm (queued_perm small)).mem_iff.2 ?_)
      rw [texts_append]
      exact mem_append_left _ mem
    · exact live seg mem
  · rw [enqueue_map, map_eq, spans, enqueue_texts mp_queue, hdr_eq, flatMap_append]
    calc
      List.Perm (held map ++ ((texts t k.hdr (queue qp)).flatMap Seg.span ++
          ((sentHeader cnt type spot).text t).flatMap Seg.span))
          (((sentHeader cnt type spot).text t).flatMap Seg.span ++ held map ++
            spans t k.hdr (queue qp)) := by
        rw [← append_assoc, spans]
        refine perm_append_comm.trans ?_
        rw [append_assoc]
      List.Perm _ (held k.map ++ spans t k.hdr (queue qp)) := taken.symm.append_right _
  · intro other
    by_cases this : other = qp
    · subst this
      have bound := conserved.cbytes_le tuned pooled small
      rw [enqueue_cbytes, update_self, que_eq, bytesOf_append]
      rw [enqueue_bytesOf mp_queue, hdr_eq, ← conserved.cbytes, Rmap.ulong,
        Nat.mod_eq_of_lt (by omega)]
      simp [bytesOf, sent_ts]
    · rw [enqueue_que this, update_of_ne this, que_eq, conserved.cbytes,
        enqueue_bytesOf (conserved.free_apart mem_cons_self other), hdr_eq]

theorem pushHeader_pop {mp : ℕ} (head : k.msgfp = some mp) (map : Rmap.Map) :
    ({ k with msgfp := (k.hdr mp).next, map := map } : Kernel).pushHeader mp =
      { k with map := map } := by
  simp [Kernel.pushHeader, setNext, head]

theorem sentHeader_text {cnt type : BitVec 32} {spot : ℕ} (short : cnt.toNat < 2 ^ 16)
    (positive : 1 ≤ spot) (small : spot ≤ 2 ^ 16) :
    (sentHeader cnt type spot).text t = if cnt = 0 then [] else [⟨segs t cnt, spot⟩] := by
  have ts_eq : (sentHeader cnt type spot).ts = cnt.setWidth 16 := rfl
  have width : (cnt.setWidth 16).setWidth 32 = cnt := by
    apply BitVec.eq_of_toNat_eq
    rw [BitVec.toNat_setWidth, BitVec.toNat_setWidth]
    omega
  by_cases empty : cnt = 0
  · rw [if_pos empty, Header.text_of_eq]
    rw [ts_eq, empty]
    rfl
  · have some_text : (sentHeader cnt type spot).ts ≠ 0 := by
      intro zero
      rw [ts_eq] at zero
      rw [zero] at width
      exact empty width.symm
    have spot_eq : (sentHeader cnt type spot).spot.toNat + 1 = spot := by
      simp only [sentHeader, ne_eq, empty, not_false_eq_true, if_true, BitVec.toNat_ofNat]
      omega
    rw [if_neg empty, Header.text_of_ne t some_text, spot_eq, ts_eq, width]

theorem Linked.seg_bounds (linked : Linked t k free queue) {seg : Seg}
    (mem : seg ∈ Rmap.segments k.map) :
    1 ≤ seg.addr ∧ seg.addr ≤ t.msgseg.toNat := by
  have live := linked.inv.shape.live seg mem
  have inside : seg.addr ∈ List.range' 1 t.msgseg.toNat := by
    rw [← linked.cover.mem_iff]
    refine mem_append_left _ (Rmap.mem_held.2 ⟨seg, mem, Nat.le_refl _, ?_⟩)
    omega
  have := mem_range'_1.1 inside
  omega

theorem Tuned.segs_ne_zero (tuned : Tuned t) (pooled : Pooled t) (linked : Linked t k free queue)
    {seg : Seg} (mem : seg ∈ Rmap.segments k.map) {cnt : BitVec 32} (some_text : cnt ≠ 0)
    (short : cnt.toNat < 2 ^ 16) : segs t cnt ≠ 0 := by
  have positive := tuned.msgssz
  have bounds := linked.seg_bounds mem
  have ssz_small : t.msgssz.toNat ≤ 2 ^ 30 := by
    have : 1 * t.msgssz.toNat ≤ t.msgseg.toNat * t.msgssz.toNat := Nat.mul_le_mul_right _ (by omega)
    rw [Pooled] at pooled
    omega
  rw [BitVec.toInt_eq_toNat_of_lt (by omega)] at positive
  have cnt_pos : 0 < cnt.toNat := by
    refine Nat.pos_of_ne_zero fun zero => some_text ?_
    exact BitVec.eq_of_toNat_eq zero
  rw [tuned.segs_eq ssz_small short]
  exact Nat.div_ne_zero_iff.2 ⟨by omega, by omega⟩

/-- The segments that were just taken for a message can be freed again. -/
theorem Linked.rmfree_taken {mp : ℕ} (linked : Linked t k (mp :: free) queue) (tuned : Tuned t)
    (few : t.msgseg.toNat < 32768) {map : Rmap.Map} {size addr : ℕ} (inv : RepInv map)
    (cap : map.cap = k.map.cap) (live : size ≠ 0)
    (taken : (held k.map).Perm (List.range' addr size ++ held map)) :
    ∃ map', Msg.rmfree map size addr = .ok map' ∧ Rmap.Freed map size addr map' := by
  have short : (⟨size, addr⟩ :: texts t k.hdr (queued t queue) : List Seg).length ≤ t.headers := by
    have := length_texts_le (t := t) k.hdr (queued t queue)
    have := linked.headers.length_eq
    simp only [cons_append, length_cons, length_append, length_range] at this ⊢
    omega
  refine tuned.rmfree few inv (cap.trans linked.cap) live linked.live short ?_
  rw [flatMap_cons]
  calc
    List.Perm (held map ++ (List.range' addr size ++ spans t k.hdr (queued t queue)))
        (List.range' addr size ++ held map ++ spans t k.hdr (queued t queue)) := by
      rw [append_assoc]
      exact perm_append_comm_assoc _ _ _
    List.Perm _ (held k.map ++ spans t k.hdr (queued t queue)) := taken.symm.append_right _
    List.Perm _ (List.range' 1 t.msgseg.toNat) := linked.cover

/-- A pass of `msgsnd` that has the queue. -/
theorem Conserved.getres (conserved : Conserved t k free queue) (tuned : Tuned t)
    (pooled : Pooled t) (few : t.msgseg.toNat < 32768) (small : qp < t.queues)
    (in_use : (k.que qp).perm.allocated = true) {caller : Caller} {cnt type msgflg : BitVec 32}
    {textIn : Bool} (short : cnt.toNat < 2 ^ 16) :
    ∃ result k' free' queue', Msg.getres t k caller qp cnt type msgflg textIn = .ok (result, k') ∧
      Conserved t k' free' queue' := by
  unfold Msg.getres
  simp only [bind, Except.bind, pure, Except.pure]
  by_cases full : (k.que qp).qbytes < Rmap.ulong (cnt.toNat + (k.que qp).cbytes)
  · rw [if_pos full]
    split_ifs with nowait
    · exact ⟨_, _, _, _, rfl, conserved⟩
    · exact ⟨_, _, _, _, rfl, conserved.setMode (allocated_or rfl)⟩
  rw [if_neg full]
  cases head : k.msgfp with
  | none => exact ⟨_, _, _, _, rfl, conserved⟩
  | some mp =>
    obtain ⟨rest, rfl⟩ : ∃ rest, free = mp :: rest := by
      have := conserved.free_links.start_eq
      rw [head] at this
      cases free with
      | nil => exact absurd this (by simp)
      | cons i rest => exact ⟨rest, by simpa using this.symm⟩
    simp only
    by_cases empty : cnt = 0
    · rw [if_pos empty]
      have text_eq : (sentHeader cnt type 0).text t = [] := by
        rw [Header.text_of_eq]
        rw [empty]
        rfl
      exact ⟨_, _, _, _, rfl, conserved.enqueue tuned pooled small short in_use conserved.inv rfl
        (by rw [text_eq]; simp) (by rw [text_eq]; simp)⟩
    rw [if_neg empty, tuned.btoq]
    simp only [Msg.rmallocLocked]
    rcases Rmap.rmallocLocked_spec conserved.inv (segs t cnt) with
      ⟨refused, -⟩ | ⟨seg, seg_mem, map, granted, fits, inv, cap, taken, -⟩
    · rw [refused]
      simp only [if_true]
      split_ifs with nowait
      · rw [pushHeader_pop head]
        exact ⟨_, _, _, _, rfl, conserved⟩
      · rw [pushHeader_pop head]
        refine ⟨_, _, _, _, rfl, conserved.map ?_ rfl (List.Perm.refl _)⟩
        have inv := conserved.inv
        exact ⟨inv.apart, inv.bounded, inv.count, inv.length, inv.cleared, inv.cap_pos, inv.cap_lt⟩
    · have live := tuned.segs_ne_zero pooled conserved.toLinked seg_mem empty short
      have bounds := conserved.toLinked.seg_bounds seg_mem
      rw [granted]
      simp only [show seg.addr ≠ 0 by omega, if_false]
      cases textIn with
      | true =>
        have text_eq : (sentHeader cnt type seg.addr).text t = [⟨segs t cnt, seg.addr⟩] := by
          rw [sentHeader_text short bounds.1 (by omega), if_neg empty]
        refine ⟨_, _, _, _, rfl, conserved.enqueue tuned pooled small short in_use inv cap ?_ ?_⟩
        · rw [text_eq]
          simpa using live
        · rw [text_eq]
          simpa [Seg.span] using taken
      | false =>
        obtain ⟨map', frees, freed⟩ := conserved.toLinked.rmfree_taken tuned few inv cap live taken
        simp only [Bool.not_false, if_true, frees, pushHeader_pop head]
        refine ⟨_, _, _, _, rfl, conserved.map freed.inv (freed.cap.trans cap) ?_⟩
        exact freed.held.trans taken.symm

end Sol25.Msg
