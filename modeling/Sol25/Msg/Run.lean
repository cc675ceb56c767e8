import Sol25.Msg.Conserve

/-!
# Runs of message calls

Every pass of every call keeps the headers, the segments and the counters, and none of them faults.
-/

namespace Sol25.Msg

open Function List

open Rmap (Seg held RepInv)
open Ipc

variable {t : Msginfo} {k : Kernel} {free : List ℕ} {queue : ℕ → List ℕ} {qp : ℕ}

/-- The call returns, and the facility is in order afterwards. -/
def Keeps (t : Msginfo) {α : Type} (result : Except Fault (α × Kernel)) : Prop :=
  ∃ value k' free queue, result = .ok (value, k') ∧ Conserved t k' free queue

theorem Conserved.keeps {α : Type} (conserved : Conserved t k free queue) (value : α) :
    Keeps t (.ok (value, k)) :=
  ⟨value, k, free, queue, rfl, conserved⟩

/-! ### Identifiers -/

/-- An identifier that `msgconv` accepts belongs to a queue in use. -/
theorem msgconv_spec (tuned : Tuned t) (k : Kernel) (id : BitVec 32) :
    msgconv t k id = .ok none ∨
      ∃ qp, msgconv t k id = .ok (some qp) ∧ qp < t.queues ∧ (k.que qp).perm.allocated = true := by
  have positive := tuned.msgmni
  unfold msgconv
  by_cases negative : id.toInt < 0
  · rw [if_pos negative]
    exact .inl rfl
  have some_queue : t.msgmni ≠ 0 := by
    intro zero
    rw [zero] at positive
    exact absurd positive (by decide)
  rw [if_neg negative, if_neg some_queue]
  simp only
  split_ifs with accepted
  · refine .inr ⟨_, rfl, ?_, ?_⟩
    · have id_msb : id.msb = false := by
        rw [BitVec.msb_eq_toInt]
        simpa using negative
      have mni_msb : t.msgmni.msb = false := by
        rw [BitVec.msb_eq_toInt]
        simp only [decide_eq_false_iff_not]
        omega
      have mni_eq := BitVec.toInt_eq_toNat_of_msb mni_msb
      rw [BitVec.srem_eq, id_msb, mni_msb]
      simp only [BitVec.toNat_umod, Msginfo.queues]
      have := Nat.mod_lt id.toNat (y := t.msgmni.toNat) (by omega)
      omega
    · exact (Bool.and_eq_true_iff.1 accepted).1
  · exact .inl rfl

/-! ### Receiving -/

/-- A message of the list and its predecessor, if any was chosen. -/
def Chosen (l : List ℕ) (best : Option ℕ × Option ℕ) : Prop :=
  best.1 = none ∨ ∃ before smp after, l = before ++ smp :: after ∧
    best = (some smp, before.getLast?)

theorem search_spec {hdr : ℕ → Header} {msgtyp : BitVec 32} {l : List ℕ} {fuel : ℕ}
    {mp pmp : Option ℕ} {best : Option ℕ × Option ℕ} {before after : List ℕ}
    (links : Links (nexts hdr) mp after none) (split : l = before ++ after)
    (pred : pmp = before.getLast?) (chosen : Chosen l best) (enough : after.length < fuel) :
    ∃ best', search hdr msgtyp fuel mp pmp best = .ok best' ∧ Chosen l best' := by
  induction after generalizing fuel mp pmp best before with
  | nil =>
    obtain ⟨fuel, rfl⟩ := Nat.exists_eq_succ_of_ne_zero (Nat.ne_of_gt enough)
    obtain rfl : mp = none := links
    exact ⟨best, rfl, chosen⟩
  | cons i after ih =>
    obtain ⟨fuel, rfl⟩ := Nat.exists_eq_succ_of_ne_zero (Nat.ne_zero_of_lt enough)
    obtain ⟨rfl, rest⟩ := links
    have here : Chosen l (some i, pmp) := .inr ⟨before, i, after, split, by rw [pred]⟩
    have next {best : Option ℕ × Option ℕ} (chosen : Chosen l best) :=
      @ih fuel _ (some i) best (before ++ [i]) rest (by simpa using split) (by simp) chosen
        (by simp only [length_cons] at enough; omega)
    rw [search]
    split_ifs
    · exact next chosen
    · exact ⟨_, rfl, here⟩
    · exact next here
    · exact next chosen

/-- A message is received. -/
theorem Conserved.receive (conserved : Conserved t k free queue) (tuned : Tuned t)
    (pooled : Pooled t) (few : t.msgseg.toNat < 32768) (small : qp < t.queues)
    {before after : List ℕ} {smp : ℕ} (queue_eq : queue qp = before ++ smp :: after)
    {caller : Caller} {msgsz msgflg : BitVec 32} {typeOut textOut : Bool} :
    Keeps t (Msg.receive t k caller qp before.getLast? smp msgsz msgflg typeOut textOut) := by
  unfold Msg.receive
  simp only [bind, Except.bind, pure, Except.pure]
  by_cases big : msgsz.toNat < (k.hdr smp).ts.toNat ∧ msgflg &&& msgNoerror = 0
  · rw [if_pos big]
    exact conserved.keeps _
  rw [if_neg big]
  by_cases no_type : (!typeOut) = true
  · rw [if_pos no_type]
    exact conserved.keeps _
  rw [if_neg no_type]
  generalize (if msgsz.toNat < (k.hdr smp).ts.toNat then msgsz.toNat else (k.hdr smp).ts.toNat) = sz
  by_cases no_text : sz ≠ 0 ∧ (!textOut) = true
  · rw [if_pos no_text]
    exact conserved.keeps _
  rw [if_neg no_text]
  generalize q_eq : ({ k.que qp with
    cbytes := minus (k.que qp).cbytes (k.hdr smp).ts.toNat
    lrpid := caller.pid
    rtime := caller.now } : MsqidDs) = q
  have q_cbytes : q.cbytes = minus (k.que qp).cbytes (k.hdr smp).ts.toNat := by rw [← q_eq]
  have linked : Linked t (k.put qp q) free queue := by
    refine conserved.toLinked.put ((conserved.chained qp).of_fields ?_ ?_ ?_ ?_) <;> rw [← q_eq]
  obtain ⟨k', frees, linked', kept⟩ := linked.msgfree tuned few small queue_eq
  rw [frees]
  refine ⟨_, _, _, _, rfl, linked', ?_⟩
  have hdr_eq : (k.put qp q).hdr = k.hdr := rfl
  intro other
  rw [kept.cbytes, bytesOf_congr fun i _ => kept.ts i, hdr_eq]
  by_cases this : other = qp
  · subst this
    have bound := conserved.cbytes_le tuned pooled small
    have sum : bytesOf k.hdr (queue other) = bytesOf k.hdr (before ++ after) +
        (k.hdr smp).ts.toNat := by
      rw [queue_eq]
      simp only [bytesOf, map_append, map_cons, sum_append, sum_cons]
      omega
    have cbytes := conserved.cbytes other
    rw [update_self]
    simp only [Kernel.put, update_self]
    rw [q_cbytes, minus_of_le (by omega) (by omega), cbytes, sum, Nat.add_sub_cancel]
  · rw [update_of_ne this]
    simp only [Kernel.put, update_of_ne this]
    exact conserved.cbytes other

/-- The message that is chosen is on the queue, behind the predecessor that was noted. -/
theorem Conserved.findmsg (conserved : Conserved t k free queue) (small : qp < t.queues)
    (msgtyp : BitVec 32) :
    ∃ best, Msg.findmsg t k qp msgtyp = .ok best ∧ Chosen (queue qp) best := by
  have chained := conserved.chained qp
  rw [Msg.findmsg]
  by_cases any : msgtyp = 0
  · rw [if_pos any, chained.links.start_eq]
    refine ⟨_, rfl, ?_⟩
    cases queue qp with
    | nil => exact .inl rfl
    | cons i rest => exact .inr ⟨[], i, rest, rfl, rfl⟩
  · rw [if_neg any]
    refine @search_spec _ _ _ _ _ _ _ [] _ chained.links rfl rfl (.inl rfl) ?_
    have := conserved.length_queued_le
    have := (@queued_perm t queue qp small).length_eq
    rw [length_append] at this
    rw [Msginfo.headers] at *
    omega

theorem Conserved.msgrcv (conserved : Conserved t k free queue) (tuned : Tuned t)
    (pooled : Pooled t) (few : t.msgseg.toNat < 32768) (caller : Caller) (again : Bool)
    (id msgsz msgtyp msgflg : BitVec 32) (typeOut textOut : Bool) :
    Keeps t (Msg.msgrcv t k caller again id msgsz msgtyp msgflg typeOut textOut) := by
  unfold Msg.msgrcv
  simp only [bind, Except.bind, pure, Except.pure]
  rcases msgconv_spec tuned k id with refused | ⟨qp, found, small, in_use⟩
  · rw [refused]
    exact conserved.keeps _
  rw [found]
  simp only
  split
  · exact conserved.keeps _
  by_cases negative : msgsz.toInt < 0
  · rw [if_pos negative]
    exact conserved.keeps _
  rw [if_neg negative]
  obtain ⟨best, finds, chosen⟩ := conserved.findmsg small msgtyp
  rw [finds]
  rcases chosen with none_chosen | ⟨before, smp, after, queue_eq, rfl⟩
  · obtain ⟨smp, spmp⟩ := best
    obtain rfl : smp = none := none_chosen
    simp only
    split_ifs with nowait
    · exact conserved.keeps _
    · exact (conserved.setMode (allocated_or rfl)).keeps _
  · exact conserved.receive tuned pooled few small queue_eq

/-! ### Sending and control -/

/-- A message is not longer than its header can tell, or it is refused. -/
def Fits (t : Msginfo) : Event → Prop
  | .msgsnd _ _ _ msgsz _ _ _ => msgsz.toInt < 2 ^ 16 ∨ t.msgmax.toInt < msgsz.toInt
  | _ => True

theorem Conserved.msgsnd (conserved : Conserved t k free queue) (tuned : Tuned t)
    (pooled : Pooled t) (few : t.msgseg.toNat < 32768) (caller : Caller) (again : Bool)
    {id msgsz msgflg : BitVec 32} {type : Option (BitVec 32)} {textIn : Bool}
    (fits : msgsz.toInt < 2 ^ 16 ∨ t.msgmax.toInt < msgsz.toInt) :
    Keeps t (Msg.msgsnd t k caller again id msgsz msgflg type textIn) := by
  unfold Msg.msgsnd
  simp only [bind, Except.bind, pure, Except.pure]
  rcases msgconv_spec tuned k id with refused | ⟨qp, found, small, in_use⟩
  · rw [refused]
    exact conserved.keeps _
  rw [found]
  simp only
  split
  · exact conserved.keeps _
  by_cases bad_size : msgsz.toInt < 0 ∨ t.msgmax.toInt < msgsz.toInt
  · rw [if_pos bad_size]
    exact conserved.keeps _
  rw [if_neg bad_size]
  cases type with
  | none => exact conserved.keeps _
  | some type =>
    by_cases bad_type : type.toInt < 1
    · simp only [bad_type, if_true]
      exact conserved.keeps _
    · simp only [bad_type, if_false]
      refine conserved.getres tuned pooled few small in_use ?_
      rw [not_or] at bad_size
      have msb : msgsz.msb = false := by
        rw [BitVec.msb_eq_toInt]
        simpa using bad_size.1
      have := BitVec.toInt_eq_toNat_of_msb msb
      rcases fits with fits | fits <;> omega

theorem Conserved.ipcSet (conserved : Conserved t k free queue) (tuned : Tuned t) (caller : Caller)
    (id : BitVec 32) (args : Option SetArgs) : Keeps t (Msg.ipcSet t k caller id args) := by
  unfold Msg.ipcSet
  simp only [bind, Except.bind, pure, Except.pure]
  rcases msgconv_spec tuned k id with refused | ⟨qp, found, -⟩
  · rw [refused]
    exact conserved.keeps _
  rw [found]
  simp only
  split_ifs
  · exact conserved.keeps _
  cases args with
  | none => exact conserved.keeps _
  | some ds =>
    simp only
    split_ifs
    · exact conserved.keeps _
    · exact conserved.keeps _
    · refine Conserved.keeps (Conserved.put conserved ?_ ?_) _
      · refine (conserved.chained qp).of_fields rfl rfl rfl ?_
        simp only [IpcPerm.allocated, allocated_set]
      · rfl

theorem Conserved.interrupted (conserved : Conserved t k free queue) (tuned : Tuned t)
    (id : BitVec 32) : Keeps t (Msg.interrupted t k id) := by
  unfold Msg.interrupted
  simp only [bind, Except.bind, pure, Except.pure]
  rcases msgconv_spec tuned k id with refused | ⟨qp, found, -⟩
  · rw [refused]
    exact conserved.keeps _
  rw [found]
  exact (conserved.setMode (allocated_wakeWriters (k.que qp))).keeps _

theorem Linked.freeAll {fuel : ℕ} {k : Kernel} {free : List ℕ} {queue : ℕ → List ℕ} {l : List ℕ}
    (linked : Linked t k free queue) (tuned : Tuned t) (few : t.msgseg.toNat < 32768)
    (small : qp < t.queues) (queue_eq : queue qp = l) (enough : l.length < fuel) :
    ∃ k' free', Msg.freeAll t fuel k qp = .ok k' ∧
      Linked t k' free' (update queue qp []) ∧ Kept k k' := by
  induction l generalizing fuel k free queue with
  | nil =>
    obtain ⟨fuel, rfl⟩ := Nat.exists_eq_succ_of_ne_zero (Nat.ne_of_gt enough)
    have first_eq := (linked.chained qp).links.start_eq
    rw [queue_eq] at first_eq
    refine ⟨k, free, ?_, ?_, fun _ => rfl, fun _ => rfl⟩
    · rw [Msg.freeAll, first_eq]
      rfl
    · rwa [← queue_eq, update_eq_self]
  | cons mp rest ih =>
    obtain ⟨fuel, rfl⟩ := Nat.exists_eq_succ_of_ne_zero (Nat.ne_zero_of_lt enough)
    have first_eq := (linked.chained qp).links.start_eq
    rw [queue_eq] at first_eq
    obtain ⟨k₁, frees, linked₁, kept₁⟩ :=
      @Linked.msgfree mp t k free queue qp linked tuned few small [] rest queue_eq
    obtain ⟨k₂, free₂, frees₂, linked₂, kept₂⟩ := @ih fuel k₁ _ _ linked₁ (update_self ..)
      (by simp only [length_cons] at enough; omega)
    rw [update_idem] at linked₂
    refine ⟨k₂, free₂, ?_, linked₂, fun i => (kept₂.ts i).trans (kept₁.ts i),
      fun other => (kept₂.cbytes other).trans (kept₁.cbytes other)⟩
    rw [Msg.freeAll, first_eq]
    simp only [head?_cons, bind, Except.bind]
    rw [getLast?_nil] at frees
    rw [frees]
    exact frees₂

theorem Conserved.rmid (conserved : Conserved t k free queue) (tuned : Tuned t)
    (few : t.msgseg.toNat < 32768) (cr : Cred) (id : BitVec 32) : Keeps t (Msg.rmid t k cr id) := by
  unfold Msg.rmid
  simp only [bind, Except.bind, pure, Except.pure]
  rcases msgconv_spec tuned k id with refused | ⟨qp, found, small, -⟩
  · rw [refused]
    exact conserved.keeps _
  rw [found]
  simp only
  split_ifs
  · exact conserved.keeps _
  have enough : (queue qp).length < t.msgtql.toInt.toNat + 1 := by
    have := conserved.length_queued_le
    have := (@queued_perm t queue qp small).length_eq
    rw [length_append] at this
    rw [Msginfo.headers] at *
    omega
  obtain ⟨k', free', frees, linked, kept⟩ := conserved.toLinked.freeAll tuned few small rfl enough
  rw [frees]
  have chained := linked.chained qp
  rw [update_self] at chained
  refine ⟨_, _, _, _, rfl, linked.put ?_, fun other => ?_⟩
  · rw [update_self]
    exact ⟨chained.links, chained.last, chained.qnum, fun _ => rfl⟩
  · by_cases this : other = qp
    · subst this
      simp only [Kernel.put, update_self]
      rfl
    · simp only [Kernel.put, update_of_ne this]
      rw [kept.cbytes, conserved.cbytes]
      exact (bytesOf_congr fun i _ => kept.ts i).symm

theorem Conserved.msgget (conserved : Conserved t k free queue) (caller : Caller) (key : ℤ)
    (msgflg : BitVec 32) : Conserved t (Msg.msgget t k caller key msgflg).2 free queue := by
  unfold Msg.msgget
  simp only
  split
  · exact conserved
  · exact conserved
  · rename_i qp perm got
    obtain ⟨-, unused, rfl⟩ := ipcget_created got
    have empty := (conserved.chained qp).idle unused
    refine conserved.put ⟨?_, ?_, ?_, fun _ => empty⟩ rfl
    · rw [empty]
      rfl
    · rw [empty]
      rfl
    · rw [empty]
      rfl

/-! ### Loading -/

theorem freeHeaders_links (n : ℕ) {i m : ℕ} (sum : i + m = n) :
    Links (nexts (freeHeaders n)) (if m = 0 then none else some i) (List.range' i m) none := by
  induction m generalizing i with
  | zero => rfl
  | succ m ih =>
    rw [if_neg (by omega), range'_succ]
    refine ⟨rfl, ?_⟩
    have rest := @ih (i + 1) (by omega)
    have next_eq : nexts (freeHeaders n) i = if m = 0 then none else some (i + 1) := by
      rw [nexts, freeHeaders]
      by_cases final : m = 0
      · rw [if_pos final, if_neg (by omega)]
      · rw [if_neg final, if_pos (by omega)]
    rw [next_eq]
    exact rest

theorem signExtend_of_nonneg {x : BitVec 32} (nonneg : 0 ≤ x.toInt) :
    (x.signExtend 64).toNat = x.toNat ∧ x.toNat < 2 ^ 31 := by
  have msb : x.msb = false := by
    rw [BitVec.msb_eq_toInt]
    simpa using nonneg
  refine ⟨?_, ?_⟩
  · rw [BitVec.signExtend_eq_setWidth_of_msb_false msb, BitVec.toNat_setWidth]
    omega
  · rw [BitVec.msb_eq_false_iff_two_mul_lt] at msb
    omega

theorem intrnd_toNat {x : BitVec 64} (small : x.toNat < 2 ^ 63) :
    (intrnd x).toNat = (x.toNat + 3) / 4 * 4 := by
  rw [intrnd, BitVec.toNat_mul, BitVec.toNat_udiv, BitVec.toNat_add]
  have three : (3 : BitVec 64).toNat = 3 := rfl
  have four : (4 : BitVec 64).toNat = 4 := rfl
  rw [three, four]
  omega

/-- Tables that were granted leave no doubt about the size of the pool. -/
theorem pooled_of_granted (tuned : Tuned t) (few : t.msgseg.toNat < 32768)
    (msgmap : 0 ≤ t.msgmap.toInt) {maxavail : BitVec 32}
    (granted : t.memory.toNat ≤ maxavail.toNat / 4) : Pooled t := by
  obtain ⟨ssz_eq, ssz_lt⟩ := signExtend_of_nonneg (Int.le_of_lt tuned.msgssz)
  obtain ⟨map_eq, map_lt⟩ := signExtend_of_nonneg msgmap
  obtain ⟨mni_eq, mni_lt⟩ := signExtend_of_nonneg (Int.le_of_lt tuned.msgmni)
  obtain ⟨tql_eq, tql_lt⟩ := signExtend_of_nonneg tuned.msgtql
  have pool_lt : t.msgseg.toNat * t.msgssz.toNat < 2 ^ 15 * 2 ^ 31 :=
    Nat.mul_lt_mul'' (by omega) ssz_lt
  have pool_eq : (t.msgseg.setWidth 64 * t.msgssz.signExtend 64).toNat =
      t.msgseg.toNat * t.msgssz.toNat := by
    have seg_eq : t.msgseg.toNat % 2 ^ 64 = t.msgseg.toNat := Nat.mod_eq_of_lt (by omega)
    rw [BitVec.toNat_mul, ssz_eq, BitVec.toNat_setWidth, seg_eq]
    exact Nat.mod_eq_of_lt (by omega)
  have locks_eq : (t.msgmni.signExtend 64 * 4).toNat = t.msgmni.toNat * 4 := by
    rw [BitVec.toNat_mul, mni_eq]
    exact Nat.mod_eq_of_lt (by simp; omega)
  have pool := intrnd_toNat (x := t.msgseg.setWidth 64 * t.msgssz.signExtend 64) (by omega)
  have locks := intrnd_toNat (x := t.msgmni.signExtend 64 * 4) (by omega)
  rw [pool_eq] at pool
  rw [locks_eq] at locks
  have sum : t.memory.toNat = (t.msgseg.toNat * t.msgssz.toNat + 3) / 4 * 4 + t.msgmap.toNat * 8 +
      t.msgmni.toNat * 112 + (t.msgmni.toNat * 4 + 3) / 4 * 4 + t.msgtql.toNat * 12 := by
    rw [Msginfo.memory]
    simp only [BitVec.toNat_add, BitVec.toNat_mul (y := 8), BitVec.toNat_mul (y := 112),
      BitVec.toNat_mul (y := 12), pool, locks, map_eq, mni_eq, tql_eq]
    have eight : (8 : BitVec 64).toNat = 8 := rfl
    have hundred : (112 : BitVec 64).toNat = 112 := rfl
    have twelve : (12 : BitVec 64).toNat = 12 := rfl
    rw [eight, hundred, twelve]
    omega
  have := maxavail.isLt
  rw [Pooled]
  omega

/-- The facility as `_init` loads it. -/
theorem Conserved.init (tuned : Tuned t) (few : t.msgseg.toNat < 32768) {maxavail : BitVec 32}
    (loads : Msg.init t maxavail = .ok (some k)) :
    Pooled t ∧ Conserved t k (List.range t.headers) fun _ => [] := by
  unfold Msg.init at loads
  by_cases refused : maxavail.toNat / 4 < t.memory.toNat
  · rw [if_pos refused] at loads
    cases loads
  rw [if_neg refused] at loads
  simp only at loads
  have msgmap_large : (7 : ℤ) ≤ t.msgmap.toInt := by
    by_contra small
    have panics : Rmap.mapinit (List.replicate (t.msgmap.toNat - Rmap.mapOverhead + 1) ⟨0, 0⟩)
        t.msgseg.toNat 1 t.msgmap.toInt = .error (.panic "mapinit: map too small\n") := by
      rw [Rmap.mapinit, if_pos]
      have : ((Rmap.mapOverhead : ℕ) : ℤ) = 6 := rfl
      omega
    rw [panics] at loads
    cases loads
  have msgmap_eq : t.msgmap.toInt = t.msgmap.toNat := by
    refine BitVec.toInt_eq_toNat_of_msb ?_
    rw [BitVec.msb_eq_toInt]
    simp only [decide_eq_false_iff_not]
    omega
  have msgmap_lt := (signExtend_of_nonneg (x := t.msgmap) (by omega)).2
  have pooled := @pooled_of_granted t tuned few (by omega) maxavail (by omega)
  rw [msgmap_eq] at loads
  rcases @Rmap.mapinit_spec (List.replicate (t.msgmap.toNat - Rmap.mapOverhead + 1) ⟨0, 0⟩)
    t.msgseg.toNat 1 t.msgmap.toNat (by omega) (by simp [Rmap.Zeroed]) (by simp) (by omega) with
    ⟨message, panics⟩ | ⟨map, made, inv, cap, held_eq⟩
  · rw [panics] at loads
    cases loads
  rw [made] at loads
  simp only [Except.ok.injEq, Option.some.injEq] at loads
  subst loads
  have none_queued : queued t (fun _ => []) = [] := flatMap_eq_nil_iff.2 fun _ _ => rfl
  refine ⟨pooled, ⟨?_, ?_, ?_, ?_, inv, cap, ?_, ?_⟩, fun _ => rfl⟩
  · have links := @freeHeaders_links t.headers 0 t.headers (by omega)
    have headers_zero : t.headers = 0 ↔ t.msgtql = 0 := by
      have nonneg := tuned.msgtql
      rw [Msginfo.headers, ← BitVec.toInt_inj]
      simp only [BitVec.ofNat_eq_ofNat, BitVec.toInt_zero]
      omega
    rw [range_eq_range']
    simp only [headers_zero] at links
    exact links
  · exact fun qp => ⟨rfl, rfl, rfl, fun _ => rfl⟩
  · exact fun _ _ => rfl
  · rw [none_queued, append_nil]
  · rw [none_queued]
    exact fun seg mem => absurd mem not_mem_nil
  · rw [none_queued, held_eq]
    exact Perm.of_eq (append_nil _)

/-! ### Runs -/

theorem Conserved.step (conserved : Conserved t k free queue) (tuned : Tuned t) (pooled : Pooled t)
    (few : t.msgseg.toNat < 32768) {event : Event} (fits : Fits t event) :
    ∃ k' free' queue', k.step t event = .ok k' ∧ Conserved t k' free' queue' := by
  have keeps {α : Type} {result : Except Fault (α × Kernel)} (keeps : Keeps t result) :
      ∃ k' free' queue', result.map Prod.snd = .ok k' ∧ Conserved t k' free' queue' := by
    obtain ⟨value, k', free', queue', rfl, conserved'⟩ := keeps
    exact ⟨k', free', queue', rfl, conserved'⟩
  cases event with
  | msgget caller key msgflg => exact ⟨_, _, _, rfl, conserved.msgget caller key msgflg⟩
  | msgsnd caller again id msgsz msgflg type textIn =>
    exact keeps (conserved.msgsnd tuned pooled few caller again fits)
  | msgrcv caller again id msgsz msgtyp msgflg typeOut textOut =>
    exact keeps (conserved.msgrcv tuned pooled few caller again id msgsz msgtyp msgflg
      typeOut textOut)
  | ipcSet caller id args => exact keeps (conserved.ipcSet tuned caller id args)
  | rmid cr id => exact keeps (conserved.rmid tuned few cr id)
  | interrupted id => exact keeps (conserved.interrupted tuned id)

theorem Reached.conserved (tuned : Tuned t) (few : t.msgseg.toNat < 32768)
    (reached : Reached t (Fits t) k) : Pooled t ∧ ∃ free queue, Conserved t k free queue := by
  induction reached with
  | init maxavail loads =>
    obtain ⟨pooled, conserved⟩ := Conserved.init tuned few loads
    exact ⟨pooled, _, _, conserved⟩
  | step event _ fits steps ih =>
    obtain ⟨pooled, free, queue, conserved⟩ := ih
    obtain ⟨k', free', queue', steps', conserved'⟩ := conserved.step tuned pooled few fits
    rw [steps] at steps'
    cases steps'
    exact ⟨pooled, free', queue', conserved'⟩

/-- In every run in which no message is longer than its header can tell, every header is on the free
list or on one queue, the counters of the queues are right, the texts of the messages and the map
share out the segments, and no call faults. -/
theorem messages_conserved {t : Msginfo} (few : t.msgseg.toNat < 32768) (tuned : Tuned t)
    {k : Kernel} (reached : Reached t (Fits t) k) :
    (∃ free queue, Conserved t k free queue) ∧
      ∀ event, Fits t event → ∃ k', k.step t event = .ok k' := by
  obtain ⟨pooled, free, queue, conserved⟩ := reached.conserved tuned few
  refine ⟨⟨free, queue, conserved⟩, fun event fits => ?_⟩
  obtain ⟨k', -, -, steps, -⟩ := conserved.step tuned pooled few fits
  exact ⟨k', steps⟩

/-- Tables in which every message may have up to 70000 bytes. -/
def longMessages : Msginfo := ⟨100, 70000, 70000, 1, 1024, 2, 128⟩

/-- The system. -/
def root : Caller := ⟨⟨0, 0, []⟩, 1, 0⟩

theorem messages_conserved_run :
    ∃ k, Reached longMessages (Fits longMessages) k ∧ (k.que 0).qnum = 1 ∧ (k.que 0).cbytes = 3000 ∧
      ((∃ free queue, Conserved longMessages k free queue) ∧
        ∀ event, Fits longMessages event → ∃ k', k.step longMessages event = .ok k') := by
  have reached : ∃ k, Reached longMessages (Fits longMessages) k ∧ (k.que 0).qnum = 1 ∧
      (k.que 0).cbytes = 3000 :=
    ⟨_, .step (.msgsnd root false 0 3000 0 (some 1) true)
      (.step (.msgget root 0 0) (.init 0xffffffff rfl) trivial rfl) (.inl (by decide)) rfl, rfl,
        rfl⟩
  obtain ⟨k, reached, qnum, cbytes⟩ := reached
  refine ⟨k, reached, qnum, cbytes, messages_conserved (by decide) ⟨?_, ?_, ?_, ?_⟩ reached⟩ <;>
    decide

/-- A message of 65536 bytes has no bytes according to its header: its segments are lost and the
bytes of its queue do not add up. -/
theorem messages_not_conserved :
    ¬ ∀ t k, t.msgseg.toNat < 32768 → Reached t (fun _ => True) k →
      ∃ free queue, Conserved t k free queue := by
  intro holds
  have reached : ∃ k, Reached longMessages (fun _ => True) k ∧ (k.que 0).first = some 0 ∧
      k.hdr 0 = ⟨none, 1, 0, 0⟩ ∧ (k.que 0).cbytes = 65536 :=
    ⟨_, .step (.msgsnd root false 0 65536 0 (some 1) true)
      (.step (.msgget root 0 0) (.init 0xffffffff rfl) trivial rfl) trivial rfl, rfl, rfl, rfl⟩
  obtain ⟨k, reached, first_eq, hdr_eq, cbytes_eq⟩ := reached
  obtain ⟨free, queue, conserved⟩ := holds longMessages k (by decide) reached
  have links := (conserved.chained 0).links
  have single : Links (nexts k.hdr) (k.que 0).first [0] none := by
    rw [first_eq]
    refine ⟨rfl, ?_⟩
    rw [nexts, hdr_eq]
    rfl
  have cbytes := conserved.cbytes 0
  rw [links.unique single, cbytes_eq] at cbytes
  simp [bytesOf, hdr_eq] at cbytes

end Sol25.Msg
