import Sol25.Segvn.Run

/-!
# Reservations of swap space

A private segment reserves swap space for all of its pages or for none, and what segments and anon
maps hold is what was taken.  This breaks where a new mapping is joined with a segment that differs
from it in whether it holds a reservation, and where a segment that reserves page by page has more
slots than pages reserved.
-/

namespace Sol25.Segvn

open List Option

variable {e : Env} {s s1 s' : St} {j k : ℕ} {seg ext nseg : Seg} {as base size swresv addr len : ℕ}
  {a : Crargs}
  {prot : Prot} {error : Option Errno}

/-- What the segments and the anon maps hold of swap space. -/
def St.reserved (s : St) : ℕ := s.segs.total Seg.swresv + s.amps.total Amp.swresv

/-- A private segment without `MAP_NORESERVE` holds swap space for all of its pages or for none. -/
def Seg.WholeResv (seg : Seg) : Prop :=
  seg.type = .mapPrivate → noreserve seg.flags = false → seg.swresv = 0 ∨ seg.swresv = seg.size

/-- A shared segment holds nothing itself, and does not reserve page by page. -/
def Seg.SharedResv (seg : Seg) : Prop :=
  seg.type = .mapShared → seg.swresv = 0 ∧ noreserve seg.flags = false

/-- The reservations of a state are as they should be. -/
structure Accounted (s : St) : Prop where
  whole : ∀ j seg, s.segs.get j = some seg → seg.WholeResv
  balanced : s.taken = s.reserved

/-- A `segvn_create` that gets as far as the joining with the neighbours. -/
def Proceeds (e : Env) (a : Crargs) : Prop :=
  (a.reserves = true → e.resv = true) ∧ e.hatMap = none ∧ (a.vp ≠ none → e.addMap = none)

/-- The segments that a new one is joined with. -/
def takenIn (e : Env) (s : St) (as base size : ℕ) (a : Crargs) : List Seg :=
  let next := (startingAt s as (base + size)).bind s.segs.get
  match (endingAt s as base).bind s.segs.get with
  | some pseg =>
    if joinsPrev e s pseg size a then pseg :: next.toList.filter fun nseg =>
      joinsAfter e pseg nseg size
    else next.toList.filter fun nseg => joinsNext e s nseg size a
  | none => next.toList.filter fun nseg => joinsNext e s nseg size a

/-- The slots in use under the pages of a segment that stay when others go. -/
def slotsLeft (s : St) (seg : Seg) (addr len : ℕ) : ℕ :=
  match seg.amp.bind s.amps.get with
  | none => 0
  | some amp =>
    anonPages amp.anon seg.anonIndex (addr - seg.base) +
      anonPages amp.anon (seg.anonIndex + (addr + len - seg.base))
        (seg.base + seg.size - (addr + len))

/-- Calls that keep reservations whole: a private mapping is joined with segments that hold a
reservation if it takes one itself and none otherwise, and an unmap of a part of a segment with
`MAP_NORESERVE` leaves no more slots than the segment has reserved pages for. -/
def Matched (s : St) : Op → Prop
  | .create e as base size args =>
    args.normal.type = .mapPrivate → noreserve args.normal.flags = false → args.amp = none →
      Proceeds e args.normal →
      ∀ seg ∈ takenIn e s as base size args.normal, seg.swresv ≠ 0 ↔ args.normal.reserves = true
  | .unmap j addr len =>
    ∀ seg, s.segs.get j = some seg → noreserve seg.flags = true → seg.swresv ≠ 0 →
      ¬ (addr = seg.base ∧ len = seg.size) → slotsLeft s seg addr len ≤ seg.swresv
  | _ => True

/-- The invariant behind the accounts: shared segments hold nothing themselves. -/
structure ResvInv (s : St) : Prop extends Accounted s where
  sound : s.Sound
  shared_none : ∀ j seg, s.segs.get j = some seg → seg.SharedResv

/-! ### One segment at a time -/

/-- The accounts of a state in which one segment was replaced or dropped. -/
theorem ResvInv.put (inv : ResvInv s) (at_j : s.segs.get j = some seg) {entry : Option Seg}
    (segs_eq : s'.segs = s.segs.put j entry) (sound : s'.Sound)
    (whole : ∀ new, entry = some new → new.WholeResv ∧ new.SharedResv)
    (balanced : s'.taken + seg.swresv + s.amps.total Amp.swresv =
      s.taken + (entry.elim 0 Seg.swresv : ℕ) + s'.amps.total Amp.swresv) : ResvInv s' := by
  have total_eq := Table.total_put at_j entry Seg.swresv
  have old_balanced := inv.balanced
  simp only [St.reserved] at old_balanced
  refine ⟨⟨fun k new at_k => ?_, ?_⟩, sound, fun k new at_k => ?_⟩
  · rw [segs_eq] at at_k
    rcases Table.get_put_cases at_k with ⟨-, entry_eq⟩ | ⟨-, at_k⟩
    · exact (whole new entry_eq).1
    · exact inv.whole k new at_k
  · rw [St.reserved, segs_eq]
    push_cast at old_balanced ⊢
    omega
  · rw [segs_eq] at at_k
    rcases Table.get_put_cases at_k with ⟨-, entry_eq⟩ | ⟨-, at_k⟩
    · exact (whole new entry_eq).2
    · exact inv.shared_none k new at_k

/-- The accounts of a state with a new segment. -/
theorem ResvInv.add (inv : ResvInv s) {new : Seg} (segs_eq : s'.segs = s.segs.add new)
    (sound : s'.Sound) (whole : new.WholeResv) (shared_none : new.SharedResv)
    (balanced : s'.taken + s.amps.total Amp.swresv =
      s.taken + new.swresv + s'.amps.total Amp.swresv) :
    ResvInv s' := by
  have total_eq := @Table.total_add Seg s.segs new Seg.swresv
  have old_balanced := inv.balanced
  simp only [St.reserved] at old_balanced
  refine ⟨⟨fun k other at_k => ?_, ?_⟩, sound, fun k other at_k => ?_⟩
  · rw [segs_eq] at at_k
    rcases Table.get_add_cases at_k with ⟨-, rfl⟩ | ⟨-, at_k⟩
    · exact whole
    · exact inv.whole k other at_k
  · rw [St.reserved, segs_eq]
    push_cast at old_balanced ⊢
    omega
  · rw [segs_eq] at at_k
    rcases Table.get_add_cases at_k with ⟨-, rfl⟩ | ⟨-, at_k⟩
    · exact shared_none
    · exact inv.shared_none k other at_k

/-- The accounts of a state in which one segment fell in two. -/
theorem ResvInv.split (inv : ResvInv s) (at_j : s.segs.get j = some seg) {low high : Seg}
    (segs_eq : s'.segs = (s.segs.put j (some low)).add high) (sound : s'.Sound)
    (whole : low.WholeResv ∧ low.SharedResv)
    (whole' : high.WholeResv ∧ high.SharedResv)
    (balanced : s'.taken + seg.swresv + s.amps.total Amp.swresv =
      s.taken + low.swresv + high.swresv + s'.amps.total Amp.swresv) : ResvInv s' := by
  have total_eq := Table.total_put at_j (some low) Seg.swresv
  have total_eq' := @Table.total_add Seg (s.segs.put j (some low)) high Seg.swresv
  have old_balanced := inv.balanced
  have one_of : ∀ k new, s'.segs.get k = some new → new = high ∨ new = low ∨
      s.segs.get k = some new := by
    intro k new at_k
    rw [segs_eq] at at_k
    rcases Table.get_add_cases at_k with ⟨-, is_high⟩ | ⟨-, at_k⟩
    · exact .inl is_high.symm
    · rcases Table.get_put_cases at_k with ⟨-, is_low⟩ | ⟨-, at_k⟩
      · exact .inr (.inl (some.inj is_low).symm)
      · exact .inr (.inr at_k)
  simp only [St.reserved] at old_balanced
  simp only [Option.elim] at total_eq
  refine ⟨⟨fun k new at_k => ?_, ?_⟩, sound, fun k new at_k => ?_⟩
  · rcases one_of k new at_k with rfl | rfl | at_k
    · exact whole'.1
    · exact whole.1
    · exact inv.whole k new at_k
  · rw [St.reserved, segs_eq]
    push_cast at old_balanced ⊢
    omega
  · rcases one_of k new at_k with rfl | rfl | at_k
    · exact whole'.2
    · exact whole.2
    · exact inv.shared_none k new at_k

theorem ResvInv.of_amps (inv : ResvInv s) (segs_eq : s'.segs = s.segs) (sound : s'.Sound)
    (balanced : s'.taken + s.amps.total Amp.swresv = s.taken + s'.amps.total Amp.swresv) :
    ResvInv s' := by
  have old_balanced := inv.balanced
  simp only [St.reserved] at old_balanced
  refine ⟨⟨?_, ?_⟩, sound, ?_⟩
  · rw [segs_eq]
    exact inv.whole
  · rw [St.reserved, segs_eq]
    push_cast at old_balanced ⊢
    omega
  · rw [segs_eq]
    exact inv.shared_none

/-! ### Freeing and unmapping -/

theorem total_put_same {t : Table Amp} {id : ℕ} {amp new : Amp} (at_id : t.get id = some amp)
    (same : new.swresv = amp.swresv) :
    (t.put id (some new)).total Amp.swresv = t.total Amp.swresv := by
  have total_eq := Table.total_put at_id (some new) Amp.swresv
  simp only [Option.elim, same] at total_eq
  omega

theorem total_put_none {t : Table Amp} {id : ℕ} {amp : Amp} (at_id : t.get id = some amp) :
    (t.put id none).total Amp.swresv + amp.swresv = t.total Amp.swresv := by
  have total_eq := Table.total_put at_id none Amp.swresv
  simpa only [Option.elim, Nat.add_zero] using total_eq

/-- `segvn_free` gives back what the segment held, and what an anon map held that goes with it. -/
theorem segvnFree_taken (sound : s.Sound) (at_j : s.segs.get j = some seg) :
    (segvnFree s j seg).taken + seg.swresv + s.amps.total Amp.swresv =
      s.taken + (segvnFree s j seg).amps.total Amp.swresv := by
  rw [segvnFree]
  split
  next => simp only [anonUnresv]; omega
  next id uses =>
    split
    next => simp only [anonUnresv]; omega
    next amp at_id =>
      have linked := sound.linked id
      rw [at_id] at linked
      have dropped := total_put_none at_id
      split_ifs with last is_private is_private
      · have owned := Linked.owned linked
          ⟨seg.use, mem_usesOf (Table.mem_records.2 ⟨j, at_j⟩) uses, is_private⟩
        have unreserved := owned.unreserved
        simp only [anonUnresv]
        omega
      · simp only [anonUnresv]
        omega
      · have same := @total_put_same s.amps id amp
          { amp with
            refcnt := amp.refcnt - 1, anon := anonFree amp.anon seg.anonIndex seg.size } at_id rfl
        simp only [anonUnresv]
        omega
      · have same := @total_put_same s.amps id amp { amp with refcnt := amp.refcnt - 1 } at_id rfl
        simp only [anonUnresv]
        omega

theorem ResvInv.segvnFree (inv : ResvInv s) (at_j : s.segs.get j = some seg) :
    ResvInv (segvnFree s j seg) := by
  have dropped : (Segvn.segvnFree s j seg).segs = s.segs.put j none := segvnFree_segs
  refine inv.put at_j dropped (segvnFree_sound inv.sound at_j) (fun _ => nofun) ?_
  have taken_eq := segvnFree_taken inv.sound at_j
  simp only [Option.elim]
  omega

theorem freeUnused_total (page n : ℕ) :
    (freeUnused s seg page n).amps.total Amp.swresv = s.amps.total Amp.swresv := by
  rw [freeUnused]
  split
  next => rfl
  next =>
    split
    next => rfl
    next amp at_id =>
      split_ifs
      · exact total_put_same at_id rfl
      · rfl

theorem holdAmp_total (ref : Option ℕ) :
    (holdAmp s ref).amps.total Amp.swresv = s.amps.total Amp.swresv := by
  unfold holdAmp
  split
  next => rfl
  next =>
    split
    next => rfl
    next amp at_id => exact total_put_same at_id rfl

theorem getElem?_eq_slotAt (anon : List (Option ℕ)) (x : ℕ) :
    anon[x]? = if x < anon.length then some (slotAt anon x) else none := by
  rw [slotAt]
  split_ifs with inside
  · rw [getElem?_eq_getElem inside]
    rfl
  · exact getElem?_eq_none (Nat.not_lt.1 inside)

theorem anonPages_congr {anon anon' : List (Option ℕ)} {start n : ℕ}
    (length_eq : anon'.length = anon.length)
    (same : ∀ x, start ≤ x → x < start + n → slotAt anon' x = slotAt anon x) :
    anonPages anon' start n = anonPages anon start n := by
  have part_eq : (anon'.drop start).take n = (anon.drop start).take n := by
    refine ext_getElem? fun i => ?_
    rw [getElem?_take, getElem?_take]
    split_ifs with inside
    · rw [getElem?_drop, getElem?_drop, getElem?_eq_slotAt, getElem?_eq_slotAt, length_eq,
        same (start + i) (by omega) (by omega)]
    · rfl
  rw [anonPages, anonPages, part_eq]

variable {resv : Bool} {pseg : Seg} {s2 : St}

/-- The slots under a piece of a segment are the same after a cut beside it. -/
theorem pagesHeld_cut {piece : Seg} {page n : ℕ}
    (amps_eq : s2.amps.get = cutAmps s.amps.get seg page len n) (left : n ≠ 0)
    (same_amp : piece.amp = seg.amp)
    (beside : seg.amp ≠ none → piece.anonIndex + piece.size ≤ seg.anonIndex + page ∨
      seg.anonIndex + page + len ≤ piece.anonIndex) :
    pagesHeld s2 piece =
      match seg.amp.bind s.amps.get with
      | none => 0
      | some amp => anonPages amp.anon piece.anonIndex piece.size := by
  rw [pagesHeld, same_amp, amps_eq, cutAmps]
  cases uses : seg.amp with
  | none => rfl
  | some id =>
    have apart := beside (by rw [uses]; rintro ⟨⟩)
    simp only [bind_some]
    cases at_id : s.amps.get id with
    | none => simp only [at_id]
    | some amp =>
      simp only [Function.update_self]
      rw [cutAmp, if_neg fun none_left => left none_left.1]
      dsimp only
      refine anonPages_congr length_cutAnon fun x start_le lt_end => slotAt_cutAnon fun gone => ?_
      omega

theorem trimResv_resv {cut : Seg} {n : ℕ}
    (enough : noreserve cut.flags = true → cut.swresv ≠ 0 → pagesHeld s cut ≤ cut.swresv)
    (whole : noreserve cut.flags = false → cut.swresv = 0 ∨ cut.swresv = cut.size + n) :
    (trimResv s cut n).1.taken + cut.swresv = s.taken + (trimResv s cut n).2.swresv ∧
      (cut.swresv = 0 → (trimResv s cut n).2.swresv = 0) ∧
      (noreserve cut.flags = false → (trimResv s cut n).2.swresv = 0 ∨
        (trimResv s cut n).2.swresv = cut.size) := by
  rw [trimResv]
  split_ifs with none_held by_page
  · exact ⟨rfl, fun _ => none_held, fun _ => .inl none_held⟩
  · have held_le := enough by_page none_held
    refine ⟨?_, fun none_held' => absurd none_held' none_held, fun not_by_page => ?_⟩
    · simp only [anonUnresv, uintSub, if_pos held_le]
      omega
    · rw [by_page] at not_by_page
      cases not_by_page
  · rw [Bool.not_eq_true] at by_page
    have all_held := (whole by_page).resolve_left none_held
    have len_le : n ≤ cut.swresv := by omega
    refine ⟨?_, fun none_held' => absurd none_held' none_held, fun _ => .inr ?_⟩
    · simp only [anonUnresv, uintSub, if_pos len_le]
      omega
    · simp only [uintSub, if_pos len_le]
      omega

theorem splitResv_resv {low high : Seg} {n : ℕ}
    (enough : noreserve low.flags = true → low.swresv ≠ 0 →
      pagesHeld s low + pagesHeld s high ≤ low.swresv)
    (whole : noreserve low.flags = false → low.swresv = 0 ∨ low.swresv = low.size + high.size + n)
    (high_none : high.swresv = 0) :
    ∃ r, splitResv s low high n = .ok r ∧
      r.1.taken + low.swresv = s.taken + r.2.1.swresv + r.2.2.swresv ∧
      (low.swresv = 0 → r.2.1.swresv = 0 ∧ r.2.2.swresv = 0) ∧
      (noreserve low.flags = false → (r.2.1.swresv = 0 ∨ r.2.1.swresv = low.size) ∧
          (r.2.2.swresv = 0 ∨ r.2.2.swresv = high.size)) := by
  rw [splitResv]
  split_ifs with none_held by_page differs
  · exact ⟨_, rfl, by dsimp only; omega, fun _ => ⟨none_held, high_none⟩,
      fun _ => ⟨.inl none_held, .inl high_none⟩⟩
  · have held_le := enough by_page none_held
    refine ⟨_, rfl, ?_, fun none_held' => absurd none_held' none_held, fun not_by_page => ?_⟩
    · simp only [anonUnresv, uintSub, if_pos held_le]
      omega
    · rw [by_page] at not_by_page
      cases not_by_page
  · rw [Bool.not_eq_true] at by_page
    exact absurd ((whole by_page).resolve_left none_held).symm differs
  · refine ⟨_, rfl, ?_, fun none_held' => absurd none_held' none_held,
      fun _ => ⟨.inr rfl, .inr rfl⟩⟩
    rw [not_not] at differs
    simp only [anonUnresv]
    omega

theorem anonPages_zero (anon : List (Option ℕ)) (start : ℕ) : anonPages anon start 0 = 0 := rfl

section

variable (inv : ResvInv s) (at_j : s.segs.get j = some seg)

include inv at_j

theorem ResvInv.all_or_none (by_page : noreserve seg.flags = false) :
    seg.swresv = 0 ∨ seg.swresv = seg.size := by
  cases type_eq : seg.type with
  | mapPrivate => exact inv.whole j seg at_j type_eq by_page
  | mapShared => exact .inl (inv.shared_none j seg at_j type_eq).1

/-- What is left of a segment at one end keeps its accounts. -/
theorem ResvInv.trim {cut : Seg} {page : ℕ} (same_amp : cut.amp = seg.amp)
    (same_type : cut.type = seg.type) (same_flags : cut.flags = seg.flags)
    (same_resv : cut.swresv = seg.swresv) (size_eq : cut.size + len = seg.size)
    (beside : seg.amp ≠ none → cut.anonIndex + cut.size ≤ seg.anonIndex + page ∨
      seg.anonIndex + page + len ≤ cut.anonIndex)
    (enough : noreserve seg.flags = true → seg.swresv ≠ 0 →
      (match seg.amp.bind s.amps.get with
        | none => 0
        | some amp => anonPages amp.anon cut.anonIndex cut.size) ≤ seg.swresv)
    (sound : St.Sound { (trimResv (freeUnused s seg page len) cut len).1 with
      segs := (trimResv (freeUnused s seg page len) cut len).1.segs.put j
        (some (trimResv (freeUnused s seg page len) cut len).2) }) :
    ResvInv { (trimResv (freeUnused s seg page len) cut len).1 with
      segs := (trimResv (freeUnused s seg page len) cut len).1.segs.put j
        (some (trimResv (freeUnused s seg page len) cut len).2) } := by
  have held_eq := @pagesHeld_cut s seg len _ cut page 1
    (freeUnused_amps page len) one_ne_zero same_amp beside
  obtain ⟨taken_eq, none_held, all_or_none⟩ := @trimResv_resv (freeUnused s seg page len) cut len
    (fun by_page some_held => by
      rw [held_eq, same_resv]
      rw [same_flags] at by_page
      rw [same_resv] at some_held
      exact enough by_page some_held)
    (fun by_page => by
      rw [same_flags] at by_page
      rw [same_resv, size_eq]
      exact inv.all_or_none at_j by_page)
  obtain ⟨n, seg_eq⟩ := @trimResv_seg (freeUnused s seg page len) cut len
  refine inv.put at_j (by dsimp only; rw [trimResv_segs, freeUnused_segs]) sound
    (fun new is_new => ?_) ?_
  · obtain rfl := some.inj is_new
    refine ⟨fun is_private by_page => ?_, fun is_shared => ?_⟩
    · rw [seg_eq] at by_page
      have whole := all_or_none by_page
      rw [seg_eq] at whole ⊢
      exact whole
    · rw [seg_eq] at is_shared ⊢
      obtain ⟨seg_none, by_page⟩ := inv.shared_none j seg at_j (same_type.symm.trans is_shared)
      have cut_none := none_held (same_resv.trans seg_none)
      rw [seg_eq] at cut_none
      exact ⟨cut_none, by rwa [same_flags]⟩
  · simp only [Option.elim]
    rw [freeUnused_taken] at taken_eq
    rw [trimResv_amps, freeUnused_total, ← same_resv]
    omega

/-- A segment that falls in two keeps its accounts. -/
theorem ResvInv.fallInTwo (lt_addr : seg.base < addr) (lt_end : addr + len < seg.base + seg.size)
    (enough : noreserve seg.flags = true → seg.swresv ≠ 0 → slotsLeft s seg addr len ≤ seg.swresv)
    (sound_of : ∀ r, splitResv (holdAmp (freeUnused s seg (addr - seg.base) len) seg.amp)
      (cutTail seg (addr - seg.base))
        (highEnd seg (addr + len) (seg.base + seg.size - (addr + len))) len = .ok r →
      St.Sound { r.1 with segs := (r.1.segs.put j (some r.2.1)).add r.2.2 }) :
    ∃ r, splitResv (holdAmp (freeUnused s seg (addr - seg.base) len) seg.amp)
      (cutTail seg (addr - seg.base))
        (highEnd seg (addr + len) (seg.base + seg.size - (addr + len))) len = .ok r ∧
        ResvInv { r.1 with segs := (r.1.segs.put j (some r.2.1)).add r.2.2 } := by
  have amps_eq := @holdAmp_freeUnused_amps s seg (addr - seg.base) len
  have low_held := @pagesHeld_cut s seg len _ (cutTail seg (addr - seg.base))
      (addr - seg.base) 2 amps_eq two_ne_zero rfl
    fun _ => by
      simp only [cutTail]
      omega
  have high_held :=
    @pagesHeld_cut s seg len _ (highEnd seg (addr + len) (seg.base + seg.size - (addr + len)))
    (addr - seg.base) 2 amps_eq two_ne_zero rfl fun has_amp => by
      simp only [highEnd, if_neg has_amp]
      omega
  obtain ⟨r, split_eq, taken_eq, none_held, all_or_none⟩ := @splitResv_resv
    (holdAmp (freeUnused s seg (addr - seg.base) len) seg.amp) (cutTail seg (addr - seg.base))
    (highEnd seg (addr + len) (seg.base + seg.size - (addr + len))) len
    (fun by_page some_held => by
      have left_le := enough by_page some_held
      rw [low_held, high_held]
      rw [slotsLeft] at left_le
      cases uses : seg.amp.bind s.amps.get with
      | none => exact Nat.zero_le _
      | some amp =>
        have has_amp : seg.amp ≠ none := by
          intro no_amp
          rw [no_amp] at uses
          cases uses
        rw [uses] at left_le
        simp only [cutTail, highEnd, if_neg has_amp]
        exact left_le)
    (fun by_page => by
      have held := inv.all_or_none at_j by_page
      simp only [cutTail, highEnd]
      omega)
    rfl
  obtain ⟨segs_eq, amps_eq', ⟨n, low_eq⟩, m, high_eq⟩ := splitResv_ok split_eq
  have segs_eq' : r.1.segs = s.segs := by rw [segs_eq, holdAmp_segs, freeUnused_segs]
  refine ⟨r, split_eq, inv.split at_j (by dsimp only; rw [segs_eq']) (sound_of r split_eq) ?_ ?_ ?_⟩
  · refine ⟨fun is_private by_page => ?_, fun is_shared => ?_⟩
    · rw [low_eq] at by_page
      have whole := (all_or_none by_page).1
      rw [low_eq] at whole ⊢
      exact whole
    · obtain ⟨seg_none, by_page⟩ := inv.shared_none j seg at_j (by rwa [low_eq] at is_shared)
      exact ⟨(none_held seg_none).1, by rwa [low_eq]⟩
  · refine ⟨fun is_private by_page => ?_, fun is_shared => ?_⟩
    · rw [high_eq] at by_page
      have whole := (all_or_none by_page).2
      rw [high_eq] at whole ⊢
      exact whole
    · obtain ⟨seg_none, by_page⟩ := inv.shared_none j seg at_j (by rwa [high_eq] at is_shared)
      exact ⟨(none_held seg_none).2, by rwa [high_eq]⟩
  · rw [holdAmp_taken, freeUnused_taken] at taken_eq
    have same_resv : (cutTail seg (addr - seg.base)).swresv = seg.swresv := rfl
    dsimp only
    rw [amps_eq', holdAmp_total, freeUnused_total]
    omega

/-- `segvn_unmap` of a part of a segment does not panic, and keeps the accounts. -/
theorem ResvInv.segvnUnmap (len_pos : 0 < len) (start_le : seg.base ≤ addr)
    (end_le : addr + len ≤ seg.base + seg.size) (matched : Matched s (.unmap j addr len)) :
    ∃ s', segvnUnmap s j seg addr len = .ok s' ∧ ResvInv s' := by
  have enough := matched seg at_j
  have sound_of : ∀ s', Segvn.segvnUnmap s j seg addr len = .ok s' → s'.Sound :=
    fun s' eq => segvnUnmap_sound inv.sound at_j len_pos eq
  rw [Segvn.segvnUnmap, if_neg (by omega)] at sound_of ⊢
  by_cases whole : addr = seg.base ∧ len = seg.size
  · rw [if_pos whole]
    exact ⟨_, rfl, inv.segvnFree at_j⟩
  rw [if_neg whole] at sound_of ⊢
  by_cases head : addr = seg.base
  · rw [if_pos head] at sound_of ⊢
    refine ⟨_, rfl, inv.trim at_j rfl rfl rfl rfl ?_ ?_ ?_ (sound_of _ rfl)⟩
    · simp only [cutHead]
      omega
    · intro has_amp
      simp only [cutHead, if_neg has_amp]
      omega
    · intro by_page some_held
      have left_le := enough by_page some_held whole
      rw [slotsLeft] at left_le
      cases uses : seg.amp.bind s.amps.get with
      | none => exact Nat.zero_le _
      | some amp =>
        have has_amp : seg.amp ≠ none := by
          intro no_amp
          rw [no_amp] at uses
          cases uses
        rw [uses] at left_le
        simp only [cutHead, if_neg has_amp, head, Nat.sub_self, anonPages_zero, Nat.zero_add,
          Nat.add_sub_cancel_left, Nat.add_sub_add_left] at left_le ⊢
        exact left_le
  rw [if_neg head] at sound_of ⊢
  by_cases tail : addr + len = seg.base + seg.size
  · rw [if_pos tail] at sound_of ⊢
    refine ⟨_, rfl, inv.trim at_j rfl rfl rfl rfl ?_ ?_ ?_ (sound_of _ rfl)⟩
    · simp only [cutTail]
      omega
    · intro has_amp
      simp only [cutTail]
      omega
    · intro by_page some_held
      have left_le := enough by_page some_held whole
      rw [slotsLeft] at left_le
      cases uses : seg.amp.bind s.amps.get with
      | none => exact Nat.zero_le _
      | some amp =>
        rw [uses] at left_le
        simp only [tail, Nat.sub_self, anonPages_zero, Nat.add_zero] at left_le
        rw [show addr - seg.base = seg.size - len by omega] at left_le
        exact left_le
  rw [if_neg tail] at sound_of ⊢
  dsimp only at sound_of ⊢
  obtain ⟨r, split_eq, inv'⟩ :=
    inv.fallInTwo at_j (lt_of_le_of_ne start_le (Ne.symm head)) (lt_of_le_of_ne end_le tail)
    (fun by_page some_held => enough by_page some_held whole) fun r split_eq =>
      sound_of _ (by rw [split_eq]; rfl)
  refine ⟨_, ?_, inv'⟩
  rw [split_eq]
  rfl

end

/-! ### Protections, copies and faults -/

theorem protectSeg_same : (protectSeg seg addr len prot).type = seg.type ∧
    (protectSeg seg addr len prot).flags = seg.flags ∧
      (protectSeg seg addr len prot).size = seg.size ∧
    (protectSeg seg addr len prot).swresv = seg.swresv := by
  simp only [protectSeg, segvnVpage]
  split_ifs
  · exact ⟨rfl, rfl, rfl, rfl⟩
  · split <;> exact ⟨rfl, rfl, rfl, rfl⟩

theorem protResv_resv {s1 : St} {seg1 : Seg}
    (eq : protResv resv s seg addr len prot = .ok (s1, seg1)) (whole : seg.WholeResv)
    (shared_none : seg.SharedResv) :
    s1.taken + seg.swresv = s.taken + seg1.swresv ∧ seg1.WholeResv ∧ seg1.SharedResv := by
  rw [protResv] at eq
  split_ifs at eq with is_shared writes none_held resv_ok releases
  · obtain ⟨rfl, rfl⟩ := Prod.mk.inj (Except.ok.inj eq)
    exact ⟨rfl, whole, shared_none⟩
  · obtain ⟨rfl, rfl⟩ := Prod.mk.inj (Except.ok.inj eq)
    refine ⟨?_, fun _ _ => .inr rfl, fun is_shared' => ?_⟩
    · simp only [anonResv]
      omega
    · rw [not_not] at is_shared
      cases is_shared.symm.trans is_shared'
  · obtain ⟨rfl, rfl⟩ := Prod.mk.inj (Except.ok.inj eq)
    exact ⟨rfl, whole, shared_none⟩
  · obtain ⟨rfl, rfl⟩ := Prod.mk.inj (Except.ok.inj eq)
    refine ⟨?_, fun _ _ => .inl rfl, fun is_shared => ⟨rfl, (shared_none is_shared).2⟩⟩
    simp only [anonUnresv]
    omega
  · obtain ⟨rfl, rfl⟩ := Prod.mk.inj (Except.ok.inj eq)
    exact ⟨rfl, whole, shared_none⟩

theorem ResvInv.segvnSetprot (inv : ResvInv s) (at_j : s.segs.get j = some seg)
    (start_le : seg.base ≤ addr) (eq : segvnSetprot resv s j seg addr len prot = (error, s')) :
    ResvInv s' := by
  have sound := segvnSetprot_sound inv.sound at_j start_le eq
  rw [Segvn.segvnSetprot] at eq
  split at eq
  next =>
    obtain ⟨-, rfl⟩ := Prod.mk.inj eq
    exact inv
  next =>
    split at eq
    next =>
      obtain ⟨-, rfl⟩ := Prod.mk.inj eq
      exact inv
    next s1 seg1 resv_eq =>
      obtain ⟨-, rfl⟩ := Prod.mk.inj eq
      obtain ⟨segs_eq, amps_eq, n, seg1_eq⟩ := protResv_ok resv_eq
      obtain ⟨taken_eq, whole, shared_none⟩ :=
        protResv_resv resv_eq (inv.whole j seg at_j) (inv.shared_none j seg at_j)
      obtain ⟨type_eq, flags_eq, size_eq, resv_same⟩ := @protectSeg_same seg1 addr len prot
      refine inv.put at_j (by dsimp only; rw [segs_eq]) sound (fun new is_new => ?_) ?_
      · obtain rfl := some.inj is_new
        rw [Seg.WholeResv, Seg.SharedResv, type_eq, flags_eq, size_eq, resv_same]
        exact ⟨whole, shared_none⟩
      · simp only [Option.elim, resv_same, amps_eq]
        omega

/-- `segvn_dup` adds a segment with the same reservation, taken anew. -/
theorem segvnDup_resv {addMap : Option Errno} {newas : ℕ} (sound : s.Sound)
    (at_j : s.segs.get j = some seg) (eq : segvnDup resv addMap s seg newas = (error, s')) :
    s' = s ∨ ∃ new, s'.segs = s.segs.add new ∧ new.type = seg.type ∧ new.flags = seg.flags ∧
      new.size = seg.size ∧
      new.swresv = seg.swresv ∧ s'.taken = s.taken + seg.swresv ∧
      s'.amps.total Amp.swresv = s.amps.total Amp.swresv := by
  rw [segvnDup] at eq
  split at eq
  next => exact .inl (Prod.mk.inj eq).2.symm
  next =>
    obtain ⟨-, rfl⟩ := Prod.mk.inj eq
    right
    split
    next => exact ⟨_, rfl, rfl, rfl, rfl, rfl, rfl, rfl⟩
    next id uses =>
      split_ifs
      · refine ⟨{ seg with as := newas }, ?_, rfl, rfl, rfl, rfl, ?_, ?_⟩
        · dsimp only
          rw [holdAmp_segs]
          rfl
        · dsimp only
          rw [holdAmp_taken]
          rfl
        · dsimp only
          rw [holdAmp_total]
          rfl
      · obtain ⟨rest, -, -, fits, -⟩ := sound.split at_j
        obtain ⟨amp, at_id, -⟩ := fits.amp uses
        have at_id' : (anonResv s seg.swresv).amps.get id = some amp := at_id
        simp only [at_id']
        refine ⟨_, rfl, rfl, rfl, rfl, rfl, rfl, ?_⟩
        rw [Table.total_add]
        rfl

theorem ResvInv.segvnDup {addMap : Option Errno} {newas : ℕ} (inv : ResvInv s)
    (at_j : s.segs.get j = some seg) (vacant : Vacant s newas seg.base seg.size)
    (eq : segvnDup resv addMap s seg newas = (error, s')) : ResvInv s' := by
  rcases segvnDup_resv inv.sound at_j eq with
    rfl | ⟨new, segs_eq, type_eq, flags_eq, size_eq, resv_eq, taken_eq, total_eq⟩
  · exact inv
  · refine inv.add segs_eq (segvnDup_sound inv.sound at_j vacant eq) ?_ ?_ ?_
    · rw [Seg.WholeResv, type_eq, flags_eq, size_eq, resv_eq]
      exact inv.whole j seg at_j
    · rw [Seg.SharedResv, type_eq, flags_eq, resv_eq]
      exact inv.shared_none j seg at_j
    · rw [taken_eq, total_eq, resv_eq]

theorem ResvInv.faultAmp {f : Fault} (inv : ResvInv s) (at_j : s.segs.get j = some seg) :
    ResvInv (faultAmp s j seg f).1 := by
  obtain ⟨sound, -, -⟩ := @faultAmp_sound s j seg inv.sound at_j f
  have whole := inv.whole j seg at_j
  have shared_none := inv.shared_none j seg at_j
  rw [Segvn.faultAmp] at sound ⊢
  split at sound
  next needs =>
    rw [if_pos needs]
    refine inv.put at_j rfl sound (fun new is_new => ?_) ?_
    · obtain rfl := some.inj is_new
      exact ⟨whole, shared_none⟩
    · simp only [Option.elim, Table.total_add, anonmapAlloc]
      omega
  next needs_not =>
    rw [if_neg needs_not]
    exact inv

theorem total_put_slot {id x : ℕ} {amp : Amp} {slot : Option ℕ} (at_id : s.amps.get id = some amp) :
    (s.amps.put id (some { amp with anon := amp.anon.set x slot })).total Amp.swresv =
      s.amps.total Amp.swresv :=
  total_put_same at_id rfl

theorem ResvInv.segvnFault {f : Fault} (inv : ResvInv s) (at_j : s.segs.get j = some seg)
    (inside : f.page < seg.size) :
    ResvInv (segvnFault s j seg f) := by
  have sound := segvnFault_sound inv.sound at_j inside
  have inv1 := inv.faultAmp (f := f) at_j
  obtain ⟨-, at_j1, -⟩ := @faultAmp_sound s j seg inv.sound at_j f
  rw [Segvn.segvnFault] at sound ⊢
  generalize (Segvn.faultAmp s j seg f).1 = s1 at inv1 at_j1 sound
  generalize (Segvn.faultAmp s j seg f).2 = seg1 at at_j1 sound
  have whole := inv1.whole j seg1 at_j1
  have shared_none := inv1.shared_none j seg1 at_j1
  revert sound
  rw [faultPage]
  split
  next => exact fun _ => inv1
  next id uses =>
    split
    next => exact fun _ => inv1
    next amp at_id =>
      dsimp only
      have by_page_whole : noreserve seg1.flags = true →
          Seg.WholeResv { seg1 with swresv := seg1.swresv + 1 } := by
        intro by_page _ not_by_page
        rw [by_page] at not_by_page
        cases not_by_page
      have by_page_shared : noreserve seg1.flags = true →
          Seg.SharedResv { seg1 with swresv := seg1.swresv + 1 } := by
        intro by_page is_shared
        have not_by_page := (shared_none is_shared).2
        rw [by_page] at not_by_page
        cases not_by_page
      split_ifs with faults refused memory by_page by_page
      · exact fun _ => inv1
      · intro sound
        refine inv1.put at_j1 rfl sound (fun new is_new => ?_) ?_
        · obtain rfl := some.inj is_new
          exact ⟨by_page_whole by_page.1, by_page_shared by_page.1⟩
        · simp only [Option.elim, anonResv, total_put_slot at_id]
          omega
      · intro sound
        refine inv1.of_amps rfl sound ?_
        simp only [total_put_slot at_id]
      · intro sound
        refine inv1.put at_j1 rfl sound (fun new is_new => ?_) ?_
        · obtain rfl := some.inj is_new
          exact ⟨by_page_whole by_page.1, by_page_shared by_page.1⟩
        · simp only [Option.elim, anonResv]
          omega
      · exact fun _ => inv1
      · exact fun _ => inv1

/-! ### Owners outside -/

theorem ResvInv.ampMake (inv : ResvInv s) (size swresv : ℕ) :
    ResvInv { anonResv s swresv with
      amps := s.amps.add { anonmapAlloc size swresv with outside := 1 } } := by
  refine inv.of_amps rfl (ampMake_sound inv.sound size swresv) ?_
  simp only [Table.total_add, anonmapAlloc, anonResv]
  omega

theorem ResvInv.ampRele {id : ℕ} {amp : Amp} (inv : ResvInv s) (at_id : s.amps.get id = some amp)
    (held : 0 < amp.outside) : ResvInv (ampRele s id amp) := by
  have sound := ampRele_sound inv.sound at_id held
  have dropped := total_put_none at_id
  revert sound
  rw [Segvn.ampRele]
  split_ifs
  · intro sound
    refine inv.of_amps rfl sound ?_
    simp only [anonUnresv]
    omega
  · intro sound
    refine inv.of_amps rfl sound ?_
    have same := @total_put_same s.amps id amp
      { amp with refcnt := amp.refcnt - 1, outside := amp.outside - 1 } at_id rfl
    dsimp only
    rw [same]

/-! ### Creating -/

theorem GrownAmps.total (grown : GrownAmps seg ext s.amps.get s'.amps.get) :
    s'.amps.total Amp.swresv = s.amps.total Amp.swresv := by
  refine Table.total_congr fun i => ?_
  rw [GrownAmps] at grown
  split at grown
  next => rw [grown]
  next id uses =>
    obtain ⟨amp, anon, at_id, -, -, amps_eq, -, -⟩ := grown
    rw [amps_eq]
    by_cases same : i = id
    · rw [same, Function.update_self, at_id]
      rfl
    · rw [Function.update_of_ne same]

theorem Grew.kind_eq (grew : Grew s s' j seg ext) :
    ext.type = seg.type ∧ ext.flags = seg.flags := by
  have same := grew.same
  rw [same]
  exact ⟨rfl, rfl⟩

/-- The reservation taken for a new mapping stays to be entered when slots have only moved. -/
theorem ResvInv.nudged {n : ℕ} (inv : ResvInv s) (nudge : Nudge (anonResv s n) s') :
    ∃ s0, ResvInv s0 ∧ s' = anonResv s0 n ∧ s0.segs = s'.segs := by
  cases nudge with
  | same eq => exact ⟨s, inv, eq, by rw [eq]; rfl⟩
  | moved j seg ext prot file at_j grew resv_eq extends_seg =>
    have sound' := (Nudge.moved j seg ext prot file at_j grew resv_eq extends_seg).sound inv.sound
    obtain ⟨-, size_eq⟩ := extends_seg.place_eq (inv.sound.formed at_j)
    obtain ⟨type_eq, flags_eq⟩ := grew.kind_eq
    have taken_eq := grew.taken_eq
    simp only [anonResv] at taken_eq
    refine ⟨anonUnresv s' n, ?_, ?_, rfl⟩
    · have at_j' : s.segs.get j = some seg := at_j
      have segs_eq : (anonUnresv s' n).segs = s.segs.put j (some ext) := grew.segs_eq
      have total_eq : s'.amps.total Amp.swresv = s.amps.total Amp.swresv := grew.grown.total
      refine inv.put at_j' segs_eq sound' (fun new is_new => ?_) ?_
      · obtain rfl := some.inj is_new
        rw [Seg.WholeResv, Seg.SharedResv, type_eq, flags_eq, size_eq, resv_eq]
        exact ⟨inv.whole j seg at_j', inv.shared_none j seg at_j'⟩
      · simp only [anonUnresv, Option.elim, resv_eq, total_eq]
        omega
    · simp only [anonResv, anonUnresv]
      rw [Int.sub_add_cancel]

theorem noreserve_of_passes (passes : extendTest seg a = true) :
    noreserve seg.flags = noreserve a.flags := by
  obtain ⟨-, -, -, -, flags_eq⟩ := extendTest_eq passes
  rw [← flags_eq, noreserve, noreserve, BitVec.getLsbD_setWidth]
  rfl

theorem reserves_shared_file (is_shared : a.type = .mapShared) (has_file : a.vp ≠ none) :
    a.reserves = false := by
  cases vp : a.vp with
  | none => exact absurd vp has_file
  | some vnode => simp [Crargs.reserves, is_shared, vp]

/-- The reservation of a segment that took new pages in. -/
theorem extended_resv (formed : seg.Formed) (whole : seg.WholeResv) (shared_none : seg.SharedResv)
    (grew : Grew s s' j seg ext) (passes : extendTest seg a = true)
    (size_eq : ext.size = seg.size + size)
    (resv_eq : ext.swresv = seg.swresv + if a.reserves = true then size else 0)
    (matched : a.type = .mapPrivate → noreserve a.flags = false →
      (seg.swresv ≠ 0 ↔ a.reserves = true)) :
    ext.WholeResv ∧ ext.SharedResv := by
  obtain ⟨vp_eq, -, -, type_same, -⟩ := extendTest_eq passes
  obtain ⟨type_eq, flags_eq⟩ := grew.kind_eq
  have by_page_eq := noreserve_of_passes passes
  refine ⟨fun is_private by_page => ?_, fun is_shared => ?_⟩
  · rw [type_eq] at is_private
    rw [flags_eq] at by_page
    have all_or_none := whole is_private by_page
    have same := matched (type_same.symm.trans is_private) (by_page_eq.symm.trans by_page)
    rw [resv_eq, size_eq]
    by_cases reserves : a.reserves = true
    · rw [if_pos reserves]
      have held := same.2 reserves
      omega
    · rw [if_neg reserves]
      have none_held : seg.swresv = 0 := by
        by_contra held
        exact reserves (same.1 held)
      omega
  · rw [type_eq] at is_shared
    rw [resv_eq, flags_eq]
    obtain ⟨none_held, by_page⟩ := shared_none is_shared
    have no_amp : seg.amp = none := by
      by_contra has_amp
      obtain ⟨id, uses⟩ := ne_none_iff_exists'.1 has_amp
      have grown := grew.grown
      simp only [GrownAmps, uses] at grown
      obtain ⟨-, -, -, -, is_private, -⟩ := grown
      cases is_shared.symm.trans is_private
    have has_file : seg.vp ≠ none := fun no_file => formed.shared_zero is_shared no_file no_amp
    have reserves_not := reserves_shared_file (type_same.symm.trans is_shared) (by rwa [← vp_eq])
    rw [none_held, reserves_not]
    exact ⟨rfl, by_page⟩

theorem mem_takenIn_prev (found : endingAt s as base = some j) (at_j : s.segs.get j = some pseg)
    (joins : joinsPrev e s pseg size a = true) :
    pseg ∈ takenIn e s as base size a := by
  rw [takenIn]
  simp only [found, bind_some, at_j, joins, if_true]
  exact mem_cons_self

theorem mem_takenIn_after (found : endingAt s as base = some j) (at_j : s.segs.get j = some pseg)
    (joins : joinsPrev e s pseg size a = true) (found' : startingAt s as (base + size) = some k)
    (at_k : s.segs.get k = some nseg) (after : joinsAfter e pseg nseg size = true) :
    nseg ∈ takenIn e s as base size a := by
  rw [takenIn]
  simp only [found, bind_some, at_j, joins, if_true, found', at_k, Option.toList]
  refine mem_cons_of_mem _ (mem_filter.2 ⟨mem_cons_self, after⟩)

theorem mem_takenIn_next (refuses : PrevRefuses e s as base size a)
    (next : NextJoins e s as base size a nseg) :
    nseg ∈ takenIn e s as base size a := by
  obtain ⟨found, joins⟩ := next
  have member : nseg ∈ ((startingAt s as (base + size)).bind s.segs.get).toList.filter
      fun nseg => joinsNext e s nseg size a := by
    rw [found]
    exact mem_filter.2 ⟨mem_cons_self, joins⟩
  rw [takenIn]
  split
  next pseg at_prev =>
    rw [refuses pseg at_prev, if_neg nofun]
    exact member
  next => exact member

/-- The reservation taken for a new mapping is entered in the segment that took it in. -/
theorem ResvInv.extended {n : ℕ} (inv : ResvInv s) (grew : Grew (anonResv s n) s' j seg ext)
    (at_j : s.segs.get j = some seg) (sound : s'.Sound) (resv_eq : ext.swresv = seg.swresv + n)
    (whole : ext.WholeResv ∧ ext.SharedResv) : ResvInv s' := by
  have total_eq : s'.amps.total Amp.swresv = s.amps.total Amp.swresv := grew.grown.total
  have taken_eq : s'.taken = s.taken + n := grew.taken_eq
  refine inv.put at_j grew.segs_eq sound (fun new is_new => ?_) ?_
  · obtain rfl := some.inj is_new
    exact whole
  · simp only [Option.elim, resv_eq, total_eq, taken_eq]
    push_cast
    omega

theorem joinedSeg_same (seg1 seg2 : Seg) : (joinedSeg seg1 seg2).type = seg1.type ∧
    (joinedSeg seg1 seg2).flags = seg1.flags ∧ (joinedSeg seg1 seg2).size = seg1.size + seg2.size ∧
    (joinedSeg seg1 seg2).swresv = seg1.swresv + seg2.swresv := by
  rw [joinedSeg]
  split_ifs <;> exact ⟨rfl, rfl, rfl, rfl⟩

/-- Two segments that both hold a reservation, or both none, are joined. -/
theorem ResvInv.joined {seg1 seg2 : Seg} (inv : ResvInv s)
    (took : TookBoth e s s' as base j seg1 k seg2) (ne : j ≠ k) (sound : s'.Sound)
    (matched : seg1.type = .mapPrivate → noreserve seg1.flags = false →
      (seg1.swresv = 0 ↔ seg2.swresv = 0)) :
    ResvInv s' := by
  obtain ⟨-, -, type_same, flags_same, -, -, -⟩ := concatTest_eq took.passes
  obtain ⟨type_eq, flags_eq, size_eq, resv_eq⟩ := joinedSeg_same seg1 seg2
  have at_j' : (s.segs.put k none).get j = some seg1 := by rw [Table.get_put_ne ne, took.at_j]
  have total_k := Table.total_put took.at_k none Seg.swresv
  have total_j := Table.total_put at_j' (some (joinedSeg seg1 seg2)) Seg.swresv
  have segs_eq : s'.segs = (s.segs.put k none).put j (some (joinedSeg seg1 seg2)) := by rw [took.eq]
  have amps_eq : s'.amps = s.amps := by rw [took.eq]
  have taken_eq : s'.taken = s.taken := by rw [took.eq]
  have whole1 := inv.whole j seg1 took.at_j
  have whole2 := inv.whole k seg2 took.at_k
  have shared1 := inv.shared_none j seg1 took.at_j
  have shared2 := inv.shared_none k seg2 took.at_k
  have one_of : ∀ i new, s'.segs.get i = some new → new = joinedSeg seg1 seg2 ∨
      s.segs.get i = some new := by
    intro i new at_i
    rw [segs_eq] at at_i
    rcases Table.get_put_cases at_i with ⟨-, is_joined⟩ | ⟨-, at_i⟩
    · exact .inl (some.inj is_joined).symm
    · rcases Table.get_put_cases at_i with ⟨-, impossible⟩ | ⟨-, at_i⟩
      · exact nomatch impossible
      · exact .inr at_i
  have old_balanced := inv.balanced
  simp only [St.reserved] at old_balanced
  simp only [Option.elim, resv_eq] at total_k total_j
  refine ⟨⟨fun i new at_i => ?_, ?_⟩, sound, fun i new at_i => ?_⟩
  · rcases one_of i new at_i with rfl | at_i
    · intro is_private by_page
      rw [type_eq] at is_private
      rw [flags_eq] at by_page
      have both := matched is_private by_page
      have first := whole1 is_private by_page
      have second := whole2 (type_same.symm.trans is_private) (by rwa [← flags_same])
      rw [resv_eq, size_eq]
      omega
    · exact inv.whole i new at_i
  · rw [St.reserved, segs_eq, amps_eq, taken_eq]
    push_cast at old_balanced ⊢
    omega
  · rcases one_of i new at_i with rfl | at_i
    · intro is_shared
      rw [type_eq] at is_shared
      have first := shared1 is_shared
      have second := shared2 (type_same.symm.trans is_shared)
      rw [resv_eq, flags_eq, first.1, second.1]
      exact ⟨rfl, first.2⟩
    · exact inv.shared_none i new at_i

/-- The segment after the new pages, seen before the previous one took them in. -/
theorem TookBoth.before {seg2 : Seg} (sound : s.Sound)
    (took : TookPrev e s s1 as base size a swresv j pseg ext)
    (both : TookBoth e s1 s' as (base + size) j ext k seg2) :
    k ≠ j ∧ startingAt s as (base + size) = some k ∧ s.segs.get k = some seg2 ∧
      joinsAfter e pseg seg2 size = true := by
  obtain ⟨base_eq, end_eq⟩ := took.ext_end sound
  have ne : k ≠ j := by
    rintro rfl
    obtain rfl : ext = seg2 := some.inj (both.at_j.symm.trans both.at_k)
    have next_eq := both.base_eq
    have ext_pos := took.extends_seg.formed.size_pos
    omega
  have found := both.found
  rw [startingAt, took.grew.segs_eq,
    Table.locate_put took.at_j (by rw [took.extends_seg.as_eq, base_eq])] at found
  have at_k := both.at_k
  rw [took.grew.segs_eq, Table.get_put_ne ne] at at_k
  refine ⟨ne, found, at_k, ?_⟩
  have same := took.grew.same
  have size_eq := took.extends_seg.size_eq
  have offset_eq := took.extends_seg.offset_eq
  have passes := both.passes
  have formed := sound.formed took.at_j
  have pages_same : ext.vpage = none ↔ pseg.vpage = none := by
    have pageprot_eq : ext.pageprot = pseg.pageprot := by rw [same]
    rw [took.extends_seg.formed.pageprot_eq, formed.pageprot_eq] at pageprot_eq
    rw [← not_isSome_iff_eq_none, ← not_isSome_iff_eq_none, pageprot_eq]
  rw [joinsAfter, decide_eq_true_eq]
  refine ⟨?_, ?_⟩
  · rw [concatTest, decide_eq_true_eq] at passes ⊢
    rw [same] at passes
    simp only at passes ⊢
    obtain ⟨vp_eq, maxprot_eq, advice_eq, prot_eq, type_eq, cred_eq, flags_eq, file_eq, no_amp,
      no_amp'⟩ := passes
    refine ⟨vp_eq, maxprot_eq, advice_eq, prot_eq, type_eq, cred_eq, flags_eq, ?_, no_amp, no_amp'⟩
    rcases file_eq with no_file | file_eq
    · exact .inl no_file
    · by_cases no_file : pseg.vp = none
      · exact .inl no_file
      · have shifted := offset_eq no_file
        refine .inr ?_
        push_cast
        omega
  · rcases both.memory with no_pages | memory
    · exact .inl ⟨pages_same.1 no_pages.1, no_pages.2⟩
    · exact .inr memory

/-- The segments that a new one is joined with hold a reservation if it takes one, and none
otherwise. -/
def JoinMatched (e : Env) (s : St) (as base size : ℕ) (a : Crargs) : Prop :=
  a.type = .mapPrivate → noreserve a.flags = false →
    ∀ seg ∈ takenIn e s as base size a, seg.swresv ≠ 0 ↔ a.reserves = true

theorem ResvInv.tookPrev (inv : ResvInv s) (vacant : Vacant s as base size)
    (matched : JoinMatched e s as base size a)
    (took : TookPrev e (anonResv s (if a.reserves = true then size else 0)) s' as base size a
      (if a.reserves = true then size else 0) j pseg ext) :
    ResvInv s' := by
  have at_j : s.segs.get j = some pseg := took.at_j
  refine inv.extended took.grew at_j (took.sound inv.sound vacant) took.resv_eq ?_
  refine extended_resv (inv.sound.formed at_j) (inv.whole j pseg at_j)
    (inv.shared_none j pseg at_j) took.grew took.passes
    took.extends_seg.size_eq took.resv_eq fun is_private by_page => ?_
  exact matched is_private by_page pseg (mem_takenIn_prev took.found at_j took.joins)

/-- Joining with the neighbours keeps the accounts, and leaves a reservation to be entered if none
of them joins. -/
theorem ResvInv.tryJoin {joined : Bool} (inv : ResvInv s) (pos : 0 < size)
    (vacant : Vacant s as base size) (matched : JoinMatched e s as base size a)
    (eq : tryJoin e (anonResv s (if a.reserves = true then size else 0)) as base size a
      (if a.reserves = true then size else 0) = (joined, s2)) :
    if joined then ResvInv s2
    else ∃ s0, ResvInv s0 ∧ s2 = anonResv s0 (if a.reserves = true then size else 0) ∧
      Vacant s0 as base size := by
  have sound : (anonResv s (if a.reserves = true then size else 0)).Sound := inv.sound
  have vacant' : Vacant (anonResv s (if a.reserves = true then size else 0)) as base size := vacant
  rcases tryJoin_cases sound eq with
    ⟨s1, nudge, refuses, ⟨rfl, nudge'⟩ | ⟨rfl, k, nseg, next, took, joins⟩⟩ | ⟨rfl, s1, j, pseg,
      extended, took, both⟩
  · obtain ⟨s0, inv0, rfl, segs0⟩ := inv.nudged nudge
    obtain ⟨s00, inv00, rfl, segs00⟩ := inv0.nudged nudge'
    have vacant1 := nudge.vacant sound vacant'
    exact ⟨s00, inv00, rfl, nudge'.vacant inv0.sound vacant1⟩
  · obtain ⟨s0, inv0, rfl, segs0⟩ := inv.nudged nudge
    have at_k : s0.segs.get k = some nseg := took.at_k
    have vacant0 : Vacant s0 as base size := nudge.vacant sound vacant'
    refine inv0.extended took.grew at_k (took.sound inv0.sound vacant0) took.resv_eq ?_
    refine extended_resv (inv0.sound.formed at_k) (inv0.whole k nseg at_k)
      (inv0.shared_none k nseg at_k) took.grew
      took.passes took.extends_seg.size_eq took.resv_eq fun is_private by_page => ?_
    exact matched is_private by_page nseg (mem_takenIn_next refuses joins)
  · have inv1 := inv.tookPrev vacant matched took
    rcases both with rfl | ⟨seg1, k, seg2, took_both⟩
    · exact inv1
    · obtain rfl : seg1 = extended :=
        some.inj (took_both.at_j.symm.trans (took.grew.at_self took.at_j))
      have as_eq := took.extends_seg.as_eq.trans took.as_eq
      have end_eq := (took.ext_end sound).2
      obtain ⟨ne, found, at_k, after⟩ := TookBoth.before sound took took_both
      refine inv1.joined took_both ne.symm
        (took_both.sound inv1.sound as_eq end_eq) fun is_private by_page => ?_
      obtain ⟨type_eq, flags_eq⟩ := took.grew.kind_eq
      obtain ⟨-, -, -, type_same, -⟩ := extendTest_eq took.passes
      have a_private : a.type = .mapPrivate := type_same.symm.trans (type_eq.symm.trans is_private)
      have a_by_page : noreserve a.flags = false := by
        rw [← noreserve_of_passes took.passes, ← flags_eq]
        exact by_page
      have prev_matched :=
        matched a_private a_by_page pseg (mem_takenIn_prev took.found took.at_j took.joins)
      have next_matched := matched a_private a_by_page seg2
        (mem_takenIn_after took.found took.at_j took.joins found at_k after)
      have resv_eq := took.resv_eq
      by_cases reserves : a.reserves = true
      · rw [if_pos reserves] at resv_eq
        have held := prev_matched.2 reserves
        have held' := next_matched.2 reserves
        omega
      · rw [if_neg reserves] at resv_eq
        have none_held : pseg.swresv = 0 := by
          by_contra held
          exact reserves (prev_matched.1 held)
        have none_held' : seg2.swresv = 0 := by
          by_contra held
          exact reserves (next_matched.1 held)
        omega

theorem noreserve_newSeg : noreserve (newSeg as base size a).flags = noreserve a.flags := by
  rw [noreserve, noreserve, newSeg, BitVec.getLsbD_setWidth, BitVec.getLsbD_setWidth]
  rfl

theorem reserves_shared_given (is_shared : a.type = .mapShared) (given : a.amp ≠ none) :
    a.reserves = false := by
  cases amp : a.amp with
  | none => exact absurd amp given
  | some id => simp [Crargs.reserves, is_shared, amp]

theorem whole_newSeg {id : Option ℕ} {n : ℕ} (is_private : a.type ≠ .mapShared) :
    Seg.WholeResv { newSeg as base size a with
      amp := id, anonIndex := n, swresv := if a.reserves = true then size else 0 } ∧
    Seg.SharedResv { newSeg as base size a with
      amp := id, anonIndex := n, swresv := if a.reserves = true then size else 0 } := by
  refine ⟨fun _ _ => ?_, fun is_shared => absurd is_shared is_private⟩
  by_cases reserves : a.reserves = true
  · exact .inr (if_pos reserves)
  · exact .inl (if_neg reserves)

theorem shared_newSeg {id : Option ℕ} {n : ℕ} (is_shared : a.type = .mapShared)
    (by_page : noreserve a.flags = false) :
    Seg.WholeResv { newSeg as base size a with amp := id, anonIndex := n } ∧
    Seg.SharedResv { newSeg as base size a with amp := id, anonIndex := n } :=
  ⟨fun is_private => absurd (is_shared.symm.trans is_private) nofun,
    fun _ => ⟨rfl, (@noreserve_newSeg as base size a).trans by_page⟩⟩

theorem createAlone_ne_cannotSplit {n : ℕ} :
    createAlone e s2 as base size a n ≠ .error .cannotSplit := by
  rw [createAlone]
  split
  next => split_ifs <;> rintro ⟨⟩
  next =>
    split
    next => rintro ⟨⟩
    next => split_ifs <;> rintro ⟨⟩

/-- A segment of its own enters the reservation that was taken for it. -/
theorem ResvInv.createAlone (inv : ResvInv s) (pos : 0 < size) (vacant : Vacant s as base size)
    (held : ∀ id, a.amp = some id → ∃ amp, s.amps.get id = some amp ∧ 0 < amp.outside)
    (by_page : a.type = .mapShared → noreserve a.flags = false) {n : ℕ}
    (n_eq : n = if a.reserves = true then size else 0)
    (eq : createAlone e (anonResv s n) as base size a n = .ok s') : ResvInv s' := by
  have sound_at : (anonResv s n).Sound := inv.sound
  have sound := (createAlone_creates sound_at pos vacant held eq).1
  rw [Segvn.createAlone] at eq
  split at eq
  next none_given =>
    split_ifs at eq with is_shared no_file
    · obtain rfl := Except.ok.inj eq
      obtain ⟨whole, shared_none⟩ := @shared_newSeg as base size a (some s.amps.next) 0 is_shared
        (by_page is_shared)
      refine inv.add rfl sound whole shared_none ?_
      simp only [Table.total_add, anonmapAlloc, anonResv, newSeg]
      push_cast
      omega
    · obtain rfl := Except.ok.inj eq
      obtain ⟨whole, shared_none⟩ :=
        @shared_newSeg as base size a none 0 is_shared (by_page is_shared)
      refine inv.add rfl sound whole shared_none ?_
      have reserves_not := reserves_shared_file is_shared no_file
      rw [reserves_not] at n_eq
      simp only [anonResv, newSeg, n_eq]
      rfl
    · obtain rfl := Except.ok.inj eq
      obtain ⟨whole, shared_none⟩ := @whole_newSeg as base size a none 0 is_shared
      rw [← n_eq] at whole shared_none
      exact inv.add rfl sound whole shared_none rfl
  next id given =>
    obtain ⟨amp, at_id, -⟩ := held id given
    have at_id' : (anonResv s n).amps.get id = some amp := at_id
    simp only [at_id'] at eq
    split_ifs at eq with short is_shared
    · obtain rfl := Except.ok.inj eq
      obtain ⟨whole, shared_none⟩ := @shared_newSeg as base size a (some id) a.offset is_shared
        (by_page is_shared)
      refine inv.add rfl sound whole shared_none ?_
      have reserves_not := reserves_shared_given is_shared (by rw [given]; rintro ⟨⟩)
      have same := @total_put_same s.amps id amp { amp with refcnt := amp.refcnt + 1 } at_id rfl
      rw [reserves_not] at n_eq
      simp only [anonResv, newSeg, n_eq, same]
      rfl
    · obtain rfl := Except.ok.inj eq
      obtain ⟨whole, shared_none⟩ := @whole_newSeg as base size a (some (s.amps.put id
          (some { amp with anon := fillSlots amp.anon a.offset size e.anonZero })).next) 0 is_shared
      rw [← n_eq] at whole shared_none
      refine inv.add rfl sound whole shared_none ?_
      have same := @total_put_same s.amps id amp
        { amp with anon := fillSlots amp.anon a.offset size e.anonZero } at_id rfl
      simp only [anonResv, anonmapAlloc, Table.total_add, same]
      push_cast
      omega

theorem noreserve_normal (is_shared : a.normal.type = .mapShared) :
    noreserve a.normal.flags = false := by
  by_cases type_eq : a.type = .mapShared
  · rw [Crargs.normal, if_pos type_eq]
    simp [noreserve]
  · rw [Crargs.normal, if_neg type_eq] at is_shared
    exact absurd is_shared type_eq

theorem anonUnresv_anonResv (s : St) (n : ℕ) : anonUnresv (anonResv s n) n = s := by
  rw [anonUnresv, anonResv]
  simp only [Int.add_sub_cancel]

/-- `segvn_create` does not panic over a reservation, and keeps the accounts. -/
theorem ResvInv.segvnCreate {args : Crargs} (inv : ResvInv s)
    (legal : Legal s (.create e as base size args))
    (matched : Matched s (.create e as base size args)) :
    segvnCreate e s as base size args ≠ .error .cannotSplit ∧
      ∀ error s', segvnCreate e s as base size args = .ok (error, s') → ResvInv s' := by
  obtain ⟨pos, vacant, given⟩ := legal
  obtain ⟨flags, normal⟩ := normal_eq args
  have amp_eq : args.normal.amp = args.amp := by rw [normal]
  have held : ∀ id, args.normal.amp = some id → ∃ amp, s.amps.get id = some amp ∧
      0 < amp.outside := by
    intro id is_given
    obtain ⟨-, amp, at_id, outside, -⟩ := given id (amp_eq.symm.trans is_given)
    exact ⟨amp, at_id, outside⟩
  have alone : ∀ s0, ResvInv s0 → Vacant s0 as base size →
      (∀ id, args.normal.amp = some id → ∃ amp, s0.amps.get id = some amp ∧ 0 < amp.outside) →
      (Segvn.createAlone e (anonResv s0 (if args.normal.reserves = true then size else 0)) as base
        size args.normal
        (if args.normal.reserves = true then size else 0)).map
          (fun s3 => ((none : Option Errno), s3)) ≠
          .error .cannotSplit ∧
      ∀ error s', (Segvn.createAlone e
        (anonResv s0 (if args.normal.reserves = true then size else 0)) as base size
        args.normal (if args.normal.reserves = true then size else 0)).map
          (fun s3 => ((none : Option Errno), s3)) =
          .ok (error, s') → ResvInv s' := by
    intro s0 inv0 vacant0 held0
    cases made : Segvn.createAlone e (anonResv s0 (if args.normal.reserves = true then size else 0))
      as base size
      args.normal (if args.normal.reserves = true then size else 0) with
    | error panic =>
      refine ⟨fun eq => ?_, fun _ _ => by rintro ⟨⟩⟩
      obtain rfl : panic = .cannotSplit := Except.error.inj eq
      exact createAlone_ne_cannotSplit made
    | ok s3 =>
      refine ⟨(by rintro ⟨⟩), fun error s' eq => ?_⟩
      obtain ⟨-, rfl⟩ := Prod.mk.inj (Except.ok.inj eq)
      exact inv0.createAlone pos vacant0 held0 noreserve_normal rfl made
  rw [Segvn.segvnCreate]
  split
  next => exact ⟨(by rintro ⟨⟩), fun _ _ => by rintro ⟨⟩⟩
  next =>
    dsimp only
    split
    next =>
      refine ⟨(by rintro ⟨⟩), fun error s' eq => ?_⟩
      obtain ⟨-, rfl⟩ := Prod.mk.inj (Except.ok.inj eq)
      exact inv
    next resv_ok =>
      split
      next =>
        refine ⟨(by rintro ⟨⟩), fun error s' eq => ?_⟩
        obtain ⟨-, rfl⟩ := Prod.mk.inj (Except.ok.inj eq)
        rw [anonUnresv_anonResv]
        exact inv
      next =>
        refine ⟨(by rintro ⟨⟩), fun error s' eq => ?_⟩
        obtain ⟨-, rfl⟩ := Prod.mk.inj (Except.ok.inj eq)
        rw [anonUnresv_anonResv]
        exact inv
      next hat_ok add_ok =>
        by_cases none_given : args.normal.amp = none
        · have proceeds : Proceeds e args.normal := by
            refine ⟨fun reserves => ?_, hat_ok, fun has_file => ?_⟩
            · by_contra refused
              rw [Bool.not_eq_true] at refused
              exact resv_ok (by rw [reserves, refused]; rfl)
            · rwa [if_neg has_file] at add_ok
          have join_matched : JoinMatched e s as base size args.normal := fun is_private by_page =>
            matched is_private by_page (amp_eq.symm.trans none_given) proceeds
          rw [if_pos none_given]
          cases join_eq : Segvn.tryJoin e
            (anonResv s (if args.normal.reserves = true then size else 0)) as base size
            args.normal (if args.normal.reserves = true then size else 0) with
          | mk joined s2 =>
            have kept := inv.tryJoin pos vacant join_matched join_eq
            cases joined with
            | true =>
              refine ⟨(by rintro ⟨⟩), fun error s' eq => ?_⟩
              obtain ⟨-, rfl⟩ := Prod.mk.inj (Except.ok.inj eq)
              exact kept
            | false =>
              obtain ⟨s0, inv0, rfl, vacant0⟩ := kept
              refine alone s0 inv0 vacant0 fun id is_given => ?_
              rw [none_given] at is_given
              cases is_given
        · rw [if_neg none_given]
          exact alone s inv vacant held

/-! ### Runs -/

/-- A call with matching reservations does not panic over a reservation, and keeps the accounts. -/
theorem ResvInv.step {op : Op} (inv : ResvInv s) (legal : Legal s op) (matched : Matched s op) :
    step s op ≠ .error .cannotSplit ∧ ∀ error s', step s op = .ok (error, s') → ResvInv s' := by
  cases op with
  | create e as base size args => exact inv.segvnCreate legal matched
  | unmap j addr len =>
    obtain ⟨seg, at_j, len_pos, start_le, end_le⟩ := legal
    obtain ⟨s2, unmapped, inv2⟩ := inv.segvnUnmap at_j len_pos start_le end_le matched
    simp only [Segvn.step, at_j, unmapped]
    refine ⟨(by rintro ⟨⟩), fun error s' eq => ?_⟩
    obtain ⟨-, rfl⟩ := Prod.mk.inj (Except.ok.inj eq)
    exact inv2
  | setprot resv j addr len prot =>
    obtain ⟨seg, at_j, -, start_le, -⟩ := legal
    simp only [Segvn.step, at_j]
    exact ⟨(by rintro ⟨⟩), fun error s' eq => inv.segvnSetprot at_j start_le (Except.ok.inj eq)⟩
  | dup resv addMap j newas =>
    obtain ⟨seg, at_j, vacant⟩ := legal
    simp only [Segvn.step, at_j]
    exact ⟨(by rintro ⟨⟩), fun error s' eq => inv.segvnDup at_j vacant (Except.ok.inj eq)⟩
  | free j =>
    obtain ⟨seg, at_j⟩ := legal
    simp only [Segvn.step, at_j]
    refine ⟨(by rintro ⟨⟩), fun error s' eq => ?_⟩
    obtain ⟨-, rfl⟩ := Prod.mk.inj (Except.ok.inj eq)
    exact inv.segvnFree at_j
  | fault j f =>
    obtain ⟨seg, at_j, inside⟩ := legal
    simp only [Segvn.step, at_j]
    refine ⟨(by rintro ⟨⟩), fun error s' eq => ?_⟩
    obtain ⟨-, rfl⟩ := Prod.mk.inj (Except.ok.inj eq)
    exact inv.segvnFault at_j inside
  | ampMake size swresv =>
    refine ⟨(by rintro ⟨⟩), fun error s' eq => ?_⟩
    obtain ⟨-, rfl⟩ := Prod.mk.inj (Except.ok.inj eq)
    exact inv.ampMake size swresv
  | ampHold id =>
    obtain ⟨amp, at_id, held⟩ := legal
    simp only [Segvn.step, at_id]
    refine ⟨(by rintro ⟨⟩), fun error s' eq => ?_⟩
    obtain ⟨-, rfl⟩ := Prod.mk.inj (Except.ok.inj eq)
    have same := @total_put_same s.amps id amp
      { amp with refcnt := amp.refcnt + 1, outside := amp.outside + 1 }
      at_id rfl
    exact inv.of_amps rfl (inv.sound.put_outside at_id held (by omega)) (by dsimp only; rw [same])
  | ampRele id =>
    obtain ⟨amp, at_id, held⟩ := legal
    simp only [Segvn.step, at_id]
    refine ⟨(by rintro ⟨⟩), fun error s' eq => ?_⟩
    obtain ⟨-, rfl⟩ := Prod.mk.inj (Except.ok.inj eq)
    exact inv.ampRele at_id held

/-- The states that runs of legal calls with matching reservations reach. -/
inductive ReachableMatched : St → Prop
  | init : ReachableMatched St.init
  | step {s s' : St} {op : Op} {error : Option Errno} (reachable : ReachableMatched s)
      (legal : Legal s op)
      (matched : Matched s op) (eq : step s op = .ok (error, s')) : ReachableMatched s'

theorem ReachableMatched.inv (reachable : ReachableMatched s) : ResvInv s := by
  induction reachable with
  | init =>
    exact ⟨⟨fun _ _ at_j => (nomatch at_j), rfl⟩, Reachable.init.sound,
      fun _ _ at_j => nomatch at_j⟩
  | step _ legal matched eq inv => exact (inv.step legal matched).2 _ _ eq

/-- Along a run of calls with matching reservations, a private segment without `MAP_NORESERVE` holds
swap space for all of its pages or for none, what is held is what was taken, and no call panics
because it cannot split a reservation. -/
theorem reservations_accounted (s : St) (reachable : ReachableMatched s) :
    Accounted s ∧ ∀ op, Legal s op → Matched s op → step s op ≠ .error .cannotSplit :=
  ⟨reachable.inv.toAccounted, fun _ legal matched => (reachable.inv.step legal matched).1⟩

theorem reservations_accounted_touched :
    Accounted touched ∧ step touched (.unmap 0 1 1) ≠ .error .cannotSplit := by
  have created : step .init (.create roomyEnv 0 0 3 zeroArgs) = .ok (none, untouched) := by decide
  have legal : Legal .init (.create roomyEnv 0 0 3 zeroArgs) :=
    ⟨by decide, fun _ _ at_j => (nomatch at_j), fun _ given => nomatch given⟩
  have matched : Matched .init (.create roomyEnv 0 0 3 zeroArgs) :=
    fun _ _ _ _ _ member => nomatch member
  have faulted : step untouched (.fault 0 ⟨1, true, true, 7, true, true⟩) =
      .ok (none, touched) := by decide
  have legal' : Legal untouched (.fault 0 ⟨1, true, true, 7, true, true⟩) := ⟨_, rfl, by decide⟩
  have reachable := (ReachableMatched.init.step legal matched created).step legal' trivial faulted
  obtain ⟨accounted, no_panic⟩ := reservations_accounted touched reachable
  refine ⟨accounted, no_panic _ ⟨_, rfl, by decide, by decide, by decide⟩ ?_⟩
  intro seg at_j by_page
  obtain rfl := some.inj at_j
  exact absurd by_page (by decide)

/-- A private mapping of a file. -/
def fileArgs (offset : ℕ) (prot : Prot) : Crargs :=
  ⟨some 7, offset, 0, .mapPrivate, prot, 0xf, 0, none⟩

/-- Two pages of a file mapped for reading. -/
def readOnly : St where
  segs := ⟨[some (newSeg 0 0 2 (fileArgs 0 0x9))]⟩
  amps := ⟨[]⟩
  taken := 0

/-- The segment once its first page may be executed. -/
def pageProtected : St where
  segs := ⟨[some { newSeg 0 0 2 (fileArgs 0 0x9) with
    pageprot := true, pageadvice := true, vpage := some [⟨0xd, 0⟩, ⟨0x9, 0⟩] }]⟩
  amps := ⟨[]⟩
  taken := 0

/-- The segment once it took in a page mapped for writing: it holds a reservation for one page out
of three. -/
def mixed : St where
  segs := ⟨[some { newSeg 0 0 3 (fileArgs 0 0x9) with
    pageprot := true, pageadvice := true, vpage := some [⟨0xd, 0⟩, ⟨0x9, 0⟩, ⟨0xb, 0⟩],
        swresv := 1 }]⟩
  amps := ⟨[]⟩
  taken := 1

theorem reachable_mixed : Reachable mixed := by
  have created : step .init (.create roomyEnv 0 0 2 (fileArgs 0 0x9)) = .ok (none, readOnly) := by
    decide
  have legal : Legal .init (.create roomyEnv 0 0 2 (fileArgs 0 0x9)) :=
    ⟨by decide, fun _ _ at_j => (nomatch at_j), fun _ given => nomatch given⟩
  have protected_page : step readOnly (.setprot true 0 0 1 0xd) = .ok (none, pageProtected) := by
    decide
  have legal_page : Legal readOnly (.setprot true 0 0 1 0xd) :=
    ⟨_, rfl, by decide, by decide, by decide⟩
  have joined : step pageProtected (.create roomyEnv 0 2 1 (fileArgs 2 0xb)) =
      .ok (none, mixed) := by decide
  have legal_join : Legal pageProtected (.create roomyEnv 0 2 1 (fileArgs 2 0xb)) := by
    refine ⟨by decide, fun j seg at_j _ => ?_, fun _ given => nomatch given⟩
    have member := Table.mem_records.2 ⟨j, at_j⟩
    obtain rfl := mem_singleton.1 member
    exact .inl (by decide)
  exact ((Reachable.init.step legal created).step legal_page protected_page).step legal_join joined

/-- A page mapped for writing is joined with pages mapped for reading, and the reservation of the
segment can no longer be split. -/
theorem reservation_not_split : Reachable mixed ∧ ¬ Accounted mixed ∧ Legal mixed (.unmap 0 1 1) ∧
    step mixed (.unmap 0 1 1) = .error .cannotSplit := by
  refine ⟨reachable_mixed, fun accounted => ?_,
    ⟨_, rfl, by decide, by decide, by decide⟩, by decide⟩
  have whole := accounted.whole 0 _ rfl
  exact absurd (whole rfl (by decide)) (by decide)

end Sol25.Segvn
