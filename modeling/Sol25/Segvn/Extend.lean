import Sol25.Segvn.Unmap

/-!
# Extending and joining segments

`segvn_extend_prev` and `segvn_extend_next` add the pages of a new segment to a neighbour, moving
its slots to a larger array where they must, and `segvn_concat` joins two segments.  A call that
gives up half way has moved slots at most.
-/

namespace Sol25.Segvn

open List Option Function

variable {e : Env} {s s' : St} {j : ℕ} {seg ext : Seg} {rest : List Seg} {size swresv : ℕ}
  {a : Crargs}

/-- The slots of an array that was copied into a larger one. -/
theorem slotAt_copy {anon : List (Option ℕ)} {i m : ℕ} (inside : i + m ≤ anon.length)
    (before after x : ℕ) :
    slotAt (List.replicate before none ++ (anon.drop i).take m ++ List.replicate after none) x =
      if before ≤ x ∧ x < before + m then slotAt anon (i + (x - before)) else none := by
  have length_eq : (List.replicate before (none : Option ℕ) ++ (anon.drop i).take m).length =
      before + m := by
    rw [length_append, length_replicate, length_take, length_drop]
    omega
  rcases Nat.lt_or_ge x before with front | past_front
  · rw [if_neg (by omega), slotAt, append_assoc,
      getElem?_append_left (by rwa [length_replicate]), getElem?_replicate,
      if_pos front, join_some]
  rcases Nat.lt_or_ge x (before + m) with middle | past
  · rw [if_pos ⟨past_front, middle⟩, slotAt, getElem?_append_left (by rwa [length_eq]),
      getElem?_append_right (by rwa [length_replicate]), length_replicate,
      getElem?_take_of_lt (by omega), getElem?_drop, slotAt]
  · rw [if_neg (by omega), slotAt, getElem?_append_right (by rwa [length_eq]), getElem?_replicate]
    split_ifs <;> rfl

/-- The only use of an anon map: its slots lie in the array, and there are no others. -/
theorem Fits.sole_slots {id : ℕ} (fits : Fits (seg :: rest) s.amps.get) (uses : seg.amp = some id)
    {amp : Amp} (at_id : s.amps.get id = some amp)
    (sole : ¬ (1 < amp.refcnt ∨ seg.type = .mapShared)) :
    amp.refcnt ≤ 1 ∧ seg.type = .mapPrivate ∧ seg.anonIndex + seg.size ≤ amp.anon.length ∧
      ∀ x, slotAt amp.anon x = if seg.anonIndex ≤ x ∧ x < seg.anonIndex + seg.size then
        slotAt amp.anon (seg.anonIndex + (x - seg.anonIndex)) else none := by
  obtain ⟨amp', at_id', linked⟩ := fits.amp uses
  obtain rfl : amp = amp' := some.inj (at_id.symm.trans at_id')
  have is_private : seg.type = .mapPrivate := by
    cases type_eq : seg.type with
    | mapPrivate => rfl
    | mapShared => exact absurd (.inr type_eq) sole
  have refcnt_le : amp.refcnt ≤ 1 := by omega
  have none_else := (linked.sole is_private refcnt_le).1
  have covered := (linked.owned ⟨seg.use, mem_cons_self, is_private⟩).covered
  refine ⟨refcnt_le, is_private, linked.inside seg.use mem_cons_self, fun x => ?_⟩
  split_ifs with inside
  · rw [Nat.add_sub_cancel' inside.1]
  · by_contra used
    obtain ⟨u, u_mem, holds⟩ := covered x used
    rw [none_else, mem_singleton] at u_mem
    subst u_mem
    exact inside holds

variable {seg1 seg2 : Seg}

/-- `segvn_extend_prev` on the anon array. -/
theorem expandAtEnd_grown {s1 : St} (fits : Fits (seg :: rest) s.amps.get)
    (at_j : s.segs.get j = some seg) (eq : expandAtEnd e s j seg size = some (s1, seg1)) :
    ∃ n, seg1 = { seg with anonIndex := n } ∧ s1.segs = s.segs.put j (some seg1) ∧
      s1.taken = s.taken ∧
      (seg.amp = none → n = seg.anonIndex) ∧
      ∀ ext : Seg, ext.anonIndex = n → ext.base = seg.base → ext.size ≤ seg.size + size →
        GrownAmps seg ext s.amps.get s1.amps.get := by
  rw [expandAtEnd] at eq
  split at eq
  next uses =>
    simp only [some.injEq, Prod.mk.injEq] at eq
    obtain ⟨rfl, rfl⟩ := eq
    refine ⟨seg.anonIndex, rfl, (Table.put_self at_j).symm, rfl, fun _ => rfl, fun ext _ _ _ => ?_⟩
    simp only [GrownAmps, uses]
  next id uses =>
    split at eq
    next => cases eq
    next amp at_id =>
      split_ifs at eq with shared small memory
      · obtain ⟨refcnt_le, is_private, inside, slots⟩ := fits.sole_slots uses at_id shared
        simp only [some.injEq, Prod.mk.injEq] at eq
        obtain ⟨rfl, rfl⟩ := eq
        refine ⟨0, rfl, rfl, rfl, fun no_amp => (by cases uses.symm.trans no_amp),
          fun ext index_eq base_eq size_le => ?_⟩
        simp only [GrownAmps, uses]
        refine ⟨amp, _, at_id, refcnt_le, is_private, Table.put_eq_update at_id _, ?_, fun x => ?_⟩
        · rw [length_append, length_take, length_drop, length_replicate, index_eq]
          omega
        · have copied := slotAt_copy inside 0 (size + e.anonSlop) x
          rw [replicate_zero, nil_append] at copied
          rw [copied, index_eq, base_eq, Nat.sub_self]
      · obtain ⟨refcnt_le, is_private, inside, slots⟩ := fits.sole_slots uses at_id shared
        simp only [some.injEq, Prod.mk.injEq] at eq
        obtain ⟨rfl, rfl⟩ := eq
        refine ⟨seg.anonIndex, rfl, (Table.put_self at_j).symm, rfl, fun _ => rfl,
          fun ext index_eq base_eq size_le => ?_⟩
        simp only [GrownAmps, uses]
        refine ⟨amp, amp.anon, at_id, refcnt_le, is_private,
          (update_eq_self_iff.2 at_id.symm).symm, ?_,
          fun x => ?_⟩
        · rw [index_eq]
          omega
        · rw [index_eq, base_eq, Nat.sub_self, Nat.add_zero]
          exact slots x

/-- `segvn_extend_next` on the anon array. -/
theorem expandAtFront_grown {s1 : St} (fits : Fits (seg :: rest) s.amps.get)
    (at_j : s.segs.get j = some seg) (eq : expandAtFront e s j seg size = some (s1, seg1)) :
    ∃ n, seg1 = { seg with anonIndex := n } ∧ s1.segs = s.segs.put j (some seg1) ∧
      s1.taken = s.taken ∧
      (seg.amp = none → n = seg.anonIndex) ∧
      ∀ ext : Seg, ext.anonIndex + (seg.base - ext.base) = n + size →
        ext.anonIndex + ext.size ≤ n + size + seg.size →
        GrownAmps seg ext s.amps.get s1.amps.get := by
  rw [expandAtFront] at eq
  split at eq
  next uses =>
    simp only [some.injEq, Prod.mk.injEq] at eq
    obtain ⟨rfl, rfl⟩ := eq
    refine ⟨seg.anonIndex, rfl, (Table.put_self at_j).symm, rfl, fun _ => rfl, fun ext _ _ => ?_⟩
    simp only [GrownAmps, uses]
  next id uses =>
    split at eq
    next => cases eq
    next amp at_id =>
      split_ifs at eq with shared small memory
      · obtain ⟨refcnt_le, is_private, inside, slots⟩ := fits.sole_slots uses at_id shared
        simp only [some.injEq, Prod.mk.injEq] at eq
        obtain ⟨rfl, rfl⟩ := eq
        refine ⟨e.anonSlop, rfl, rfl, rfl, fun no_amp => (by cases uses.symm.trans no_amp),
          fun ext start_eq end_le => ?_⟩
        simp only [GrownAmps, uses]
        refine ⟨amp, _, at_id, refcnt_le, is_private, Table.put_eq_update at_id _, ?_, fun x => ?_⟩
        · rw [length_append, length_take, length_drop, length_replicate]
          omega
        · have copied := slotAt_copy inside (e.anonSlop + size) 0 x
          rw [replicate_zero, append_nil] at copied
          rw [copied, start_eq]
      · obtain ⟨refcnt_le, is_private, inside, slots⟩ := fits.sole_slots uses at_id shared
        simp only [some.injEq, Prod.mk.injEq] at eq
        obtain ⟨rfl, rfl⟩ := eq
        refine ⟨seg.anonIndex - size, rfl, rfl, rfl,
          fun no_amp => (by cases uses.symm.trans no_amp), fun ext start_eq end_le => ?_⟩
        simp only [GrownAmps, uses]
        refine ⟨amp, amp.anon, at_id, refcnt_le, is_private,
          (update_eq_self_iff.2 at_id.symm).symm, ?_,
          fun x => ?_⟩
        · omega
        · rw [start_eq, Nat.sub_add_cancel (by omega)]
          exact slots x

/-- The place in the file of a page of a new segment. -/
def Crargs.fileAt (a : Crargs) (base p : ℕ) : Option (ℕ × ℤ) :=
  a.vp.map fun vp => (vp, (a.offset : ℤ) + (p - base : ℕ))

theorem extendTest_eq (passes : extendTest seg a = true) :
    seg.vp = a.vp ∧ seg.maxprot = a.maxprot ∧ (seg.pageprot = true ∨ seg.prot = a.prot) ∧
      seg.type = a.type ∧
      seg.flags.setWidth 32 = a.flags := by
  rw [extendTest, decide_eq_true_eq] at passes
  exact passes

theorem extends_self (formed : seg.Formed) {n : ℕ} (index_eq : seg.amp = none → n = 0) (prot : Prot)
    (file : ℕ → Option (ℕ × ℤ)) :
    Extends seg { seg with anonIndex := n } (seg.base + seg.size) 0 prot file := by
  obtain ⟨size_pos, pageprot_eq, vpage_length, -, shared_zero⟩ := formed
  refine ⟨⟨size_pos, pageprot_eq, vpage_length, index_eq, shared_zero⟩, rfl, rfl, rfl, rfl,
    .inl ⟨rfl, rfl⟩, rfl,
    fun _ => rfl, fun _ _ _ => rfl, ?_, ?_⟩
  · intro p base_le lt_end
    omega
  · intro p base_le lt_end
    omega

/-- The protections of an array with new pages at its end. -/
theorem pageProt_extended (formed : seg.Formed) (passes : seg.pageprot = true ∨ seg.prot = a.prot)
    (vpage_eq : ext.vpage = seg.vpage.map fun vpage => vpage ++ newVpages seg size a.prot)
    (pageprot_eq : ext.pageprot = seg.pageprot) (prot_eq : ext.prot = seg.prot) :
    (∀ i < seg.size, ext.pageProt i = seg.pageProt i) ∧ ∀ i < size,
      ext.pageProt (seg.size + i) = a.prot := by
  simp only [Seg.pageProt, pageprot_eq, prot_eq, vpage_eq]
  cases vpage_some : seg.vpage with
  | none =>
    have no_pages : seg.pageprot = false := by rw [formed.pageprot_eq, vpage_some]; rfl
    simp only [no_pages] at passes ⊢
    rcases passes with impossible | same
    · cases impossible
    · exact ⟨fun _ _ => rfl, fun _ _ => same⟩
  | some vpage =>
    have pages : seg.pageprot = true := by rw [formed.pageprot_eq, vpage_some]; rfl
    have length_eq := formed.vpage_length vpage vpage_some
    simp only [pages, if_true, map_some, bind_some, newVpages]
    refine ⟨fun i i_lt => ?_, fun i i_lt => ?_⟩
    · rw [getElem?_append_left (by rwa [length_eq])]
    · rw [getElem?_append_right (by omega), length_eq, Nat.add_sub_cancel_left,
        getElem?_replicate, if_pos i_lt]
      rfl

/-- The protections of an array with new pages at its beginning. -/
theorem pageProt_extended_front (formed : seg.Formed)
    (passes : seg.pageprot = true ∨ seg.prot = a.prot)
    (vpage_eq : ext.vpage = seg.vpage.map fun vpage => newVpages seg size a.prot ++ vpage)
    (pageprot_eq : ext.pageprot = seg.pageprot) (prot_eq : ext.prot = seg.prot) :
    (∀ i, ext.pageProt (size + i) = seg.pageProt i) ∧ ∀ i < size, ext.pageProt i = a.prot := by
  simp only [Seg.pageProt, pageprot_eq, prot_eq, vpage_eq]
  cases vpage_some : seg.vpage with
  | none =>
    have no_pages : seg.pageprot = false := by rw [formed.pageprot_eq, vpage_some]; rfl
    simp only [no_pages] at passes ⊢
    rcases passes with impossible | same
    · cases impossible
    · exact ⟨fun _ => rfl, fun _ _ => same⟩
  | some vpage =>
    have pages : seg.pageprot = true := by rw [formed.pageprot_eq, vpage_some]; rfl
    simp only [pages, if_true, map_some, bind_some, newVpages]
    refine ⟨fun i => ?_, fun i i_lt => ?_⟩
    · rw [getElem?_append_right (by rw [length_replicate]; omega),
        length_replicate, Nat.add_sub_cancel_left]
    · rw [getElem?_append_left (by rwa [length_replicate]), getElem?_replicate, if_pos i_lt]
      rfl

/-- A segment in the table was extended: only where it lies, its array, its reservation and its
slots changed. -/
structure Grew (s s' : St) (j : ℕ) (seg ext : Seg) : Prop where
  segs_eq : s'.segs = s.segs.put j (some ext)
  taken_eq : s'.taken = s.taken
  grown : GrownAmps seg ext s.amps.get s'.amps.get
  same : ext = { seg with
    base := ext.base
    size := ext.size
    offset := ext.offset
    vpage := ext.vpage
    swresv := ext.swresv
    anonIndex := ext.anonIndex }

theorem extends_prev (formed : seg.Formed) (passes : extendTest seg a = true) {n : ℕ}
    (index_eq : seg.amp = none → n = seg.anonIndex)
    (offset_eq : ¬ (seg.vp ≠ none ∧ seg.offset + seg.size ≠ a.offset)) :
    Extends seg { seg with
      anonIndex := n
      vpage := seg.vpage.map fun vpage => vpage ++ newVpages seg size a.prot
      size := seg.size + size
      swresv := seg.swresv + swresv } (seg.base + seg.size) size a.prot
        (a.fileAt (seg.base + seg.size)) := by
  obtain ⟨vp_eq, -, prot_passes, type_eq, -⟩ := extendTest_eq passes
  obtain ⟨prot_old, prot_new⟩ := @pageProt_extended seg
    { seg with
      anonIndex := n
      vpage := seg.vpage.map fun vpage => vpage ++ newVpages seg size a.prot
      size := seg.size + size
      swresv := seg.swresv + swresv } size a formed prot_passes rfl rfl rfl
  have size_pos := formed.size_pos
  refine ⟨⟨?_, ?_, ?_, ?_, formed.shared_zero⟩, rfl, rfl, rfl, rfl, .inl ⟨rfl, rfl⟩, rfl,
    fun _ => rfl, ?_, ?_, ?_⟩
  · dsimp only
    omega
  · dsimp only
    rw [isSome_map, formed.pageprot_eq]
  · intro vpage is_some
    dsimp only at is_some ⊢
    obtain ⟨old, old_eq, rfl⟩ := map_eq_some_iff.1 is_some
    rw [length_append, formed.vpage_length old old_eq, newVpages, length_replicate]
  · intro no_amp
    dsimp only at no_amp ⊢
    rw [index_eq no_amp, formed.index_eq no_amp]
  · intro p base_le lt_end
    exact prot_old (p - seg.base) (by omega)
  · intro p base_le lt_end
    have prot_eq := prot_new (p - seg.base - seg.size) (by omega)
    rwa [show seg.size + (p - seg.base - seg.size) = p - seg.base by omega] at prot_eq
  · intro p base_le lt_end
    dsimp only
    rw [Crargs.fileAt, ← vp_eq]
    cases vp : seg.vp with
    | none => rfl
    | some vnode =>
      have same_offset : seg.offset + seg.size = a.offset := by
        by_contra differs
        exact offset_eq ⟨by rw [vp]; exact nofun, differs⟩
      simp only [map_some]
      congr 2
      omega

theorem segvnExtendPrev_true (fits : Fits (seg :: rest) s.amps.get) (at_j : s.segs.get j = some seg)
    (eq : segvnExtendPrev e s j seg size a swresv = (true, s')) :
    extendTest seg a = true ∧ ∃ ext, Grew s s' j seg ext ∧ ext.swresv = seg.swresv + swresv ∧
      Extends seg ext (seg.base + seg.size) size a.prot (a.fileAt (seg.base + seg.size)) := by
  rw [segvnExtendPrev] at eq
  split_ifs at eq with fails offset_ne
  · exact nomatch eq
  · exact nomatch eq
  have passes : extendTest seg a = true := by rwa [Bool.not_eq_true', Bool.not_eq_false] at fails
  split at eq
  next => exact nomatch eq
  next s1 seg1 expand =>
    obtain ⟨n, rfl, segs_eq, taken_eq, index_eq, grown⟩ := expandAtEnd_grown fits at_j expand
    split_ifs at eq with no_memory
    · exact nomatch eq
    obtain rfl := (Prod.mk.inj eq).2
    have extended := @extends_prev seg size swresv a
        (fits.formed seg mem_cons_self) passes n index_eq offset_ne
    refine ⟨passes, _, ?_, ?_, extended⟩
    · refine ⟨?_, taken_eq, grown _ rfl rfl le_rfl, rfl⟩
      dsimp only
      rw [segs_eq, Table.put_put]
      rfl
    · rfl

theorem segvnExtendPrev_false (fits : Fits (seg :: rest) s.amps.get)
    (at_j : s.segs.get j = some seg) (eq : segvnExtendPrev e s j seg size a swresv = (false, s')) :
    s' = s ∨ ∃ ext, Grew s s' j seg ext ∧ ext.swresv = seg.swresv ∧
      Extends seg ext (seg.base + seg.size) 0 a.prot (a.fileAt (seg.base + seg.size)) := by
  have formed := fits.formed seg mem_cons_self
  rw [segvnExtendPrev] at eq
  split_ifs at eq with fails offset_ne
  · exact .inl (Prod.mk.inj eq).2.symm
  · exact .inl (Prod.mk.inj eq).2.symm
  split at eq
  next => exact .inl (Prod.mk.inj eq).2.symm
  next s1 seg1 expand =>
    obtain ⟨n, rfl, segs_eq, taken_eq, index_eq, grown⟩ := expandAtEnd_grown fits at_j expand
    split_ifs at eq with no_memory
    · obtain rfl := (Prod.mk.inj eq).2
      refine .inr ⟨_, ⟨segs_eq, taken_eq, grown _ rfl rfl (Nat.le_add_right _ _), rfl⟩, rfl,
        extends_self formed (fun no_amp => ?_) _ _⟩
      rw [index_eq no_amp, formed.index_eq no_amp]
    · exact nomatch eq

theorem extends_next (formed : seg.Formed) (passes : extendTest seg a = true) {n : ℕ}
    (index_eq : seg.amp = none → n = seg.anonIndex) (room : size ≤ seg.base)
    (offset_eq : ¬ (seg.vp ≠ none ∧ (a.offset : ℤ) + size ≠ seg.offset)) :
    Extends seg { seg with
      anonIndex := n
      vpage := seg.vpage.map fun vpage => newVpages seg size a.prot ++ vpage
      size := seg.size + size
      base := seg.base - size
      offset := seg.offset - size
      swresv := seg.swresv + swresv } (seg.base - size) size a.prot
        (a.fileAt (seg.base - size)) := by
  obtain ⟨vp_eq, -, prot_passes, type_eq, -⟩ := extendTest_eq passes
  obtain ⟨prot_old, prot_new⟩ := @pageProt_extended_front seg
    { seg with
      anonIndex := n
      vpage := seg.vpage.map fun vpage => newVpages seg size a.prot ++ vpage
      size := seg.size + size
      base := seg.base - size
      offset := seg.offset - size
      swresv := seg.swresv + swresv } size a formed prot_passes rfl rfl rfl
  have size_pos := formed.size_pos
  refine ⟨⟨?_, ?_, ?_, ?_, formed.shared_zero⟩, rfl, rfl, rfl, rfl,
    .inr ⟨rfl, Nat.sub_add_cancel room⟩, rfl, ?_, ?_,
    ?_, ?_⟩
  · dsimp only
    omega
  · dsimp only
    rw [isSome_map, formed.pageprot_eq]
  · intro vpage is_some
    dsimp only at is_some ⊢
    obtain ⟨old, old_eq, rfl⟩ := map_eq_some_iff.1 is_some
    rw [length_append, formed.vpage_length old old_eq, newVpages, length_replicate, Nat.add_comm]
  · intro no_amp
    dsimp only at no_amp ⊢
    rw [index_eq no_amp, formed.index_eq no_amp]
  · intro _
    dsimp only
    omega
  · intro p base_le lt_end
    dsimp only
    rw [← prot_old (p - seg.base), show size + (p - seg.base) = p - (seg.base - size) by omega]
  · intro p base_le lt_end
    exact prot_new (p - (seg.base - size)) (by omega)
  · intro p base_le lt_end
    dsimp only
    rw [Crargs.fileAt, ← vp_eq]
    cases vp : seg.vp with
    | none => rfl
    | some vnode =>
      have same_offset : (a.offset : ℤ) + size = seg.offset := by
        by_contra differs
        exact offset_eq ⟨by rw [vp]; exact nofun, differs⟩
      simp only [map_some]
      congr 2
      omega

theorem segvnExtendNext_true (fits : Fits (seg :: rest) s.amps.get) (at_j : s.segs.get j = some seg)
    (room : size ≤ seg.base) (eq : segvnExtendNext e s j seg size a swresv = (true, s')) :
    extendTest seg a = true ∧ ∃ ext, Grew s s' j seg ext ∧ ext.swresv = seg.swresv + swresv ∧
      Extends seg ext (seg.base - size) size a.prot (a.fileAt (seg.base - size)) := by
  rw [segvnExtendNext] at eq
  split_ifs at eq with fails offset_ne
  · exact nomatch eq
  · exact nomatch eq
  have passes : extendTest seg a = true := by rwa [Bool.not_eq_true', Bool.not_eq_false] at fails
  split at eq
  next => exact nomatch eq
  next s1 seg1 expand =>
    obtain ⟨n, rfl, segs_eq, taken_eq, index_eq, grown⟩ := expandAtFront_grown fits at_j expand
    by_cases no_memory : seg.vpage ≠ none ∧ (!e.nextVpage) = true
    · rw [if_pos no_memory] at eq
      exact nomatch eq
    rw [if_neg no_memory] at eq
    obtain rfl := (Prod.mk.inj eq).2
    have extended :=
      @extends_next seg size swresv a (fits.formed seg mem_cons_self) passes n index_eq
        room offset_ne
    refine ⟨passes, _, ?_, ?_, extended⟩
    · refine ⟨?_, taken_eq, grown _ ?_ ?_, rfl⟩
      · dsimp only
        rw [segs_eq, Table.put_put]
        rfl
      · dsimp only
        omega
      · dsimp only
        omega
    · rfl

theorem segvnExtendNext_false (fits : Fits (seg :: rest) s.amps.get)
    (at_j : s.segs.get j = some seg) (eq : segvnExtendNext e s j seg size a swresv = (false, s')) :
    s' = s ∨ ∃ ext, Grew s s' j seg ext ∧ ext.swresv = seg.swresv ∧
      Extends seg ext (seg.base + seg.size) 0 a.prot (a.fileAt (seg.base + seg.size)) := by
  have formed := fits.formed seg mem_cons_self
  rw [segvnExtendNext] at eq
  split_ifs at eq with fails offset_ne
  · exact .inl (Prod.mk.inj eq).2.symm
  · exact .inl (Prod.mk.inj eq).2.symm
  split at eq
  next => exact .inl (Prod.mk.inj eq).2.symm
  next s1 seg1 expand =>
    obtain ⟨n, rfl, segs_eq, taken_eq, index_eq, grown⟩ := expandAtFront_grown fits at_j expand
    by_cases no_memory : seg.vpage ≠ none ∧ (!e.nextVpage) = true
    · rw [if_pos no_memory] at eq
      obtain rfl := (Prod.mk.inj eq).2
      right
      by_cases no_amp : seg.amp = none
      · refine ⟨{ seg with anonIndex := n }, ⟨?_, taken_eq, ?_, rfl⟩, rfl,
          extends_self formed (fun _ => ?_) _ _⟩
        · dsimp only
          rw [segs_eq, Table.put_put, if_neg (not_not.2 no_amp)]
        · have same_amps := grown { seg with anonIndex := n + size } (by simp) (by simp)
          simp only [GrownAmps, no_amp] at same_amps ⊢
          exact same_amps
        · rw [index_eq no_amp, formed.index_eq no_amp]
      · refine ⟨{ seg with anonIndex := n + size }, ⟨?_, taken_eq, grown _ ?_ ?_, rfl⟩, rfl,
          extends_self formed (fun no_amp' => absurd no_amp' no_amp) _ _⟩
        · dsimp only
          rw [segs_eq, Table.put_put, if_pos no_amp]
        · dsimp only
          omega
        · exact le_rfl
    · rw [if_neg no_memory] at eq
      cases eq

/-! ### Joining two segments -/

theorem length_joinedVpages {other : Seg} (formed : seg.Formed) :
    (joinedVpages seg other).length = seg.size := by
  rw [joinedVpages, length_map]
  cases vpage_some : seg.vpage with
  | none => rw [getD_none, length_replicate]
  | some vpage => rw [getD_some, formed.vpage_length vpage vpage_some]

theorem prot_joinedVpages {other : Seg} (formed : seg.Formed) (other_formed : other.Formed)
    (pages : seg.vpage ≠ none ∨ other.vpage ≠ none) {i : ℕ} (i_lt : i < seg.size) :
    (joinedVpages seg other)[i]?.map Vpage.prot = some (seg.pageProt i) := by
  rw [joinedVpages, getElem?_map, Seg.pageProt]
  cases vpage_some : seg.vpage with
  | none =>
    have no_pages : seg.pageprot = false := by rw [formed.pageprot_eq, vpage_some]; rfl
    have other_pages : other.pageprot = true := by
      rw [other_formed.pageprot_eq, isSome_iff_ne_none]
      exact pages.resolve_left (not_not.2 vpage_some)
    rw [getD_none, getElem?_replicate, if_pos i_lt]
    simp only [no_pages, other_pages, Bool.not_false, Bool.and_true, if_true, map_some,
      Bool.false_eq_true, if_false]
  | some vpage =>
    have has_pages : seg.pageprot = true := by rw [formed.pageprot_eq, vpage_some]; rfl
    have inside : i < vpage.length := by rwa [formed.vpage_length vpage vpage_some]
    rw [getD_some, getElem?_eq_getElem inside]
    simp only [has_pages, Bool.not_true, Bool.and_false, Bool.false_eq_true, if_false,
      map_some, if_true, bind_some, getElem?_eq_getElem inside,
      getD_some]

theorem concatTest_eq (passes : concatTest seg1 seg2 = true) :
    seg1.vp = seg2.vp ∧ (seg1.pageprot = true ∨ seg2.pageprot = true ∨ seg1.prot = seg2.prot) ∧
      seg1.type = seg2.type ∧
      seg1.flags = seg2.flags ∧ (seg1.vp = none ∨ seg1.offset + seg1.size = seg2.offset) ∧
        seg1.amp = none ∧
      seg2.amp = none := by
  rw [concatTest, decide_eq_true_eq] at passes
  obtain ⟨vp_eq, -, -, prot_eq, type_eq, -, flags_eq, offset_eq, no_amp, no_amp'⟩ := passes
  exact ⟨vp_eq, prot_eq, type_eq, flags_eq, offset_eq, no_amp, no_amp'⟩

/-- The segment that two become. -/
def joinedSeg (seg1 seg2 : Seg) : Seg :=
  if seg1.vpage = none ∧ seg2.vpage = none then
    { seg1 with swresv := seg1.swresv + seg2.swresv, size := seg1.size + seg2.size }
  else
    { seg1 with
      pageprot := seg2.pageprot || seg1.pageprot
      pageadvice := seg2.pageadvice || seg1.pageadvice
      vpage := some (joinedVpages seg1 seg2 ++ joinedVpages seg2 seg1)
      swresv := seg1.swresv + seg2.swresv
      size := seg1.size + seg2.size }

theorem joins_joinedSeg (formed : seg1.Formed) (formed' : seg2.Formed) (same_as : seg2.as = seg1.as)
    (next_eq : seg2.base = seg1.base + seg1.size) (passes : concatTest seg1 seg2 = true) :
    Joins seg1 seg2 (joinedSeg seg1 seg2) := by
  obtain ⟨vp_eq, prot_eq, type_eq, flags_eq, offset_eq, no_amp, no_amp'⟩ := concatTest_eq passes
  have size_pos := formed.size_pos
  have offset_eq' : seg1.vp ≠ none → seg2.offset = seg1.offset + seg1.size :=
    fun has_vp => (offset_eq.resolve_left has_vp).symm
  rw [joinedSeg]
  split_ifs with no_pages
  · have no_prot : seg1.pageprot = false := by rw [formed.pageprot_eq, no_pages.1]; rfl
    have no_prot' : seg2.pageprot = false := by rw [formed'.pageprot_eq, no_pages.2]; rfl
    have same_prot : seg1.prot = seg2.prot := by simpa [no_prot, no_prot'] using prot_eq
    refine ⟨⟨?_, formed.pageprot_eq, ?_, formed.index_eq, formed.shared_zero⟩, rfl, same_as, rfl,
      next_eq, rfl, no_amp,
      no_amp', no_amp, rfl, vp_eq.symm, rfl, offset_eq', fun _ _ => rfl, ?_⟩
    · dsimp only
      omega
    · intro vpage is_some
      exact nomatch no_pages.1.symm.trans is_some
    · intro i i_lt
      simp only [Seg.pageProt, no_prot, no_prot', same_prot, Bool.false_eq_true, if_false]
  · have pages : seg1.vpage ≠ none ∨ seg2.vpage ≠ none := by
      by_contra none_has
      rw [not_or, not_not, not_not] at none_has
      exact no_pages none_has
    have has_prot : (seg2.pageprot || seg1.pageprot) = true := by
      rw [Bool.or_eq_true, formed.pageprot_eq, formed'.pageprot_eq, isSome_iff_ne_none,
        isSome_iff_ne_none]
      exact pages.symm
    refine ⟨⟨?_, has_prot, ?_, formed.index_eq, formed.shared_zero⟩, rfl, same_as, rfl, next_eq,
      rfl, no_amp, no_amp',
      no_amp, rfl, vp_eq.symm, rfl, offset_eq', ?_, ?_⟩
    · dsimp only
      omega
    · intro vpage is_some
      obtain rfl := some.inj is_some
      rw [length_append, length_joinedVpages formed, length_joinedVpages formed']
    · intro i i_lt
      have found := @prot_joinedVpages seg1 seg2 formed formed' pages i i_lt
      rw [Seg.pageProt]
      dsimp only
      rw [if_pos has_prot, bind_some,
        getElem?_append_left (by rwa [length_joinedVpages formed]), found, getD_some]
    · intro i i_lt
      have found := @prot_joinedVpages seg2 seg1 formed' formed pages.symm i i_lt
      rw [Seg.pageProt]
      dsimp only
      rw [if_pos has_prot, bind_some,
        getElem?_append_right (by rw [length_joinedVpages formed]; omega),
        length_joinedVpages formed, Nat.add_sub_cancel_left, found, getD_some]

/-- `segvn_concat` joins the two segments, or leaves everything as it is. -/
theorem segvnConcat_spec {k : ℕ} :
    segvnConcat e s j seg1 k seg2 = s ∨
      concatTest seg1 seg2 = true ∧ (seg1.vpage = none ∧ seg2.vpage = none ∨ e.concatVpage = true) ∧
      segvnConcat e s j seg1 k seg2 =
        { s with segs := (s.segs.put k none).put j (some (joinedSeg seg1 seg2)) } := by
  have free_eq : ∀ seg' : Seg, seg'.amp = none → seg'.swresv = 0 →
      segvnFree s k seg' = { s with segs := s.segs.put k none } := by
    intro seg' no_amp no_resv
    simp only [segvnFree, no_amp, no_resv, anonUnresv]
    rw [Int.natCast_zero, Int.sub_zero]
  rw [segvnConcat]
  by_cases passes : concatTest seg1 seg2 = true
  · obtain ⟨-, -, -, -, -, no_amp, no_amp'⟩ := concatTest_eq passes
    rw [if_neg (by rw [passes]; rintro ⟨⟩)]
    by_cases no_pages : seg1.vpage = none ∧ seg2.vpage = none
    · rw [if_pos no_pages, joinedSeg, if_pos no_pages,
        free_eq { seg2 with swresv := 0 } no_amp' rfl]
      exact .inr ⟨passes, .inl no_pages, rfl⟩
    · rw [if_neg no_pages, joinedSeg, if_neg no_pages]
      by_cases memory : e.concatVpage = true
      · rw [if_neg (by rw [memory]; rintro ⟨⟩),
          free_eq { seg2 with vpage := none, swresv := 0 } no_amp' rfl]
        exact .inr ⟨passes, .inr memory, rfl⟩
      · rw [if_pos (by simpa using memory)]
        exact .inl rfl
  · rw [if_pos (by simpa using passes)]
    exact .inl rfl

end Sol25.Segvn
