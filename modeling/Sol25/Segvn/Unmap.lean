import Sol25.Segvn.Pages

/-!
# Freeing and unmapping

`segvn_free` and the four cases of `segvn_unmap` cut a segment into what is left of it, and the anon
map under it goes along.
-/

namespace Sol25.Segvn

open List Option Function

variable {s s' : St} {j : ℕ} {seg piece : Seg} {addr len : ℕ}

/-- The segments and anon maps of a state fit together. -/
def St.Sound (s : St) : Prop := Fits s.segs.records s.amps.get

theorem Piece.resv (is_piece : Piece seg piece) (swresv : ℕ) :
    Piece seg { piece with swresv := swresv } := by
  obtain ⟨formed, as_eq, base_le, end_le, type_eq, amp_eq, index_eq, vp_eq, offset_eq, prot_eq⟩ :=
    is_piece
  obtain ⟨size_pos, pageprot_eq, vpage_length, index_zero, shared_zero⟩ := formed
  exact ⟨⟨size_pos, pageprot_eq, vpage_length, index_zero, shared_zero⟩, as_eq, base_le, end_le,
    type_eq, amp_eq,
    index_eq, vp_eq, offset_eq, prot_eq⟩

/-- A part of a segment with its part of the per-page array. -/
theorem Seg.Formed.slice (formed : seg.Formed) (lo n : ℕ) (pos : 0 < n) (fits : lo + n ≤ seg.size)
    (size_eq : piece.size = n) (pageprot_eq : piece.pageprot = seg.pageprot)
    (prot_eq : piece.prot = seg.prot) (type_eq : piece.type = seg.type) (vp_eq : piece.vp = seg.vp)
    (amp_eq : piece.amp = seg.amp)
    (index_eq : piece.anonIndex = if seg.amp = none then 0 else seg.anonIndex + lo)
    (vpage_eq : piece.vpage = seg.vpage.map fun vpage => (vpage.drop lo).take n) :
    piece.Formed ∧ ∀ i < n, piece.pageProt i = seg.pageProt (lo + i) := by
  refine ⟨⟨by rwa [size_eq], ?_, ?_, ?_, ?_⟩, ?_⟩
  · rw [pageprot_eq, vpage_eq, formed.pageprot_eq, isSome_map]
  · intro vpage is_some
    rw [vpage_eq, map_eq_some_iff] at is_some
    obtain ⟨old, old_eq, rfl⟩ := is_some
    rw [length_take, length_drop, formed.vpage_length old old_eq, size_eq]
    omega
  · intro no_amp
    rw [amp_eq] at no_amp
    rw [index_eq, if_pos no_amp]
  · rw [type_eq, vp_eq, amp_eq]
    exact formed.shared_zero
  · intro i i_lt
    rw [Seg.pageProt, Seg.pageProt, pageprot_eq, prot_eq, vpage_eq]
    cases seg.vpage with
    | none => rfl
    | some vpage =>
      simp only [map_some, bind_some]
      rw [getElem?_take_of_lt i_lt, getElem?_drop]

theorem Seg.Formed.drop (formed : seg.Formed) (lo n : ℕ) (all : lo + n = seg.size) :
    seg.vpage.map (fun vpage => vpage.drop lo) = seg.vpage.map fun vpage =>
      (vpage.drop lo).take n := by
  cases vpage_eq : seg.vpage with
  | none => rfl
  | some vpage =>
    have length_eq := formed.vpage_length vpage vpage_eq
    rw [map_some, map_some, take_of_length_le]
    rw [length_drop]
    omega

theorem piece_cutHead (formed : seg.Formed) (lt_size : len < seg.size) :
    Piece seg (cutHead seg len) := by
  have index_eq : (cutHead seg len).anonIndex = if seg.amp = none then 0 else
      seg.anonIndex + len := by
    simp only [cutHead]
    by_cases no_amp : seg.amp = none
    · rw [if_pos no_amp, if_pos no_amp, formed.index_eq no_amp]
    · rw [if_neg no_amp, if_neg no_amp]
  obtain ⟨piece_formed, prot_eq⟩ :=
    @Seg.Formed.slice seg (cutHead seg len) formed len (seg.size - len) (by omega)
    (by omega) rfl rfl rfl rfl rfl rfl index_eq (formed.drop len _ (by omega))
  have place_eq : (cutHead seg len).base - seg.base = len := by
    simp only [cutHead]
    omega
  refine ⟨piece_formed, rfl, ?_, ?_, rfl, rfl, ?_, rfl, ?_, ?_⟩
  · simp only [cutHead]
    omega
  · simp only [cutHead]
    omega
  · intro has_amp
    rw [place_eq, index_eq, if_neg has_amp]
  · intro has_vp
    rw [place_eq]
    simp only [cutHead, if_neg has_vp]
  · rw [place_eq]
    exact prot_eq

theorem piece_cutTail {n : ℕ} (formed : seg.Formed) (pos : 0 < n) (le_size : n ≤ seg.size) :
    Piece seg (cutTail seg n) := by
  have index_eq : (cutTail seg n).anonIndex = if seg.amp = none then 0 else seg.anonIndex + 0 := by
    simp only [cutTail]
    by_cases no_amp : seg.amp = none
    · rw [if_pos no_amp, formed.index_eq no_amp]
    · rw [if_neg no_amp, Nat.add_zero]
  obtain ⟨piece_formed, prot_eq⟩ := @Seg.Formed.slice seg (cutTail seg n) formed 0 n pos
    (by omega) rfl rfl rfl rfl
    rfl rfl index_eq rfl
  have place_eq : (cutTail seg n).base - seg.base = 0 := Nat.sub_self _
  refine ⟨piece_formed, rfl, le_rfl, ?_, rfl, rfl, ?_, rfl, ?_, ?_⟩
  · simp only [cutTail]
    omega
  · intro has_amp
    rw [place_eq, index_eq, if_neg has_amp]
  · intro _
    rw [place_eq]
    exact (Int.add_zero _).symm
  · rw [place_eq]
    exact prot_eq

theorem piece_highEnd {nbase nsize : ℕ} (formed : seg.Formed) (pos : 0 < nsize)
    (start_le : seg.base ≤ nbase) (end_eq : nbase + nsize = seg.base + seg.size) :
    Piece seg (highEnd seg nbase nsize) := by
  have index_eq : (highEnd seg nbase nsize).anonIndex =
      if seg.amp = none then 0 else seg.anonIndex + (nbase - seg.base) := rfl
  have vpage_eq : (highEnd seg nbase nsize).vpage =
      seg.vpage.map fun vpage => (vpage.drop (nbase - seg.base)).take nsize := by
    rw [← formed.drop (nbase - seg.base) nsize (by omega)]
    simp only [highEnd]
    rw [show seg.size - nsize = nbase - seg.base by omega]
  obtain ⟨piece_formed, prot_eq⟩ :=
    @Seg.Formed.slice seg (highEnd seg nbase nsize) formed (nbase - seg.base) nsize
    pos (by omega) rfl rfl rfl rfl rfl rfl index_eq vpage_eq
  refine ⟨piece_formed, rfl, start_le, end_eq.le, rfl, rfl, ?_, rfl, ?_, prot_eq⟩
  · intro has_amp
    rw [index_eq, if_neg has_amp]
    rfl
  · intro _
    simp only [highEnd]
    omega

/-! ### The calls -/

theorem segvnFree_segs : (segvnFree s j seg).segs = s.segs.put j none := by
  simp only [segvnFree, anonUnresv]
  cases seg.amp with
  | none => rfl
  | some id =>
    cases at_id : s.amps.get id with
    | none => simp only [at_id]
    | some amp =>
      simp only [at_id]
      split_ifs <;> rfl

theorem segvnFree_amps : (segvnFree s j seg).amps.get = cutAmps s.amps.get seg 0 seg.size 0 := by
  simp only [segvnFree, anonUnresv, cutAmps]
  cases seg.amp with
  | none => rfl
  | some id =>
    cases at_id : s.amps.get id with
    | none => simp only [at_id]
    | some amp =>
      simp only [at_id, cutAmp, true_and, Nat.add_zero]
      by_cases last : amp.refcnt - 1 = 0
      · rw [if_pos last, if_pos last, ← Table.put_eq_update at_id]
        split_ifs <;> rfl
      · rw [if_neg last, if_neg last, ← Table.put_eq_update at_id, cutAnon]
        by_cases is_private : seg.type = .mapPrivate
        · rw [if_pos is_private, if_pos (.inr is_private), Nat.add_zero]
        · have kept : ¬ (amp.refcnt = 1 ∨ seg.type = .mapPrivate) := by
            rintro (one | is_private')
            · omega
            · exact is_private is_private'
          rw [if_neg is_private, if_neg kept]

theorem freeUnused_segs (page n : ℕ) : (freeUnused s seg page n).segs = s.segs := by
  rw [freeUnused]
  repeat' split
  all_goals rfl

theorem freeUnused_taken (page n : ℕ) : (freeUnused s seg page n).taken = s.taken := by
  rw [freeUnused]
  repeat' split
  all_goals rfl

theorem freeUnused_amps (page n : ℕ) :
    (freeUnused s seg page n).amps.get = cutAmps s.amps.get seg page n 1 := by
  rw [freeUnused, cutAmps]
  cases seg.amp with
  | none => rfl
  | some id =>
    cases at_id : s.amps.get id with
    | none => simp only [at_id]
    | some amp =>
      simp only [at_id, cutAmp, one_ne_zero, false_and, if_false, Nat.add_sub_cancel, cutAnon]
      split_ifs with freed
      · exact Table.put_eq_update at_id _
      · exact (update_eq_self_iff.2 at_id.symm).symm

theorem holdAmp_segs (ref : Option ℕ) : (holdAmp s ref).segs = s.segs := by
  unfold holdAmp
  repeat' split
  all_goals rfl

theorem holdAmp_taken (ref : Option ℕ) : (holdAmp s ref).taken = s.taken := by
  unfold holdAmp
  repeat' split
  all_goals rfl

theorem holdAmp_amps_none : (holdAmp s none).amps = s.amps := rfl

theorem holdAmp_amps_some {id : ℕ} {amp : Amp} (at_id : s.amps.get id = some amp) :
    (holdAmp s (some id)).amps.get =
      update s.amps.get id (some { amp with refcnt := amp.refcnt + 1 }) := by
  simp only [holdAmp, at_id]
  exact Table.put_eq_update at_id _

theorem holdAmp_freeUnused_amps (page n : ℕ) :
    (holdAmp (freeUnused s seg page n) seg.amp).amps.get = cutAmps s.amps.get seg page n 2 := by
  have freed := @freeUnused_amps s seg page n
  rw [cutAmps] at freed ⊢
  cases uses : seg.amp with
  | none =>
    simp only [uses] at freed ⊢
    rw [holdAmp_amps_none, freed]
  | some id =>
    simp only [uses] at freed ⊢
    cases at_id : s.amps.get id with
    | none =>
      simp only [at_id] at freed ⊢
      have at_id' : (freeUnused s seg page n).amps.get id = none := by rw [freed, at_id]
      simp only [holdAmp, at_id', freed]
    | some amp =>
      simp only [at_id] at freed ⊢
      have at_id' : (freeUnused s seg page n).amps.get id =
          some { amp with refcnt := amp.refcnt + 1 - 1, anon := cutAnon amp seg page n } := by
        rw [freed, update_self, cutAmp, if_neg (by omega)]
      rw [holdAmp_amps_some at_id', freed, update_idem, cutAmp, if_neg (by omega)]
      rfl

theorem trimResv_amps (n : ℕ) : (trimResv s seg n).1.amps = s.amps := by
  rw [trimResv]
  split_ifs <;> rfl

theorem trimResv_segs (n : ℕ) : (trimResv s seg n).1.segs = s.segs := by
  rw [trimResv]
  split_ifs <;> rfl

theorem trimResv_seg (n : ℕ) : ∃ swresv, (trimResv s seg n).2 = { seg with swresv := swresv } := by
  rw [trimResv]
  split_ifs
  · exact ⟨seg.swresv, rfl⟩
  · exact ⟨_, rfl⟩
  · exact ⟨_, rfl⟩

theorem splitResv_ok {nseg : Seg} {r : St × Seg × Seg} (ok : splitResv s seg nseg len = .ok r) :
    r.1.segs = s.segs ∧ r.1.amps = s.amps ∧ (∃ swresv, r.2.1 = { seg with swresv := swresv }) ∧
      ∃ swresv, r.2.2 = { nseg with swresv := swresv } := by
  rw [splitResv] at ok
  split_ifs at ok
  · obtain rfl := Except.ok.inj ok
    exact ⟨rfl, rfl, ⟨seg.swresv, rfl⟩, nseg.swresv, rfl⟩
  · obtain rfl := Except.ok.inj ok
    exact ⟨rfl, rfl, ⟨_, rfl⟩, _, rfl⟩
  · obtain rfl := Except.ok.inj ok
    exact ⟨rfl, rfl, ⟨_, rfl⟩, _, rfl⟩

theorem cutInto_unmap {pieces : List Seg} (start_le : seg.base ≤ addr)
    (end_le : addr + len ≤ seg.base + seg.size) (piece : ∀ piece ∈ pieces, Piece seg piece)
    (apart : pieces.Pairwise fun a b => Apart a.base a.size b.base b.size)
    (spans : ∀ p, (∃ piece ∈ pieces, piece.base ≤ p ∧ p < piece.base + piece.size) ↔
      (seg.base ≤ p ∧ p < addr) ∨ (addr + len ≤ p ∧ p < seg.base + seg.size)) :
    CutInto seg addr len pieces := by
  refine ⟨start_le, end_le, piece, apart, fun p => ?_⟩
  rw [spans p]
  omega

theorem segvnUnmap_cut {rest : List Seg} (formed : seg.Formed) (len_pos : 0 < len)
    (others : ∀ entry, (s.segs.put j entry).records.Perm (entry.toList ++ rest))
    (ok : segvnUnmap s j seg addr len = .ok s') :
    ∃ pieces, CutInto seg addr len pieces ∧ s'.segs.records.Perm (pieces ++ rest) ∧
      s'.amps.get = cutAmps s.amps.get seg (addr - seg.base) len pieces.length := by
  rw [segvnUnmap] at ok
  split_ifs at ok with outside whole head tail
  · obtain rfl := Except.ok.inj ok
    obtain ⟨rfl, rfl⟩ := whole
    refine ⟨[], cutInto_unmap le_rfl le_rfl (fun _ => by rintro ⟨⟩) List.Pairwise.nil ?_, ?_, ?_⟩
    · intro p
      simp only [not_mem_nil, false_and, exists_false, false_iff]
      omega
    · rw [segvnFree_segs]
      exact others none
    · rw [segvnFree_amps, Nat.sub_self, length_nil]
  · obtain rfl := Except.ok.inj ok
    subst head
    have is_piece := piece_cutHead formed (by omega : len < seg.size)
    obtain ⟨swresv, seg_eq⟩ := @trimResv_seg (freeUnused s seg 0 len) (cutHead seg len) len
    refine ⟨[(trimResv (freeUnused s seg 0 len) (cutHead seg len) len).2],
      cutInto_unmap le_rfl (by omega) ?_ (pairwise_singleton _ _) ?_, ?_, ?_⟩
    · intro piece member
      rw [mem_singleton.1 member, seg_eq]
      exact is_piece.resv swresv
    · intro p
      simp only [mem_singleton, exists_eq_left]
      rw [seg_eq]
      simp only [cutHead]
      omega
    · dsimp only
      rw [trimResv_segs, freeUnused_segs]
      exact others (some _)
    · dsimp only
      rw [trimResv_amps, freeUnused_amps, Nat.sub_self, length_singleton]
  · obtain rfl := Except.ok.inj ok
    have is_piece := piece_cutTail formed (by omega : 0 < seg.size - len) (Nat.sub_le _ _)
    obtain ⟨swresv, seg_eq⟩ :=
      @trimResv_seg (freeUnused s seg (seg.size - len) len) (cutTail seg (seg.size - len)) len
    refine ⟨[(trimResv (freeUnused s seg (seg.size - len) len)
      (cutTail seg (seg.size - len)) len).2],
      cutInto_unmap (by omega) (by omega) ?_ (pairwise_singleton _ _) ?_, ?_, ?_⟩
    · intro piece member
      rw [mem_singleton.1 member, seg_eq]
      exact is_piece.resv swresv
    · intro p
      simp only [mem_singleton, exists_eq_left]
      rw [seg_eq]
      simp only [cutTail]
      omega
    · dsimp only
      rw [trimResv_segs, freeUnused_segs]
      exact others (some _)
    · dsimp only
      rw [trimResv_amps, freeUnused_amps, length_singleton,
        show seg.size - len = addr - seg.base by omega]
  · dsimp only at ok
    cases split_eq : splitResv (holdAmp (freeUnused s seg (addr - seg.base) len) seg.amp)
        (cutTail seg (addr - seg.base))
          (highEnd seg (addr + len) (seg.base + seg.size - (addr + len))) len with
    | error panic =>
      rw [split_eq] at ok
      cases ok
    | ok r =>
      rw [split_eq] at ok
      obtain rfl := Except.ok.inj ok
      obtain ⟨segs_eq, amps_eq, ⟨low, low_eq⟩, high, high_eq⟩ := splitResv_ok split_eq
      have is_low := piece_cutTail formed (by omega : 0 < addr - seg.base) (by omega)
      have is_high := @piece_highEnd seg (addr + len) (seg.base + seg.size - (addr + len)) formed
        (by omega) (by omega)
        (by omega)
      refine ⟨[r.2.1, r.2.2], cutInto_unmap (by omega) (by omega) ?_ ?_ ?_, ?_, ?_⟩
      · intro piece member
        rcases mem_cons.1 member with rfl | member
        · rw [low_eq]
          exact is_low.resv low
        · rw [mem_singleton.1 member, high_eq]
          exact is_high.resv high
      · rw [low_eq, high_eq]
        refine pairwise_pair.2 (.inl ?_)
        simp only [cutTail, highEnd]
        omega
      · intro p
        simp only [mem_cons, not_mem_nil, or_false, exists_eq_or_imp, exists_eq_left]
        rw [low_eq, high_eq]
        simp only [cutTail, highEnd]
        omega
      · dsimp only
        rw [Table.records_add, segs_eq, holdAmp_segs, freeUnused_segs]
        exact ((others (some r.2.1)).append_right _).trans
          ((perm_append_comm).cons _ |>.trans (List.Perm.refl _))
      · dsimp only
        rw [amps_eq, holdAmp_freeUnused_amps]
        rfl

end Sol25.Segvn
