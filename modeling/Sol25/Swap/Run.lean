import Sol25.Swap.Names

/-!
# Runs of the swap system

No step of a consistent system panics, and every step leaves it consistent.
-/

namespace Sol25.Swap

open Swapinfo List Option

variable {s s' : State}

/-! ### Counters and references -/

section

variable (consistent : Consistent s)

include consistent

/-- The counters play no part. -/
theorem Consistent.of_same (swapinfo : s'.swapinfo = s.swapinfo) (silast : s'.silast = s.silast)
    (fresh : s'.fresh = s.fresh) (anons : s'.anons = s.anons) (hashBits : s'.hashBits = s.hashBits)
    (dels : s'.dels = s.dels) : Consistent s' := by
  refine ⟨⟨?_, ?_, ?_, ?_⟩, ?_, ?_, ?_, ?_, ?_, ?_⟩
  · rw [swapinfo]
    exact consistent.toLayout
  · rw [swapinfo]
    exact consistent.good
  · rw [swapinfo, fresh]
    exact consistent.fresh
  · rw [swapinfo, silast]
    exact consistent.last
  · rw [swapinfo, anons]
    exact consistent.named
  · rw [anons]
    exact consistent.distinct
  · rw [anons]
    exact consistent.refs
  · rw [swapinfo, dels]
    exact consistent.device
  · rw [dels]
    exact consistent.deleting
  · rw [dels, anons]
    simp only [State.anonHash, hashBits]
    exact consistent.walked

theorem Consistent.anonAlloc (vp off : ℕ) (cpu : Fin 8) :
    Consistent (anonAlloc s vp off cpu) := by
  refine ⟨⟨consistent.toLayout, consistent.good, consistent.fresh, consistent.last⟩,
    consistent.named,
    consistent.distinct, ?_, consistent.device, consistent.deleting, ?_⟩
  · intro ap ap_mem
    rcases mem_cons.1 ap_mem with rfl | old
    · exact Nat.one_pos
    · exact consistent.refs ap old
  · intro t t_mem ap ap_mem before
    rcases mem_cons.1 ap_mem with rfl | old
    · rfl
    · exact consistent.walked t t_mem ap old before

/-- A slot of an anonymous page changes, but not its names. -/
theorem Consistent.set_refcnt {i : ℕ} {ap : Anon} (is_slot : s.anons[i]? = some ap) {refcnt : ℕ}
    (positive : 0 < refcnt) :
    Consistent { s with anons := s.anons.set i { ap with refcnt } } := by
  have perm : List.Perm (names (s.anons.set i { ap with refcnt })) (names s.anons) :=
    (names_set_perm is_slot { ap with refcnt }).trans (names_perm is_slot).symm
  refine ⟨⟨consistent.toLayout, consistent.good, consistent.fresh, consistent.last⟩, ?_, ?_, ?_,
    consistent.device, consistent.deleting, ?_⟩
  · intro vp off named
    exact consistent.named vp off (perm.mem_iff.1 named)
  · exact perm.nodup_iff.2 consistent.distinct
  · intro ap' ap'_mem
    rcases mem_or_eq_of_mem_set ap'_mem with old | rfl
    · exact consistent.refs ap' old
    · exact positive
  · intro t t_mem ap' ap'_mem before
    rcases mem_or_eq_of_mem_set ap'_mem with old | rfl
    · exact consistent.walked t t_mem ap' old before
    · exact consistent.walked t t_mem ap (mem_of_getElem? is_slot) before

theorem Consistent.anonDup (i : ℕ) : Consistent (anonDup s i) := by
  rcases is_slot : s.anons[i]? with _ | ap
  · have same : s.anons.modify i (fun ap => { ap with refcnt := ap.refcnt + 1 }) = s.anons := by
      rw [List.getElem?_eq_none_iff] at is_slot
      exact modify_eq_self is_slot
    rw [Swap.anonDup, same]
    exact consistent
  · have same : s.anons.modify i (fun ap => { ap with refcnt := ap.refcnt + 1 }) =
        s.anons.set i { ap with refcnt := ap.refcnt + 1 } := by
      rw [modify_eq_set_getElem?, is_slot]
      rfl
    rw [Swap.anonDup, same]
    exact consistent.set_refcnt is_slot (Nat.succ_pos _)

theorem Consistent.anonDecref (i : ℕ) (cpu : Fin 8) :
    ∃ s', anonDecref s i cpu = some s' ∧ Consistent s' := by
  rcases is_slot : s.anons[i]? with _ | ap
  · exact ⟨s, by simp only [Swap.anonDecref, is_slot], consistent⟩
  · have positive := consistent.refs ap (mem_of_getElem? is_slot)
    simp only [Swap.anonDecref, is_slot, if_neg (Nat.pos_iff_ne_zero.1 positive)]
    split_ifs with last
    · obtain ⟨s₁, frees, devices, framed, anons, used⟩ := consistent.freePhys is_slot
      have before := names_perm is_slot
      have distinct := before.nodup_iff.1 consistent.distinct
      have shorter : List.Sublist (s.anons.eraseIdx i) s.anons := eraseIdx_sublist _ _
      refine ⟨{ s₁ with anons := s₁.anons.eraseIdx i }.aniAdd cpu 1, by rw [frees, map_some],
        ⟨⟨devices.toLayout, devices.good, devices.fresh, devices.last⟩, ?_, ?_, ?_,
          @Consistent.device_framed s s₁ consistent framed, ?_, ?_⟩⟩
      · intro vp off named
        simp only [State.aniAdd, anons] at named
        refine (used vp off).2 ⟨consistent.named vp off ?_, fun is_old => ?_⟩
        · exact before.mem_iff.2 (mem_append_right _ named)
        · exact disjoint_of_nodup_append distinct (mem_toList.2 is_old) named
      · simp only [State.aniAdd, anons]
        exact (nodup_append.1 distinct).2.1
      · intro ap' ap'_mem
        simp only [State.aniAdd, anons] at ap'_mem
        exact consistent.refs ap' (shorter.subset ap'_mem)
      · simp only [State.aniAdd, framed.dels]
        exact consistent.deleting
      · intro t t_mem ap' ap'_mem before_t
        simp only [State.aniAdd, framed.dels] at t_mem
        simp only [State.aniAdd, anons] at ap'_mem
        simp only [State.anonHash, State.aniAdd, framed.hashBits] at before_t
        exact consistent.walked t t_mem ap' (shorter.subset ap'_mem) before_t
    · exact ⟨_, rfl, consistent.set_refcnt is_slot (by omega)⟩

end

/-! ### Flags -/

/-- A change to the flags of a device. -/
def FlagsOnly (f : Swapinfo → Swapinfo) : Prop :=
  ∀ d, f d = { d with indel := (f d).indel, doingdel := (f d).doingdel }

theorem FlagsOnly.modified {f : Swapinfo → Swapinfo} (flags : FlagsOnly f) (id : ℕ) (d : Swapinfo) :
    ∃ indel doingdel, (if d.id = id then f d else d) = { d with indel, doingdel } := by
  split_ifs
  · exact ⟨_, _, flags d⟩
  · exact ⟨_, _, rfl⟩

/-- Where the deletions allow it, flags may change. -/
theorem Consistent.modify_flags (consistent : Consistent s) {f : Swapinfo → Swapinfo}
    (flags : FlagsOnly f) (id : ℕ)
    (allowed : ∀ t ∈ s.dels, ∀ d ∈ s.swapinfo, t.Of d → d.id = id → (f d).indel = true) :
    Consistent { s with swapinfo := modify s.swapinfo id f } := by
  have used : ∀ vp off, Used (modify s.swapinfo id f) vp off ↔ Used s.swapinfo vp off := by
    intro vp off
    simp only [Used, modify, List.mem_map, exists_exists_and_eq_and]
    refine exists_congr fun d => and_congr_right fun _ => ?_
    obtain ⟨indel, doingdel, same⟩ := flags.modified id d
    rw [same]
    rfl
  have ids : (modify s.swapinfo id f).map Swapinfo.id = s.swapinfo.map Swapinfo.id := by
    rw [modify, List.map_map]
    refine map_congr_left fun d _ => ?_
    obtain ⟨indel, doingdel, same⟩ := flags.modified id d
    simp only [Function.comp, same]
  refine ⟨⟨⟨?_, ?_⟩, ?_, ?_, ?_⟩, ?_, consistent.distinct, consistent.refs, ?_, consistent.deleting,
    consistent.walked⟩
  · rw [ids]
    exact consistent.ids
  · intro d' d'_mem e' e'_mem
    obtain ⟨d, d_mem, rfl⟩ := List.mem_map.1 d'_mem
    obtain ⟨e, e_mem, rfl⟩ := List.mem_map.1 e'_mem
    obtain ⟨_, _, d_same⟩ := flags.modified id d
    obtain ⟨_, _, e_same⟩ := flags.modified id e
    rw [d_same, e_same]
    exact consistent.apart d d_mem e e_mem
  · intro d' d'_mem
    obtain ⟨d, d_mem, rfl⟩ := List.mem_map.1 d'_mem
    obtain ⟨_, _, same⟩ := flags.modified id d
    have good := consistent.good d d_mem
    rw [same]
    exact ⟨good.size, good.range, good.positive, good.free, good.padded, good.hint⟩
  · intro d' d'_mem
    obtain ⟨d, d_mem, rfl⟩ := List.mem_map.1 d'_mem
    obtain ⟨_, _, same⟩ := flags.modified id d
    rw [same]
    exact consistent.fresh d d_mem
  · rw [ids]
    exact consistent.last
  · intro vp off named
    exact (used vp off).2 (consistent.named vp off named)
  · intro t t_mem
    obtain ⟨d, d_mem, of⟩ := consistent.device t t_mem
    refine ⟨_, List.mem_map_of_mem d_mem, ?_⟩
    by_cases is_id : d.id = id
    · have indel := allowed t t_mem d d_mem of is_id
      rw [if_pos is_id]
      rw [flags d] at indel ⊢
      exact ⟨of.dev, of.vp, of.soff, of.eoff, of.pages, indel⟩
    · rw [if_neg is_id]
      exact of

/-! ### Adding a device -/

theorem existing_none {vp soff eoff : ℕ} {ds : List Swapinfo}
    (free : existing vp soff eoff ds = none) :
    ∀ d ∈ ds, d.vp = vp → d.eoff ≤ soff ∨ eoff ≤ d.soff := by
  induction ds with
  | nil => simp
  | cons d ds ih =>
    simp only [existing] at free
    intro e e_mem same_vp
    rcases mem_cons.1 e_mem with rfl | e_mem
    · split_ifs at free with overlaps
      omega
    · split_ifs at free <;> exact ih free e e_mem same_vp

theorem Consistent.new_device (consistent : Consistent s) {vp soff eoff : ℕ}
    (nonempty : soff < eoff) (free : existing vp soff eoff s.swapinfo = none) :
    Consistent { s with swapinfo := s.swapinfo ++ [newSwapinfo s.fresh vp soff eoff]
                        silast := some s.fresh, fresh := s.fresh + 1 } := by
  have apart := existing_none free
  refine ⟨⟨⟨?_, ?_⟩, ?_, ?_, ?_⟩, ?_, consistent.distinct, consistent.refs, ?_, consistent.deleting,
    consistent.walked⟩
  · rw [map_append]
    refine nodup_append.2 ⟨consistent.ids, nodup_singleton _, ?_⟩
    intro id id_mem id' id'_mem same
    obtain ⟨d, d_mem, rfl⟩ := List.mem_map.1 id_mem
    have is_fresh : id' = s.fresh := mem_singleton.1 id'_mem
    have := consistent.fresh d d_mem
    omega
  · intro d d_mem e e_mem distinct same_vp
    rcases mem_append.1 d_mem with d_old | d_new <;>
      rcases mem_append.1 e_mem with e_old | e_new
    · exact consistent.apart d d_old e e_old distinct same_vp
    · rw [mem_singleton.1 e_new] at same_vp ⊢
      exact apart d d_old same_vp
    · rw [mem_singleton.1 d_new] at same_vp ⊢
      exact (apart e e_old same_vp.symm).symm
    · rw [mem_singleton.1 d_new, mem_singleton.1 e_new] at distinct
      exact (distinct rfl).elim
  · intro d d_mem
    rcases mem_append.1 d_mem with old | new
    · exact consistent.good d old
    · rw [mem_singleton.1 new]
      exact newSwapinfo_good s.fresh vp nonempty
  · intro d d_mem
    rcases mem_append.1 d_mem with old | new
    · exact Nat.lt_succ_of_lt (consistent.fresh d old)
    · rw [mem_singleton.1 new]
      exact Nat.lt_succ_self _
  · simp [Anchored, newSwapinfo]
  · intro v o named
    obtain ⟨d, d_mem, covered, in_use⟩ := consistent.named v o named
    exact ⟨d, mem_append_left _ d_mem, covered, in_use⟩
  · intro t t_mem
    obtain ⟨d, d_mem, of⟩ := consistent.device t t_mem
    exact ⟨d, mem_append_left _ d_mem, of⟩

theorem Consistent.addPages (consistent : Consistent s) (pages : ℕ) (cpu : Fin 8) :
    Consistent (s.addPages pages cpu) := by
  simp only [State.addPages]
  split_ifs <;> exact consistent.of_same rfl rfl rfl rfl rfl rfl

theorem Consistent.swapadd (consistent : Consistent s) (vp soff eoff : ℕ) (cpu : Fin 8) :
    Consistent (swapadd s vp soff eoff cpu).2 := by
  simp only [Swap.swapadd]
  split_ifs with empty
  · exact consistent
  · split
    · refine consistent.modify_flags (fun d => rfl) _ ?_
      intro t _ d _ of _
      exact of.indel
    · exact consistent
    · next free => exact (consistent.new_device (by omega) free).addPages _ _

/-! ### Deleting a device -/

theorem Consistent.swapdel (consistent : Consistent s) (vp soff : ℕ) (cpu : Fin 8) :
    Consistent (swapdel s vp soff cpu).2 := by
  simp only [Swap.swapdel]
  split
  · exact consistent
  · next d is_target =>
      have d_mem := mem_of_find?_eq_some is_target
      have target := find?_some is_target
      simp only [Bool.not_eq_true', decide_eq_true_eq] at target
      have flagged : Consistent { s with
          swapinfo := modify s.swapinfo d.id fun d =>
              { d with indel := true, doingdel := true } } :=
        consistent.modify_flags (fun d => rfl) _ fun _ _ _ _ _ _ => rfl
      have unlisted : d.id ∉ s.dels.map Del.dev := by
        intro listed
        obtain ⟨t, t_mem, is_dev⟩ := List.mem_map.1 listed
        obtain ⟨e, e_mem, of⟩ := consistent.device t t_mem
        have same := consistent.toLayout.eq_of_id e_mem d_mem (of.dev.trans is_dev)
        have indel := of.indel
        rw [same, target.2.2.1] at indel
        cases indel
      have begun : Consistent { s with
          swapinfo := modify s.swapinfo d.id fun d => { d with indel := true, doingdel := true }
          dels := s.dels ++ [⟨d.id, d.vp, d.soff, d.eoff, d.npgs, .walking 0⟩] } := by
        refine ⟨⟨flagged.toLayout, flagged.good, flagged.fresh, flagged.last⟩, flagged.named,
          flagged.distinct,
          flagged.refs, ?_, ?_, ?_⟩
        · intro t t_mem
          rcases mem_append.1 t_mem with old | new
          · exact flagged.device t old
          · rw [mem_singleton.1 new]
            refine ⟨_, List.mem_map_of_mem d_mem, ?_⟩
            rw [if_pos rfl]
            exact ⟨rfl, rfl, rfl, rfl, rfl, rfl⟩
        · rw [map_append]
          refine nodup_append.2 ⟨consistent.deleting, nodup_singleton _, ?_⟩
          intro id id_mem id' id'_mem same
          rw [same, mem_singleton.1 id'_mem] at id_mem
          exact unlisted id_mem
        · intro t t_mem ap ap_mem before
          rcases mem_append.1 t_mem with old | new
          · exact consistent.walked t old ap ap_mem before
          · rw [mem_singleton.1 new] at before
            exact (Nat.not_lt_zero _ before).elim
      split_ifs
      · exact consistent
      · exact begun.of_same rfl rfl rfl rfl rfl rfl
      · exact begun.of_same rfl rfl rfl rfl rfl rfl

variable {t : Del} {k : ℕ}

/-- A deletion goes on. -/
theorem Consistent.set_pc (consistent : Consistent s) (is_thread : s.dels[k]? = some t) {pc : DelPc}
    (walked : ∀ ap ∈ s.anons, s.anonHash ap.vp ap.off < pc.bucket → t.covers ap.phys = false) :
    Consistent { s with dels := s.dels.set k { t with pc } } := by
  have t_mem := mem_of_getElem? is_thread
  refine ⟨⟨consistent.toLayout, consistent.good, consistent.fresh, consistent.last⟩,
    consistent.named,
    consistent.distinct, consistent.refs, ?_, ?_, ?_⟩
  · intro t' t'_mem
    rcases mem_or_eq_of_mem_set t'_mem with old | rfl
    · exact consistent.device t' old
    · obtain ⟨d, d_mem, of⟩ := consistent.device t t_mem
      exact ⟨d, d_mem, of.dev, of.vp, of.soff, of.eoff, of.pages, of.indel⟩
  · have same : (s.dels.set k { t with pc }).map Del.dev = s.dels.map Del.dev := by
      refine ext_getElem? fun j => ?_
      rw [getElem?_map, getElem?_map, getElem?_set]
      split_ifs with at_k inside
      · rw [← at_k, is_thread]
        rfl
      · rw [← at_k, is_thread]
        exact (inside (List.getElem?_eq_some_iff.1 is_thread).1).elim
      · rfl
    rw [same]
    exact consistent.deleting
  · intro t' t'_mem ap ap_mem before
    rcases mem_or_eq_of_mem_set t'_mem with old | rfl
    · exact consistent.walked t' old ap ap_mem before
    · exact walked ap ap_mem before

theorem Consistent.erase (consistent : Consistent s) (k : ℕ) :
    Consistent { s with dels := s.dels.eraseIdx k } := by
  have shorter : List.Sublist (s.dels.eraseIdx k) s.dels := eraseIdx_sublist _ _
  exact ⟨⟨consistent.toLayout, consistent.good, consistent.fresh, consistent.last⟩,
    consistent.named,
    consistent.distinct, consistent.refs, fun t t_mem => consistent.device t (shorter.subset t_mem),
    consistent.deleting.sublist (shorter.map Del.dev), fun t t_mem =>
      consistent.walked t (shorter.subset t_mem)⟩

theorem Consistent.dev_ne (consistent : Consistent s) (is_thread : s.dels[k]? = some t) {t' : Del}
    (t'_mem : t' ∈ s.dels.eraseIdx k) :
    t'.dev ≠ t.dev := by
  obtain ⟨inside, at_k⟩ := List.getElem?_eq_some_iff.1 is_thread
  have perm := (getElem_cons_eraseIdx_perm inside).map Del.dev
  rw [at_k] at perm
  have distinct := perm.nodup_iff.2 consistent.deleting
  rw [map_cons, nodup_cons] at distinct
  intro same
  exact distinct.1 (same ▸ List.mem_map_of_mem t'_mem)

theorem Consistent.abort (consistent : Consistent s) (is_thread : s.dels[k]? = some t)
    (cpu : Fin 8) :
    Consistent { t.abort s cpu with dels := (t.abort s cpu).dels.eraseIdx k } := by
  have flagged := (consistent.erase k).modify_flags
    (f := fun d => { d with indel := false, doingdel := false }) (fun d => rfl) t.dev (by
      intro t' t'_mem d _ of is_dev
      exact (consistent.dev_ne is_thread t'_mem (of.dev.symm.trans is_dev)).elim)
  exact flagged.of_same rfl rfl rfl rfl rfl rfl

theorem anonHash_lt (s : State) (vp off : ℕ) : s.anonHash vp off < 2 ^ s.hashBits := by
  rw [State.anonHash, Nat.and_two_pow_sub_one_eq_mod]
  exact Nat.mod_lt _ (Nat.two_pow_pos _)

/-- `silast` when a device is taken off the list. -/
theorem Layout.anchored_filter {ds : List Swapinfo} (layout : Layout ds) {silast : Option ℕ}
    (last : Anchored silast (ds.map Swapinfo.id)) (dev : ℕ) :
    Anchored (if silast = some dev then
        match (ds.dropWhile fun d => d.id ≠ dev).tail.head? with
        | some d => some d.id
        | none => (ds.filter fun d => d.id ≠ dev).head?.map Swapinfo.id
      else silast) ((ds.filter fun d => d.id ≠ dev).map Swapinfo.id) := by
  split_ifs with is_dev
  · rcases behind : (ds.dropWhile fun d => d.id ≠ dev).tail.head? with _ | d
    · rw [behind]
      cases ds.filter fun d => d.id ≠ dev with
      | nil => rfl
      | cons d rest => exact mem_cons_self
    · rw [behind]
      -- A device behind the one that goes has another address.
      have in_tail := mem_of_mem_head? behind
      rcases rest : ds.dropWhile fun d => d.id ≠ dev with _ | ⟨e, es⟩
      · rw [rest] at in_tail
        cases in_tail
      · have is_e : e.id = dev := by
          have := head?_dropWhile_not (fun d : Swapinfo => decide (d.id ≠ dev)) ds
          rw [rest] at this
          simpa using this
        have suffix : List.Sublist (e :: es) ds := rest ▸ dropWhile_sublist _
        have distinct := (suffix.map Swapinfo.id).nodup layout.ids
        rw [map_cons, nodup_cons] at distinct
        rw [rest] at in_tail
        have d_mem : d ∈ es := in_tail
        refine List.mem_map_of_mem
          (mem_filter.2 ⟨suffix.subset (mem_cons_of_mem _ d_mem), ?_⟩)
        rw [decide_eq_true_eq, ← is_e]
        intro same
        exact distinct.1 (same ▸ List.mem_map_of_mem d_mem)
  · cases silast with
    | none =>
      have nothing : ds = [] := map_eq_nil_iff.1 last
      rw [nothing]
      rfl
    | some id =>
      obtain ⟨d, d_mem, rfl⟩ := List.mem_map.1 last
      refine List.mem_map_of_mem (mem_filter.2 ⟨d_mem, ?_⟩)
      rw [decide_eq_true_eq]
      intro same
      exact is_dev (congrArg some same)

/-- A device that has no name left is taken off the list. -/
theorem Consistent.finish (consistent : Consistent s) (is_thread : s.dels[k]? = some t)
    (walked : ∀ ap ∈ s.anons, t.covers ap.phys = false) :
    Consistent { t.finish s with dels := (t.finish s).dels.eraseIdx k } := by
  have shorter : List.Sublist (s.swapinfo.filter fun d => d.id ≠ t.dev) s.swapinfo := filter_sublist
  have fewer : List.Sublist (s.dels.eraseIdx k) s.dels := eraseIdx_sublist _ _
  obtain ⟨e, e_mem, of⟩ := consistent.device t (mem_of_getElem? is_thread)
  refine ⟨⟨⟨?_, ?_⟩, ?_, ?_, ?_⟩, ?_, consistent.distinct, consistent.refs, ?_, ?_, ?_⟩
  · exact consistent.ids.sublist (shorter.map Swapinfo.id)
  · intro d d_mem d' d'_mem
    exact consistent.apart d (shorter.subset d_mem) d' (shorter.subset d'_mem)
  · exact fun d d_mem => consistent.good d (shorter.subset d_mem)
  · exact fun d d_mem => consistent.fresh d (shorter.subset d_mem)
  · exact consistent.toLayout.anchored_filter consistent.last t.dev
  · intro vp off named
    obtain ⟨d, d_mem, covered, in_use⟩ := consistent.named vp off named
    refine ⟨d, mem_filter.2 ⟨d_mem, ?_⟩, covered, in_use⟩
    rw [decide_eq_true_eq]
    intro is_dev
    have same := consistent.toLayout.eq_of_id d_mem e_mem (is_dev.trans of.dev.symm)
    obtain ⟨ap, ap_mem, phys⟩ := mem_names.1 named
    have not_covered := walked ap ap_mem
    rw [phys, of.covers, ← same, covered] at not_covered
    cases not_covered
  · intro t' t'_mem
    obtain ⟨d, d_mem, of'⟩ := consistent.device t' (fewer.subset t'_mem)
    refine ⟨d, mem_filter.2 ⟨d_mem, ?_⟩, of'⟩
    rw [decide_eq_true_eq, of'.dev]
    exact consistent.dev_ne is_thread t'_mem
  · exact consistent.deleting.sublist (fewer.map Del.dev)
  · exact fun t' t'_mem => consistent.walked t' (fewer.subset t'_mem)

/-- `swapslot_free` frees nothing that is not in use. -/
theorem Consistent.slotFree (consistent : Consistent s) (t : Del) (vp off : ℕ) (result : Getpage) :
    ∃ failed s', t.slotFree s vp off result = some (failed, s') ∧ Consistent s' ∧ Framed s s' := by
  cases result with
  | failure => exact ⟨_, s, rfl, consistent, Framed.refl s⟩
  | gone => exact ⟨_, s, rfl, consistent, Framed.refl s⟩
  | success =>
    simp only [Del.slotFree]
    rcases found : s.swapAnon vp off with _ | i
    · exact ⟨_, s, rfl, consistent, Framed.refl s⟩
    · simp only
      split_ifs
      · obtain ⟨ap, is_slot⟩ := exists_of_swapAnon found
        obtain ⟨s', renames, consistent', framed, -⟩ :=
          @Consistent.rename s consistent i ap is_slot none
            (fun _ _ impossible => nomatch impossible)
            (fun _ _ => rfl)
        exact ⟨false, s', by rw [renames, map_some], consistent', framed⟩
      · exact ⟨_, s, rfl, consistent, Framed.refl s⟩

theorem Consistent.delStep (consistent : Consistent s) (k : ℕ) (result : Getpage) (cpu : Fin 8) :
    ∃ s', delStep s k result cpu = some s' ∧ Consistent s' := by
  rcases is_thread : s.dels[k]? with _ | t
  · exact ⟨s, by simp only [Swap.delStep, is_thread], consistent⟩
  · have walked := consistent.walked t (mem_of_getElem? is_thread)
    simp only [Swap.delStep, is_thread, Del.step]
    rcases pc : t.pc with bucket | ⟨bucket, vp, off⟩ | ⟨bucket, failed⟩
    · rw [pc] at walked
      simp only
      split_ifs with inside
      · rcases found : s.anons.find? fun ap => s.anonHash ap.vp ap.off = bucket ∧
          t.covers ap.phys with _ | ap
        · rw [found]
          refine ⟨_, rfl, consistent.set_pc is_thread fun ap ap_mem before => ?_⟩
          rcases Nat.lt_succ_iff_lt_or_eq.1 before with earlier | here
          · exact walked ap ap_mem earlier
          · have := find?_eq_none.1 found ap ap_mem
            simp only [decide_eq_true_eq, not_and, Bool.not_eq_true] at this
            exact this here
        · rw [found]
          exact ⟨_, rfl, consistent.set_pc is_thread walked⟩
      · refine ⟨_, rfl, consistent.finish is_thread fun ap ap_mem => walked ap ap_mem ?_⟩
        have := anonHash_lt s ap.vp ap.off
        simp only [DelPc.bucket]
        omega
    · obtain ⟨failed, s₁, frees, consistent₁, framed⟩ := consistent.slotFree t vp off result
      rw [← framed.dels] at is_thread
      refine ⟨{ s₁ with dels := s₁.dels.set k { t with pc := .checking bucket failed } }, ?_, ?_⟩
      · simp only [frees, map_some]
      · refine consistent₁.set_pc is_thread ?_
        have walked₁ := consistent₁.walked t (mem_of_getElem? is_thread)
        rwa [pc] at walked₁
    · simp only
      rw [pc] at walked
      split_ifs
      · exact ⟨_, rfl, consistent.set_pc is_thread walked⟩
      · exact ⟨_, rfl, consistent.abort is_thread cpu⟩

/-! ### Runs -/

/-- Slots are given back by those that hold them. -/
def Op.Valid (s : State) : Op → Prop
  | .swapPhysFree vp off len => 0 < len ∧ ∃ d, d.vp = vp ∧ Held s d off len
  | _ => True

theorem Consistent.step (consistent : Consistent s) {op : Op} (valid : op.Valid s) :
    ∃ s', step s op = some s' ∧ Consistent s' := by
  cases op with
  | anonResvmem size takemem cpu =>
    refine ⟨_, rfl, ?_⟩
    simp only [Swap.anonResvmem]
    split_ifs <;> exact consistent.of_same rfl rfl rfl rfl rfl rfl
  | anonUnresv size cpu =>
    refine ⟨_, rfl, ?_⟩
    simp only [Swap.anonUnresv]
    split_ifs <;> exact consistent.of_same rfl rfl rfl rfl rfl rfl
  | setAnoninfo => exact ⟨_, rfl, consistent.of_same rfl rfl rfl rfl rfl rfl⟩
  | anonAlloc vp off cpu => exact ⟨_, rfl, consistent.anonAlloc vp off cpu⟩
  | anonDup i => exact ⟨_, rfl, consistent.anonDup i⟩
  | anonDecref i cpu => exact consistent.anonDecref i cpu
  | swapPhysAlloc other lenp =>
    obtain ⟨run, s', alloc, consistent', -⟩ := consistent.swapPhysAlloc other lenp
    exact ⟨s', by rw [Swap.step, alloc, map_some], consistent'⟩
  | swapPhysFree vp off len =>
    obtain ⟨positive, d, rfl, held⟩ := valid
    obtain ⟨s', frees, consistent', -⟩ := consistent.swapPhysFree held positive
    exact ⟨s', frees, consistent'⟩
  | swapNewphysname vp offset offp lenp =>
    obtain ⟨kluster, s', names, consistent', -⟩ :=
      @Consistent.swapNewphysname s consistent vp offset offp lenp
    exact ⟨s', by rw [Swap.step, names, map_some], consistent'⟩
  | swapadd vp soff eoff cpu => exact ⟨_, rfl, consistent.swapadd vp soff eoff cpu⟩
  | swapdel vp soff cpu => exact ⟨_, rfl, consistent.swapdel vp soff cpu⟩
  | delStep k result cpu => exact consistent.delStep k result cpu

/-- Every step of a sequence is valid when it is taken. -/
def ValidRun : State → List Op → Prop
  | _, [] => True
  | s, op :: ops => op.Valid s ∧ ∀ s', step s op = some s' → ValidRun s' ops

/-- No sequence of steps panics; behind every one of them the maps agree with the counters, the
names are distinct slots in use, and a run that is handed out next is a row of free slots of one
device. -/
theorem swap_slots_consistent {s : State} (consistent : Consistent s) {ops : List Op}
    (valid : ValidRun s ops) :
    ∃ s', run s ops = some s' ∧ Consistent s' ∧
      ∀ other lenp, ∃ handed s'', swapPhysAlloc s' other lenp = some (handed, s'') ∧
        ∀ r, handed = some r → Handed s' r := by
  induction ops generalizing s with
  | nil =>
    refine ⟨s, rfl, consistent, fun other lenp => ?_⟩
    obtain ⟨handed, s'', alloc, -, -, -, free, -⟩ := consistent.swapPhysAlloc other lenp
    exact ⟨handed, s'', alloc, free⟩
  | cons op ops ih =>
    obtain ⟨s₁, steps, consistent₁⟩ := consistent.step valid.1
    obtain ⟨s', runs, rest⟩ := ih consistent₁ (valid.2 s₁ steps)
    exact ⟨s', by rw [run, steps, bind_some, runs], rest⟩

/-- A system without swap devices. -/
def noDevices : State where
  ani := ⟨0, 0, 0⟩
  memResv := 0
  availrmem := 100
  availsmem := 100
  minfree := 10
  desfree := 10
  pool := fun _ => 0
  swapinfo := []
  silast := none
  fresh := 0
  anons := []
  hashBits := 3
  maxcontig := 0
  dels := []

theorem noDevices_consistent : Consistent noDevices :=
  ⟨⟨⟨nodup_nil, by simp [noDevices]⟩, by simp [noDevices], by simp [noDevices], rfl⟩,
    by simp [noDevices, names], nodup_nil, by simp [noDevices], by simp [noDevices],
    nodup_nil, by simp [noDevices]⟩

/-- A device is added, an anonymous page gets a slot there and gives it back. -/
theorem swap_slots_consistent_page :
    ∃ s', run noDevices [.swapadd 1 0 40 0, .anonAlloc 9 0 0, .swapNewphysname 9 0 0 1,
      .anonDecref 0 0] =
      some s' ∧ Consistent s' := by
  obtain ⟨s', runs, consistent, -⟩ := @swap_slots_consistent noDevices noDevices_consistent
    [.swapadd 1 0 40 0, .anonAlloc 9 0 0, .swapNewphysname 9 0 0 1, .anonDecref 0 0]
    ⟨trivial, fun _ _ => ⟨trivial, fun _ _ => ⟨trivial, fun _ _ => ⟨trivial, fun _ _ => trivial⟩⟩⟩⟩
  exact ⟨s', runs, consistent⟩

end Sol25.Swap
