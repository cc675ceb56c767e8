import Sol25.Swap.Slots

/-!
# The system of devices and names

What holds between any two steps: the maps agree with their counters, the names of anonymous pages
are slots in use on devices of the list, no two the same, and a deletion that goes on has left no
name in the buckets it has walked through.
-/

namespace Sol25.Swap

open Swapinfo List Option

variable {s s' : State}

def names (anons : List Anon) : List (ℕ × ℕ) := anons.filterMap Anon.phys

def DelPc.bucket : DelPc → ℕ
  | walking bucket => bucket
  | freeing bucket _ _ => bucket
  | checking bucket _ => bucket

/-- The deletion is of this device. -/
structure Del.Of (t : Del) (d : Swapinfo) : Prop where
  dev : d.id = t.dev
  vp : d.vp = t.vp
  soff : d.soff = t.soff
  eoff : d.eoff = t.eoff
  pages : d.npgs = t.pages
  indel : d.indel = true

/-- The system is consistent. -/
structure Consistent (s : State) : Prop extends Devices s where
  named : ∀ vp off, (vp, off) ∈ names s.anons → Used s.swapinfo vp off
  distinct : (names s.anons).Nodup
  refs : ∀ ap ∈ s.anons, 0 < ap.refcnt
  device : ∀ t ∈ s.dels, ∃ d ∈ s.swapinfo, t.Of d
  deleting : (s.dels.map Del.dev).Nodup
  walked : ∀ t ∈ s.dels, ∀ ap ∈ s.anons, s.anonHash ap.vp ap.off < t.pc.bucket →
    t.covers ap.phys = false

theorem mem_names {anons : List Anon} {page : ℕ × ℕ} :
    page ∈ names anons ↔ ∃ ap ∈ anons, ap.phys = some page := mem_filterMap

theorem Del.covers_some {t : Del} {vp off : ℕ} :
    t.covers (some (vp, off)) = true ↔ vp = t.vp ∧ t.soff ≤ off ∧ off < t.eoff := by
  simp only [Del.covers, any_some, decide_eq_true_iff]

theorem Del.Of.covers {t : Del} {d : Swapinfo} (of : t.Of d) (vp off : ℕ) :
    t.covers (some (vp, off)) = d.covers vp off := by
  rw [Bool.eq_iff_iff, Del.covers_some, covers_iff, of.vp, of.soff, of.eoff]
  exact and_congr_left' eq_comm

theorem Consistent.device_framed (consistent : Consistent s) (framed : Framed s s') :
    ∀ t ∈ s'.dels, ∃ d ∈ s'.swapinfo, t.Of d := by
  intro t t_mem
  rw [framed.dels] at t_mem
  obtain ⟨d, d_mem, of⟩ := consistent.device t t_mem
  obtain ⟨e, e_mem, same⟩ := exists_same_area framed.areas.symm d_mem
  obtain ⟨id, vp, soff, eoff, npgs, indel, -⟩ := area_eq_iff.1 same
  exact ⟨e, e_mem, id.trans of.dev, vp.trans of.vp, soff.trans of.soff, eoff.trans of.eoff,
    npgs.trans of.pages, indel.trans of.indel⟩

theorem Consistent.not_deleting (consistent : Consistent s) {d : Swapinfo} (d_mem : d ∈ s.swapinfo)
    (usable : d.indel = false) {vp off : ℕ} (covered : d.covers vp off = true) {t : Del}
    (t_mem : t ∈ s.dels) :
    t.covers (some (vp, off)) = false := by
  obtain ⟨e, e_mem, of⟩ := consistent.device t t_mem
  rw [of.covers, Bool.eq_false_iff]
  intro e_covers
  have same := consistent.toLayout.eq_of_covers e_mem d_mem e_covers covered
  have indel := of.indel
  rw [same, usable] at indel
  cases indel

/-! ### Allocation and freeing -/

theorem Consistent.swapPhysAlloc (consistent : Consistent s) (other : Option (ℕ × ℕ)) (lenp : ℕ) :
    ∃ run s', swapPhysAlloc s other lenp = some (run, s') ∧ Consistent s' ∧ Framed s s' ∧
      s'.anons = s.anons ∧
      (∀ r, run = some r → Handed s r) ∧
      ∀ vp off, Used s'.swapinfo vp off ↔ Used s.swapinfo vp off ∨ ∃ r, run = some r ∧
        InRun r vp off := by
  obtain ⟨run, s', alloc, devices, framed, anons, handed, used⟩ :=
    consistent.toDevices.swapPhysAlloc other lenp
  refine ⟨run, s', alloc, ⟨devices, ?_, ?_, ?_, consistent.device_framed framed, ?_, ?_⟩, framed,
    anons, handed,
    used⟩
  · intro vp off named
    rw [anons] at named
    exact (used vp off).2 (.inl (consistent.named vp off named))
  · rw [anons]
    exact consistent.distinct
  · rw [anons]
    exact consistent.refs
  · rw [framed.dels]
    exact consistent.deleting
  · intro t t_mem ap ap_mem before
    rw [framed.dels] at t_mem
    rw [anons] at ap_mem
    simp only [State.anonHash, framed.hashBits] at before
    exact consistent.walked t t_mem ap ap_mem before

/-- Pages in use that no anonymous page has for a name. -/
structure Held (s : State) (d : Swapinfo) (off len : ℕ) : Prop where
  device : d ∈ s.swapinfo
  from_soff : d.soff ≤ off
  ends : off + len ≤ d.eoff
  used : ∀ o, off ≤ o → o < off + len → Used s.swapinfo d.vp o
  unnamed : ∀ o, off ≤ o → o < off + len → (d.vp, o) ∉ names s.anons

theorem Consistent.swapPhysFree (consistent : Consistent s) {d : Swapinfo} {off len : ℕ}
    (held : Held s d off len) (positive : 0 < len) :
    ∃ s', swapPhysFree s d.vp off len = some s' ∧ Consistent s' ∧ Framed s s' ∧ s'.anons = s.anons ∧
      ∀ vp o, Used s'.swapinfo vp o ↔ Used s.swapinfo vp o ∧ ¬ InRun (d.vp, off, len) vp o := by
  have ends := held.ends
  obtain ⟨s', frees, devices, framed, anons, used⟩ := consistent.toDevices.swapPhysFree held.device
    held.from_soff (by omega) held.ends held.used
  refine ⟨s', frees, ⟨devices, ?_, ?_, ?_, consistent.device_framed framed, ?_, ?_⟩, framed,
    anons, used⟩
  · intro vp o named
    rw [anons] at named
    refine (used vp o).2 ⟨consistent.named vp o named, ?_⟩
    rintro ⟨rfl, from_off, to_end⟩
    exact held.unnamed o from_off to_end named
  · rw [anons]
    exact consistent.distinct
  · rw [anons]
    exact consistent.refs
  · rw [framed.dels]
    exact consistent.deleting
  · intro t t_mem ap ap_mem before
    rw [framed.dels] at t_mem
    rw [anons] at ap_mem
    simp only [State.anonHash, framed.hashBits] at before
    exact consistent.walked t t_mem ap ap_mem before

/-! ### Renaming -/

theorem names_perm {anons : List Anon} {i : ℕ} {ap : Anon} (is_slot : anons[i]? = some ap) :
    List.Perm (names anons) (ap.phys.toList ++ names (anons.eraseIdx i)) := by
  obtain ⟨inside, at_i⟩ := List.getElem?_eq_some_iff.1 is_slot
  have perm := (getElem_cons_eraseIdx_perm inside).symm.filterMap Anon.phys
  rw [at_i] at perm
  refine perm.trans (Perm.of_eq ?_)
  cases phys : ap.phys <;> simp [phys, names]

theorem names_set_perm {anons : List Anon} {i : ℕ} {ap : Anon} (is_slot : anons[i]? = some ap)
    (ap' : Anon) :
    List.Perm (names (anons.set i ap')) (ap'.phys.toList ++ names (anons.eraseIdx i)) := by
  obtain ⟨inside, -⟩ := List.getElem?_eq_some_iff.1 is_slot
  have perm := (set_perm_cons_eraseIdx inside ap').filterMap Anon.phys
  refine perm.trans (Perm.of_eq ?_)
  cases phys : ap'.phys <;> simp [phys, names]

/-- The slot that an anonymous page gives back. -/
theorem Consistent.freePhys (consistent : Consistent s) {i : ℕ} {ap : Anon}
    (is_slot : s.anons[i]? = some ap) :
    ∃ s', freePhys s ap.phys = some s' ∧ Devices s' ∧ Framed s s' ∧ s'.anons = s.anons ∧
      ∀ vp o, Used s'.swapinfo vp o ↔ Used s.swapinfo vp o ∧ ap.phys ≠ some (vp, o) := by
  rcases phys : ap.phys with _ | ⟨pvp, poff⟩
  · exact ⟨s, rfl, consistent.toDevices, Framed.refl s, rfl, fun vp o => by simp⟩
  · have named : (pvp, poff) ∈ names s.anons := mem_names.2 ⟨ap, mem_of_getElem? is_slot, phys⟩
    obtain ⟨d, d_mem, covered, in_use⟩ := consistent.named pvp poff named
    obtain ⟨rfl, from_soff, to_eoff⟩ := covers_iff.1 covered
    obtain ⟨s', frees, devices, framed, anons, used⟩ :=
      @Devices.swapPhysFree s poff consistent.toDevices d d_mem
      1 from_soff to_eoff (by omega) (by
        intro o from_off to_end
        rw [show o = poff by omega]
        exact consistent.named _ _ named)
    refine ⟨s', frees, devices, framed, anons, fun vp o => ?_⟩
    rw [used, InRun]
    refine and_congr_right fun _ => not_congr ?_
    simp only [some.injEq, Prod.mk.injEq]
    omega

/-- An anonymous page gets another physical name, or none. -/
theorem Consistent.rename (consistent : Consistent s) {i : ℕ} {ap : Anon}
    (is_slot : s.anons[i]? = some ap) {phys : Option (ℕ × ℕ)}
    (new : ∀ vp off, phys = some (vp, off) → Used s.swapinfo vp off ∧ (vp, off) ∉ names s.anons)
    (clear : ∀ t ∈ s.dels, t.covers phys = false) :
    ∃ s', rename s i phys = some s' ∧ Consistent s' ∧ Framed s s' ∧
      s'.anons = s.anons.set i { ap with phys } ∧
      ∀ vp o, Used s'.swapinfo vp o ↔ Used s.swapinfo vp o ∧ ap.phys ≠ some (vp, o) := by
  obtain ⟨s₁, frees, devices, framed, anons, used⟩ := consistent.freePhys is_slot
  have before := names_perm is_slot
  have after := names_set_perm is_slot { ap with phys }
  have distinct := before.nodup_iff.1 consistent.distinct
  have others : ∀ page ∈ names (s.anons.eraseIdx i), page ∈ names s.anons :=
    fun page member => before.mem_iff.2 (mem_append_right _ member)
  refine ⟨{ s₁ with anons := s₁.anons.set i { ap with phys } }, ?_, ⟨?_, ?_, ?_, ?_, ?_, ?_, ?_⟩,
    ?_, ?_, used⟩
  · simp only [Swap.rename, is_slot, frees, map_some]
  · exact ⟨devices.toLayout, devices.good, devices.fresh, devices.last⟩
  · intro vp off named
    simp only [anons] at named
    refine (used vp off).2 ?_
    rcases mem_append.1 (after.mem_iff.1 named) with is_new | is_other
    · obtain ⟨is_used, unnamed⟩ := new vp off (mem_toList.1 is_new)
      refine ⟨is_used, fun is_old => unnamed ?_⟩
      exact mem_names.2 ⟨ap, mem_of_getElem? is_slot, is_old⟩
    · refine ⟨consistent.named vp off (others _ is_other), fun is_old => ?_⟩
      have apart := disjoint_of_nodup_append distinct
      exact apart (mem_toList.2 is_old) is_other
  · simp only [anons]
    refine after.nodup_iff.2 ?_
    cases phys with
    | none => exact (nodup_append.1 distinct).2.1
    | some page =>
      refine nodup_cons.2 ⟨fun is_other => ?_, (nodup_append.1 distinct).2.1⟩
      exact (new page.1 page.2 rfl).2 (others _ is_other)
  · intro ap' ap'_mem
    simp only [anons] at ap'_mem
    rcases mem_or_eq_of_mem_set ap'_mem with old | rfl
    · exact consistent.refs ap' old
    · exact consistent.refs ap (mem_of_getElem? is_slot)
  · exact @Consistent.device_framed s s₁ consistent framed
  · simp only [framed.dels]
    exact consistent.deleting
  · intro t t_mem ap' ap'_mem before_t
    simp only [framed.dels] at t_mem
    simp only [anons] at ap'_mem
    simp only [State.anonHash, framed.hashBits] at before_t
    rcases mem_or_eq_of_mem_set ap'_mem with old | rfl
    · exact consistent.walked t t_mem ap' old before_t
    · exact clear t t_mem
  · exact ⟨framed.areas, framed.dels, framed.hashBits, framed.fresh⟩
  · simp only [anons]

/-! ### Naming a kluster -/

theorem exists_of_swapAnon {vp off i : ℕ} (found : s.swapAnon vp off = some i) :
    ∃ ap, s.anons[i]? = some ap := by
  obtain ⟨inside, -⟩ := findIdx?_eq_some_iff_getElem.1 found
  exact ⟨_, getElem?_eq_getElem inside⟩

/-- The first page of a held run becomes a name; the rest is held as before. -/
theorem Consistent.rename_held (consistent : Consistent s) {d : Swapinfo} {poff rest : ℕ}
    (held : Held s d poff (rest + 1)) (usable : d.indel = false) {i : ℕ} {ap : Anon}
    (is_slot : s.anons[i]? = some ap) :
    ∃ s' d', Swap.rename s i (some (d.vp, poff)) = some s' ∧ Consistent s' ∧ Framed s s' ∧
      d'.area = d.area ∧ Held s' d' (poff + 1) rest := by
  have ends := held.ends
  have from_soff := held.from_soff
  have covered : d.covers d.vp poff = true := covers_iff.2 ⟨rfl, held.from_soff, by omega⟩
  obtain ⟨s', renames, consistent', framed, anons, used⟩ :=
    @Consistent.rename s consistent i ap is_slot (some (d.vp, poff)) (by
      intro vp off is_page
      obtain ⟨rfl, rfl⟩ := Prod.mk.inj (some.inj is_page)
      exact ⟨held.used _ (le_refl _) (by omega), held.unnamed _ (le_refl _) (by omega)⟩)
      (fun t t_mem => consistent.not_deleting held.device usable covered t_mem)
  obtain ⟨d', d'_mem, same⟩ := exists_same_area framed.areas.symm held.device
  obtain ⟨-, vp, soff, eoff, -⟩ := area_eq_iff.1 same
  refine ⟨s', d', renames, consistent', framed, same, ⟨d'_mem, by omega, by omega, ?_, ?_⟩⟩
  · intro o from_off to_end
    rw [vp]
    refine (used d.vp o).2 ⟨held.used o (by omega) (by omega), fun is_old => ?_⟩
    exact held.unnamed o (by omega) (by omega)
      (mem_names.2 ⟨ap, mem_of_getElem? is_slot, is_old⟩)
  · intro o from_off to_end named
    rw [vp, anons, (names_set_perm is_slot _).mem_iff] at named
    rcases mem_append.1 named with is_new | is_other
    · have same_page := mem_toList.1 is_new
      simp only [some.injEq, Prod.mk.injEq, true_and] at same_page
      omega
    · exact held.unnamed o (by omega) (by omega)
        ((names_perm is_slot).mem_iff.2 (mem_append_right _ is_other))

/-- The loop of `swap_newphysname` hands out names or gives slots back, and frees nothing that is
not in use. -/
theorem Consistent.nameLoop (consistent : Consistent s) {vp offset start pstart rest off poff : ℕ}
    {d : Swapinfo} (held : Held s d poff rest) (usable : d.indel = false)
    (reaches : offset < off + rest) :
    ∃ kluster s', nameLoop vp offset start d.vp pstart rest s off poff = some (kluster, s') ∧
      Consistent s' ∧ Framed s s' := by
  induction rest generalizing s d off poff with
  | zero => exact ⟨_, s, rfl, consistent, Framed.refl s⟩
  | succ rest ih =>
    simp only [Swap.nameLoop]
    obtain ⟨s₁, frees, consistent₁, framed₁, -⟩ := consistent.swapPhysFree held (Nat.succ_pos rest)
    rcases here : s.swapAnon vp off with _ | i
    · simp only
      split_ifs with past at_offset
      · exact ⟨_, s₁, by rw [frees]; rfl, consistent₁, framed₁⟩
      · exact ⟨_, s₁, by rw [frees]; rfl, consistent₁, framed₁⟩
      · rcases asked : s.swapAnon vp offset with _ | i
        · exact ⟨_, s₁, by rw [frees]; rfl, consistent₁, framed₁⟩
        · -- The page asked for lies behind this one, so the run has a slot to spare.
          obtain ⟨ap, is_slot⟩ := exists_of_swapAnon asked
          obtain ⟨s₂, d', renames, consistent₂, framed₂, same, held'⟩ :=
            consistent.rename_held held usable is_slot
          have vp_eq : d'.vp = d.vp := (area_eq_iff.1 same).2.1
          obtain ⟨s₃, frees', consistent₃, framed₃, -⟩ := consistent₂.swapPhysFree held' (by omega)
          rw [vp_eq] at frees'
          refine ⟨⟨.success, offset, 1, some (d.vp, poff)⟩, s₃, ?_, consistent₃,
            framed₂.trans framed₃⟩
          simp only [renames, bind_some, frees', map_some]
    · obtain ⟨ap, is_slot⟩ := exists_of_swapAnon here
      obtain ⟨s₂, d', renames, consistent₂, framed₂, same, held'⟩ :=
        consistent.rename_held held usable is_slot
      obtain ⟨-, vp_eq, -, -, -, indel, -⟩ := area_eq_iff.1 same
      obtain ⟨kluster, s₃, names, consistent₃, framed₃⟩ :=
        @ih s₂ consistent₂ (off + 1) (poff + 1) d' held' (indel.trans usable) (by omega)
      refine ⟨kluster, s₃, ?_, consistent₃, framed₂.trans framed₃⟩
      simp only [renames, bind_some]
      rwa [vp_eq] at names

theorem Consistent.swapNewphysname (consistent : Consistent s) {vp offset offp lenp : ℕ} :
    ∃ kluster s', swapNewphysname s vp offset offp lenp = some (kluster, s') ∧ Consistent s' ∧
      Framed s s' := by
  obtain ⟨run, s₁, alloc, consistent₁, framed₁, anons, handed, used⟩ :=
    consistent.swapPhysAlloc none (lenp * pagesize)
  simp only [Swap.swapNewphysname, alloc, bind_some]
  rcases run with _ | ⟨pvp, pstart, plen⟩
  · simp only
    split
    · exact ⟨_, s₁, rfl, consistent₁, framed₁⟩
    · exact ⟨_, s₁, rfl, consistent₁, framed₁⟩
  · obtain ⟨positive, d, d_mem, rfl, usable, from_soff, ends, free⟩ := handed _ rfl
    obtain ⟨e, e_mem, same⟩ := exists_same_area framed₁.areas.symm d_mem
    obtain ⟨-, vp_eq, soff, eoff, -, indel, -⟩ := area_eq_iff.1 same
    simp only at positive from_soff ends free
    -- The slots were free, so nothing has them for a name.
    have held : Held s₁ e pstart plen := by
      refine ⟨e_mem, by omega, by omega, ?_, ?_⟩
      · intro o from_off to_end
        rw [vp_eq]
        exact (used d.vp o).2 (.inr ⟨_, rfl, rfl, from_off, to_end⟩)
      · intro o from_off to_end named
        rw [vp_eq, anons] at named
        have in_use := consistent.named _ _ named
        rw [consistent.toLayout.used_iff d_mem (covers_iff.2 ⟨rfl, by omega, by omega⟩),
          free o from_off to_end] at in_use
        cases in_use
    obtain ⟨kluster, s₂, names, consistent₂, framed₂⟩ :=
      @Consistent.nameLoop s₁ consistent₁ vp offset
      (max offp (if plen < offset + 1 then offset + 1 - plen else 0)) pstart plen
      (max offp (if plen < offset + 1 then offset + 1 - plen else 0)) pstart e held
        (indel.trans usable)
      (by split_ifs <;> omega)
    rw [vp_eq] at names
    exact ⟨kluster, s₂, names, consistent₂, framed₁.trans framed₂⟩

end Sol25.Swap
