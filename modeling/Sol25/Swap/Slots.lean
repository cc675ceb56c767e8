import Sol25.Swap.Map

/-!
# Slots and names

A page of a device is in use when its bit is set.  Allocation and freeing change which pages are in
use and nothing else of the devices; the physical names of anonymous pages are pages in use, no two
the same.
-/

namespace Sol25.Swap

open Swapinfo List Option Function

variable {s s' : State} {ds ds' : List Swapinfo}

/-! ### Devices on the list -/

/-- The page is on a device of the list and its slot is in use. -/
def Used (ds : List Swapinfo) (vp off : ℕ) : Prop :=
  ∃ d ∈ ds, d.covers vp off = true ∧ d.test (off - d.soff) = true

/-- Devices have addresses of their own, and areas of one vnode do not overlap. -/
structure Layout (ds : List Swapinfo) : Prop where
  ids : (ds.map Swapinfo.id).Nodup
  apart : ∀ d ∈ ds, ∀ e ∈ ds, d.id ≠ e.id → d.vp = e.vp → d.eoff ≤ e.soff ∨ e.eoff ≤ d.soff

/-- `silast` points to a device, if there is one. -/
def Anchored (silast : Option ℕ) (ids : List ℕ) : Prop :=
  match silast with
  | none => ids = []
  | some last => last ∈ ids

/-- The list of devices is in order. -/
structure Devices (s : State) : Prop extends Layout s.swapinfo where
  good : ∀ d ∈ s.swapinfo, d.Good
  fresh : ∀ d ∈ s.swapinfo, d.id < s.fresh
  last : Anchored s.silast (s.swapinfo.map Swapinfo.id)

variable {e : Swapinfo} {off vp : ℕ}

theorem covers_iff {d : Swapinfo} :
    d.covers vp off = true ↔ d.vp = vp ∧ d.soff ≤ off ∧ off < d.eoff := by
  rw [covers, decide_eq_true_iff]

theorem area_eq_iff {d : Swapinfo} :
    d.area = e.area ↔ d.id = e.id ∧ d.vp = e.vp ∧ d.soff = e.soff ∧ d.eoff = e.eoff ∧
      d.npgs = e.npgs ∧ d.indel = e.indel ∧ d.doingdel = e.doingdel := by
  simp only [area, Prod.mk.injEq]

theorem covers_congr {d : Swapinfo} (same : d.area = e.area) (vp off : ℕ) :
    d.covers vp off = e.covers vp off := by
  obtain ⟨-, vp_eq, soff, eoff, -⟩ := area_eq_iff.1 same
  simp only [covers, vp_eq, soff, eoff]

theorem exists_same_area (same : ds'.map area = ds.map area) (member : e ∈ ds') :
    ∃ d ∈ ds, d.area = e.area := by
  have in_map : e.area ∈ ds.map area := same ▸ List.mem_map_of_mem member
  exact List.mem_map.1 in_map

theorem ids_eq (same : ds'.map area = ds.map area) : ds'.map Swapinfo.id = ds.map Swapinfo.id := by
  have mapped := congrArg (List.map Prod.fst) same
  rwa [List.map_map, List.map_map] at mapped

section

variable (layout : Layout ds)

include layout

theorem Layout.congr (same : ds'.map area = ds.map area) : Layout ds' := by
  refine ⟨ids_eq same ▸ layout.ids, ?_⟩
  intro d' d'_mem e' e'_mem distinct same_vp
  obtain ⟨d, d_mem, d_area⟩ := exists_same_area same d'_mem
  obtain ⟨e, e_mem, e_area⟩ := exists_same_area same e'_mem
  obtain ⟨d_id, d_vp, d_soff, d_eoff, -⟩ := area_eq_iff.1 d_area
  obtain ⟨e_id, e_vp, e_soff, e_eoff, -⟩ := area_eq_iff.1 e_area
  rw [← d_eoff, ← d_soff, ← e_eoff, ← e_soff]
  exact layout.apart d d_mem e e_mem (by rwa [d_id, e_id]) (by rw [d_vp, e_vp, same_vp])

theorem Layout.eq_of_id {d : Swapinfo} (d_mem : d ∈ ds) (e_mem : e ∈ ds) (same : d.id = e.id) :
    d = e :=
  inj_on_of_nodup_map layout.ids d_mem e_mem same

theorem Layout.eq_of_covers {d : Swapinfo} (d_mem : d ∈ ds) (e_mem : e ∈ ds)
    (d_covers : d.covers vp off = true) (e_covers : e.covers vp off = true) :
    d = e := by
  by_contra distinct
  have d_range := covers_iff.1 d_covers
  have e_range := covers_iff.1 e_covers
  have := layout.apart d d_mem e e_mem (fun same => distinct (layout.eq_of_id d_mem e_mem same))
    (d_range.1.trans e_range.1.symm)
  omega

theorem Layout.used_iff {d : Swapinfo} (d_mem : d ∈ ds) (covered : d.covers vp off = true) :
    Used ds vp off ↔ d.test (off - d.soff) = true := by
  constructor
  · rintro ⟨e, e_mem, e_covers, in_use⟩
    rwa [layout.eq_of_covers d_mem e_mem covered e_covers]
  · intro in_use
    exact ⟨d, d_mem, covered, in_use⟩

theorem mem_modify {d d' : Swapinfo} (d_mem : d ∈ ds) :
    e ∈ modify ds d.id (fun _ => d') ↔ e = d' ∨ e ∈ ds ∧ e ≠ d := by
  simp only [modify, List.mem_map]
  constructor
  · rintro ⟨e', e'_mem, rfl⟩
    by_cases same : e'.id = d.id
    · rw [if_pos same]
      exact .inl rfl
    · rw [if_neg same]
      refine .inr ⟨e'_mem, ?_⟩
      rintro rfl
      exact same rfl
  · rintro (rfl | ⟨e_mem, distinct⟩)
    · exact ⟨d, d_mem, if_pos rfl⟩
    · exact ⟨e, e_mem, if_neg fun same => distinct (layout.eq_of_id e_mem d_mem same)⟩

theorem areas_modify {d d' : Swapinfo} (d_mem : d ∈ ds) (same : d'.area = d.area) :
    (modify ds d.id fun _ => d').map area = ds.map area := by
  rw [modify, List.map_map]
  refine map_congr_left fun e e_mem => ?_
  simp only [comp]
  split_ifs with is_d
  · rw [same, layout.eq_of_id e_mem d_mem is_d]
  · rfl

/-- The pages in use when one device was replaced by one with the same area. -/
theorem used_modify {d d' : Swapinfo} (d_mem : d ∈ ds) (same : d'.area = d.area) (vp off : ℕ) :
    Used (modify ds d.id fun _ => d') vp off ↔
      if d.covers vp off = true then d'.test (off - d.soff) = true else Used ds vp off := by
  have soff : d'.soff = d.soff := (area_eq_iff.1 same).2.2.1
  constructor
  · rintro ⟨e, e_mem, e_covers, in_use⟩
    rcases (mem_modify layout d_mem).1 e_mem with rfl | ⟨e_mem, distinct⟩
    · rw [covers_congr same] at e_covers
      rw [if_pos e_covers, ← soff]
      exact in_use
    · rw [if_neg fun covered => distinct (layout.eq_of_covers e_mem d_mem e_covers covered)]
      exact ⟨e, e_mem, e_covers, in_use⟩
  · split_ifs with covered
    · intro in_use
      exact ⟨d', (mem_modify layout d_mem).2 (.inl rfl), by rwa [covers_congr same], by rwa [soff]⟩
    · rintro ⟨e, e_mem, e_covers, in_use⟩
      refine ⟨e, (mem_modify layout d_mem).2 (.inr ⟨e_mem, ?_⟩), e_covers, in_use⟩
      rintro rfl
      exact covered e_covers

end

/-! ### Allocation -/

/-- What a change to the maps leaves alone. -/
structure Framed (s s' : State) : Prop where
  areas : s'.swapinfo.map area = s.swapinfo.map area
  dels : s'.dels = s.dels
  hashBits : s'.hashBits = s.hashBits
  fresh : s'.fresh = s.fresh

theorem Framed.refl (s : State) : Framed s s := ⟨rfl, rfl, rfl, rfl⟩

theorem Framed.trans {s'' : State} (first : Framed s s') (second : Framed s' s'') : Framed s s'' :=
  ⟨second.areas.trans first.areas, second.dels.trans first.dels,
    second.hashBits.trans first.hashBits,
    second.fresh.trans first.fresh⟩

theorem Devices.congr (devices : Devices s) (framed : Framed s s')
    (good : ∀ d ∈ s'.swapinfo, d.Good) (last : Anchored s'.silast (s'.swapinfo.map Swapinfo.id)) :
    Devices s' := by
  refine ⟨devices.toLayout.congr framed.areas, good, ?_, last⟩
  intro d' d'_mem
  obtain ⟨d, d_mem, same⟩ := exists_same_area framed.areas d'_mem
  rw [framed.fresh, ← (area_eq_iff.1 same).1]
  exact devices.fresh d d_mem

/-- The pages of a run. -/
def InRun (run : ℕ × ℕ × ℕ) (vp off : ℕ) : Prop :=
  vp = run.1 ∧ run.2.1 ≤ off ∧ off < run.2.1 + run.2.2

/-- A run that was handed out: pages in a row on one device, all of them free before. -/
def Handed (s : State) (run : ℕ × ℕ × ℕ) : Prop :=
  0 < run.2.2 ∧ ∃ d ∈ s.swapinfo, d.vp = run.1 ∧ d.indel = false ∧ d.soff ≤ run.2.1 ∧
    run.2.1 + run.2.2 ≤ d.eoff ∧ ∀ off, run.2.1 ≤ off → off < run.2.1 + run.2.2 →
      d.test (off - d.soff) = false

theorem mem_of_mem_order {d : Swapinfo} (member : d ∈ s.order) : d ∈ s.swapinfo := by
  rw [State.order] at member
  split at member
  · cases member
  · rcases mem_append.1 member with behind | front
    · exact (dropWhile_sublist _).subset behind
    · exact (takeWhile_sublist _).subset front

theorem next_mem {id : ℕ} (present : id ∈ ds.map Swapinfo.id) :
    Anchored (next ds id) (ds.map Swapinfo.id) := by
  rcases behind : (ds.dropWhile fun d => d.id ≠ id).tail.head? with _ | d
  · rw [next, behind]
    cases ds with
    | nil => cases present
    | cons d ds => exact mem_cons_self
  · rw [next, behind]
    have in_tail := mem_of_mem_head? behind
    have in_drop := mem_of_mem_tail in_tail
    exact List.mem_map_of_mem ((dropWhile_sublist _).subset in_drop)

theorem good_allocs {d : Swapinfo} (good : d.Good) (allocs : ℕ) :
    ({ d with allocs } : Swapinfo).Good :=
  ⟨good.size, good.range, good.positive, good.free, good.padded, good.hint⟩

/-- Setting back the counts of allocations of some devices. -/
theorem reset_spec (p : Swapinfo → Prop) [DecidablePred p] (ds : List Swapinfo) :
    (ds.map fun d => if p d then { d with allocs := 0 } else d).map area = ds.map area ∧
      (∀ vp off, Used (ds.map fun d => if p d then { d with allocs := 0 } else d) vp off ↔
        Used ds vp off) ∧
      ((∀ d ∈ ds, d.Good) → ∀ d ∈ ds.map fun d => if p d then { d with allocs := 0 } else d,
        d.Good) := by
  refine ⟨?_, fun vp off => ?_, ?_⟩
  · rw [List.map_map]
    refine map_congr_left fun d _ => ?_
    simp only [comp]
    split_ifs <;> rfl
  · simp only [Used, List.mem_map, exists_exists_and_eq_and]
    refine exists_congr fun d => and_congr_right fun _ => ?_
    split_ifs <;> rfl
  · intro good d' d'_mem
    obtain ⟨d, d_mem, rfl⟩ := List.mem_map.1 d'_mem
    split_ifs
    · exact good_allocs (good d d_mem) 0
    · exact good d d_mem

/-- What `swap_phys_alloc` does. -/
theorem Devices.swapPhysAlloc (devices : Devices s) (other : Option (ℕ × ℕ)) (lenp : ℕ) :
    ∃ run s', swapPhysAlloc s other lenp = some (run, s') ∧ Devices s' ∧ Framed s s' ∧
      s'.anons = s.anons ∧
      (∀ r, run = some r → Handed s r) ∧
      ∀ vp off, Used s'.swapinfo vp off ↔ Used s.swapinfo vp off ∨ ∃ r, run = some r ∧
        InRun r vp off := by
  let passed := (s.order.takeWhile fun d => !d.usable other).map Swapinfo.id
  let ds := s.swapinfo.map fun d => if d.id ∈ passed ∧
    d.nfpgs = 0 then { d with allocs := 0 } else d
  obtain ⟨areas, used, goods⟩ := reset_spec (fun d => d.id ∈ passed ∧ d.nfpgs = 0) s.swapinfo
  have layout : Layout ds := devices.toLayout.congr areas
  have good_ds : ∀ d ∈ ds, d.Good := goods devices.good
  rcases found : s.order.find? fun d => d.usable other with _ | d
  · refine ⟨none, { s with swapinfo := ds }, ?_, ?_, ⟨areas, rfl, rfl, rfl⟩, rfl, by simp, ?_⟩
    · simp only [Swap.swapPhysAlloc, found, ds, passed]
    · refine devices.congr ⟨areas, rfl, rfl, rfl⟩ good_ds ?_
      rw [ids_eq areas]
      exact devices.last
    · intro vp off
      simp only [reduceCtorEq, false_and, exists_false, or_false]
      exact used vp off
  · have d_mem : d ∈ s.swapinfo := mem_of_mem_order (mem_of_find?_eq_some found)
    have usable := find?_some found
    simp only [Swapinfo.usable, Bool.and_eq_true, Bool.not_eq_true', decide_eq_true_eq] at usable
    obtain ⟨⟨indel, some_free⟩, -⟩ := usable
    have good := devices.good d d_mem
    have range := good.range
    -- The device has a free page, so it was not among those whose count was set back.
    have d_mem' : d ∈ ds := List.mem_map.2 ⟨d, d_mem, if_neg (by omega)⟩
    obtain ⟨first, len, d', takes, took⟩ := good.take some_free s.maxcontig lenp
    obtain ⟨id, vp, soff, eoff, npgs, -⟩ := area_eq_iff.1 took.area
    have inside := took.inside
    have handed : Handed s (d'.vp, d'.soff + first, len) := by
      refine ⟨took.positive, d, d_mem, vp.symm, indel, by simp only; omega, by simp only; omega, ?_⟩
      intro off from_first to_end
      simp only at from_first to_end
      exact took.free _ (by omega) (by omega)
    have used_run : ∀ n allocs, n = d.id → ∀ v o,
      Used (modify ds n fun _ => { d' with allocs }) v o ↔
        Used s.swapinfo v o ∨ ∃ r, some (d'.vp, d'.soff + first, len) = some r ∧ InRun r v o := by
      rintro n allocs rfl v o
      have same : ({ d' with allocs } : Swapinfo).area = d.area := took.area
      have test_eq : ({ d' with allocs } : Swapinfo).test (o - d.soff) = d'.test (o - d.soff) := rfl
      rw [used_modify layout d_mem' same, test_eq, took.test, used]
      simp only [some.injEq, exists_eq_left', InRun]
      split_ifs with covered
      · have in_range := covers_iff.1 covered
        rw [devices.toLayout.used_iff d_mem covered]
        simp only [Bool.or_eq_true, decide_eq_true_eq]
        constructor
        · rintro (in_run | in_use)
          · exact .inr ⟨by omega, by omega, by omega⟩
          · exact .inl in_use
        · rintro (in_use | in_run)
          · exact .inr in_use
          · exact .inl (by omega)
      · constructor
        · exact .inl
        · rintro (in_use | ⟨v_eq, from_first, to_end⟩)
          · exact in_use
          · exact (covered (covers_iff.2 ⟨by omega, by omega, by omega⟩)).elim
    have framed : ∀ n allocs, n = d.id →
        (modify ds n fun _ => { d' with allocs }).map area = s.swapinfo.map area := by
      rintro n allocs rfl
      exact (@areas_modify ds layout d { d' with allocs } d_mem' took.area).trans areas
    have all_good : ∀ n allocs, n = d.id → ∀ e ∈ modify ds n fun _ =>
        { d' with allocs }, e.Good := by
      rintro n allocs rfl e e_mem
      rcases (mem_modify layout d_mem').1 e_mem with rfl | ⟨e_mem, -⟩
      · exact good_allocs took.good allocs
      · exact good_ds e e_mem
    have present : d.id ∈ ds.map Swapinfo.id := List.mem_map_of_mem d_mem'
    simp only [Swap.swapPhysAlloc, found, takes, map_some]
    split_ifs with rotates
    · have frame := framed d'.id 0 id
      refine ⟨_, _, rfl, devices.congr ⟨frame, rfl, rfl, rfl⟩ (all_good _ 0 id) ?_,
        ⟨frame, rfl, rfl, rfl⟩, rfl,
        ?_, used_run _ 0 id⟩
      · rw [ids_eq frame, ← ids_eq areas, id]
        exact next_mem present
      · intro r is_run
        rwa [← some.inj is_run]
    · have frame := framed d'.id (d'.allocs + len) id
      refine ⟨_, _, rfl, devices.congr ⟨frame, rfl, rfl, rfl⟩ (all_good _ _ id) ?_,
        ⟨frame, rfl, rfl, rfl⟩, rfl,
        ?_, used_run _ _ id⟩
      · rw [ids_eq frame]
        exact devices.last
      · intro r is_run
        rwa [← some.inj is_run]

/-- What `swap_phys_free` does with a run of pages in use. -/
theorem Devices.swapPhysFree (devices : Devices s) {d : Swapinfo} (d_mem : d ∈ s.swapinfo) {len : ℕ}
    (from_soff : d.soff ≤ off) (starts : off < d.eoff) (ends : off + len ≤ d.eoff)
    (in_use : ∀ o, off ≤ o → o < off + len → Used s.swapinfo d.vp o) :
    ∃ s', swapPhysFree s d.vp off len = some s' ∧ Devices s' ∧ Framed s s' ∧ s'.anons = s.anons ∧
      ∀ vp o, Used s'.swapinfo vp o ↔ Used s.swapinfo vp o ∧ ¬ InRun (d.vp, off, len) vp o := by
  have good := devices.good d d_mem
  have range := good.range
  have covered : d.covers d.vp off = true := covers_iff.2 ⟨rfl, from_soff, starts⟩
  have found : s.swapinfo.find? (fun e => e.covers d.vp off) = some d := by
    rcases lookup : s.swapinfo.find? (fun e => e.covers d.vp off) with _ | e
    · exact (find?_eq_none.1 lookup d d_mem covered).elim
    · have e_covers : e.covers d.vp off = true := by
        have := find?_some lookup
        exact this
      rw [lookup,
        devices.toLayout.eq_of_covers (mem_of_find?_eq_some lookup) d_mem e_covers covered]
  obtain ⟨d', releases, good', same, test⟩ := @Good.release d (off - d.soff) len good (by omega) (by
    intro slot from_page to_end
    have page_used := in_use (d.soff + slot) (by omega) (by omega)
    rw [devices.toLayout.used_iff d_mem (covers_iff.2 ⟨rfl, by omega, by omega⟩)] at page_used
    rwa [Nat.add_sub_cancel_left] at page_used)
  have id : d'.id = d.id := (area_eq_iff.1 same).1
  have areas := areas_modify devices.toLayout d_mem same
  refine ⟨{ s with swapinfo := modify s.swapinfo d.id fun _ => d' }, ?_, ?_,
    ⟨areas, rfl, rfl, rfl⟩, rfl, ?_⟩
  · simp only [Swap.swapPhysFree, found, releases, map_some, id]
  · refine devices.congr ⟨areas, rfl, rfl, rfl⟩ ?_ ?_
    · intro e e_mem
      rcases (mem_modify devices.toLayout d_mem).1 e_mem with rfl | ⟨e_mem, -⟩
      · exact good'
      · exact devices.good e e_mem
    · rw [ids_eq areas]
      exact devices.last
  · intro vp o
    rw [used_modify devices.toLayout d_mem same, test]
    simp only [InRun]
    split_ifs with page_covered
    · have in_range := covers_iff.1 page_covered
      rw [devices.toLayout.used_iff d_mem page_covered]
      simp only [Bool.and_eq_true, Bool.not_eq_true', decide_eq_false_iff_not]
      constructor
      · rintro ⟨outside, page_used⟩
        exact ⟨page_used, by omega⟩
      · rintro ⟨page_used, outside⟩
        exact ⟨by omega, page_used⟩
    · constructor
      · intro page_used
        refine ⟨page_used, ?_⟩
        rintro ⟨rfl, from_off, to_end⟩
        exact page_covered (covers_iff.2 ⟨rfl, by omega, by omega⟩)
      · exact fun both => both.1

end Sol25.Swap
