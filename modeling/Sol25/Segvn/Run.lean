import Sol25.Segvn.PageMap

/-!
# Runs of the driver

Every call keeps segments and anon maps fitting together, so the page map changes as the calls ask
in every state a run can reach.
-/

namespace Sol25.Segvn

open List Option

variable {s s' : St} {j : ℕ} {seg : Seg} {addr len : ℕ} {prot : Prot} {error : Option Errno}

theorem segvnUnmap_sound (sound : s.Sound) (at_j : s.segs.get j = some seg) (len_pos : 0 < len)
    (eq : segvnUnmap s j seg addr len = .ok s') : s'.Sound := by
  obtain ⟨rest, -, others, fits, -⟩ := sound.split at_j
  obtain ⟨pieces, into, records_eq, amps_eq⟩ := segvnUnmap_cut (sound.formed at_j) len_pos others eq
  rw [St.Sound, amps_eq]
  exact (into.fits fits).perm records_eq.symm

variable {resv : Bool} {error : Option Errno} {as id p : ℕ}

section

variable (sound : s.Sound) (at_j : s.segs.get j = some seg)

include sound at_j

theorem segvnUnmap_shows {page : Page} (len_pos : 0 < len)
    (eq : segvnUnmap s j seg addr len = .ok s') :
    s'.Shows as p page ↔ s.Shows as p page ∧ ¬ (seg.as = as ∧ addr ≤ p ∧ p < addr + len) := by
  obtain ⟨rest, before, others, fits, -⟩ := sound.split at_j
  obtain ⟨pieces, into, records_eq, amps_eq⟩ := segvnUnmap_cut (sound.formed at_j) len_pos others eq
  rw [St.Shows, St.Shows, Shows.perm records_eq, amps_eq, Shows.perm before]
  exact into.shows fits

theorem segvnFree_sound :
    (segvnFree s j seg).Sound := by
  have size_pos := (sound.formed at_j).size_pos
  have eq : segvnUnmap s j seg seg.base seg.size = .ok (segvnFree s j seg) := by
    rw [segvnUnmap, if_neg (by omega), if_pos ⟨rfl, rfl⟩]
  exact segvnUnmap_sound sound at_j size_pos eq

theorem segvnSetprot_sound (start_le : seg.base ≤ addr)
    (eq : segvnSetprot resv s j seg addr len prot = (error, s')) :
    s'.Sound := by
  rcases segvnSetprot_spec (sound.formed at_j) start_le eq with
    ⟨-, rfl⟩ | ⟨-, amps_eq, seg', segs_eq, protects⟩
  · exact sound
  · obtain ⟨rest, -, others, fits, -⟩ := sound.split at_j
    rw [St.Sound, amps_eq, segs_eq]
    exact (protects.fits fits).perm (others (some seg')).symm

/-! ### Copies -/

theorem segvnDup_sound {addMap : Option Errno} {newas : ℕ}
    (vacant : Vacant s newas seg.base seg.size)
    (eq : segvnDup resv addMap s seg newas = (error, s')) : s'.Sound := by
  have formed := sound.formed at_j
  have formed' : ∀ id n, (id = none → n = 0) → (seg.amp ≠ none → id ≠ none) →
      Seg.Formed { seg with as := newas, amp := id, anonIndex := n } := by
    intro id n index_eq some_amp
    exact ⟨formed.size_pos, formed.pageprot_eq, formed.vpage_length, index_eq,
      fun is_shared no_vp => some_amp (formed.shared_zero is_shared no_vp)⟩
  rw [segvnDup] at eq
  split at eq
  next =>
    obtain ⟨-, rfl⟩ := Prod.mk.inj eq
    exact sound
  next =>
    obtain ⟨-, rfl⟩ := Prod.mk.inj eq
    have sound1 : (anonResv s seg.swresv).Sound := sound
    have placed : ∀ id n, (id = none → n = 0) → (seg.amp ≠ none → id ≠ none) →
        Placed ({ seg with as := newas, amp := id, anonIndex := n } :: s.segs.records) :=
      fun id n index_eq some_amp => Placed.of_vacant sound (formed' id n index_eq some_amp) vacant
    split
    next no_amp =>
      rw [St.Sound, Table.records_add]
      refine (Fits.add_none sound (placed seg.amp 0 (fun _ => rfl) id) no_amp).perm
        (perm_append_singleton _ _).symm
    next id uses =>
      obtain ⟨rest, records_eq, -, fits, -⟩ := sound.split at_j
      obtain ⟨amp, at_id, linked⟩ := fits.amp uses
      split
      next is_shared =>
        have at_id' : (anonResv s seg.swresv).amps.get id = some amp := at_id
        have has_amp : seg.amp ≠ none := by rw [uses]; rintro ⟨⟩
        have linked' : Linked amp (usesOf s.segs.records id) := by
          have linked_id := sound.linked id
          rw [at_id] at linked_id
          exact linked_id
        have none_private : ∀ u ∈ usesOf s.segs.records id, u.type ≠ .mapPrivate := by
          intro u member is_private
          have all_private := (linked'.owned ⟨u, member, is_private⟩).all_private
          have self_private := all_private seg.use (mem_usesOf (Table.mem_records.2 ⟨j, at_j⟩) uses)
          rw [Seg.use, is_shared] at self_private
          cases self_private
        have shared := linked'.share none_private (v := Seg.use { seg with as := newas })
          (by simp only [Seg.use, is_shared]; rintro ⟨⟩) (linked.inside seg.use mem_cons_self)
        rw [St.Sound]
        dsimp only
        rw [Table.records_add, holdAmp_amps_some at_id', holdAmp_segs]
        exact (Fits.add_use sound
          (placed seg.amp seg.anonIndex formed.index_eq fun some_amp => some_amp) uses shared).perm
          (perm_append_singleton _ _).symm
      next =>
        have at_id' : (anonResv s seg.swresv).amps.get id = some amp := at_id
        simp only [at_id']
        refine sound1.add_fresh
          (placed (some _) 0 (fun impossible => by cases impossible) fun _ => by rintro ⟨⟩)
          rfl rfl ?_ fun _ => rfl
        have inside := linked.inside seg.use mem_cons_self
        rw [length_take, length_drop]
        simp only [Seg.use] at inside
        dsimp only
        omega

/-! ### Faults -/

theorem faultAmp_sound {f : Fault} :
    (faultAmp s j seg f).1.Sound ∧ (faultAmp s j seg f).1.segs.get j = some (faultAmp s j seg f).2 ∧
      (faultAmp s j seg f).2.size = seg.size := by
  rw [faultAmp]
  split
  next needs =>
    obtain ⟨rest, -, others, fits, -⟩ := sound.split at_j
    have formed := sound.formed at_j
    have index_eq := formed.index_eq needs.1
    refine ⟨?_, Table.get_put_self at_j _, rfl⟩
    have fits_rest : Fits ([] ++ rest) s.amps.get :=
      fits.of_none needs.1 fits.toPlaced.tail fun _ => nofun
    have placed : Placed ({ seg with amp := some s.amps.next } :: rest) := by
      refine fits.toPlaced.tail.add ?_ (pairwise_cons.1 fits.apart).1
      exact ⟨formed.size_pos, formed.pageprot_eq, formed.vpage_length, nofun, fun _ _ => nofun⟩
    have linked : Linked (anonmapAlloc seg.size 0)
        (Seg.use { seg with amp := some s.amps.next } :: usesOf rest s.amps.next) := by
      have unused : usesOf ([] ++ rest) s.amps.next = [] := Fits.unused fits_rest Table.get_next
      rw [nil_append] at unused
      rw [unused]
      refine Linked.fresh 0 (fun _ => rfl) ?_ fun x used => absurd (slotAt_replicate _ _) used
      simp only [Seg.use, length_replicate, index_eq, Nat.zero_add, le_refl]
    rw [St.Sound]
    dsimp only
    rw [Table.add_eq_update]
    exact (Fits.add_use fits_rest placed rfl linked).perm (others (some _)).symm
  next => exact ⟨sound, at_j, rfl⟩

theorem St.Sound.put_resv (n : ℕ) (taken : ℤ) :
    St.Sound { s with segs := s.segs.put j (some { seg with swresv := n }), taken := taken } := by
  obtain ⟨rest, -, others, fits, -⟩ := sound.split at_j
  have formed := sound.formed at_j
  have protects : Protects seg { seg with swresv := n } seg.base 0 0 := by
    refine ⟨⟨formed.size_pos, formed.pageprot_eq, formed.vpage_length, formed.index_eq,
      formed.shared_zero⟩, rfl, rfl, rfl,
      rfl, rfl, rfl, rfl, rfl, fun i i_lt => ?_⟩
    rw [if_neg (by omega)]
    rfl
  rw [St.Sound]
  exact (protects.fits fits).perm (others (some _)).symm

end

theorem slotAt_set {anon : List (Option ℕ)} {x y : ℕ} {slot : Option ℕ}
    (used : slotAt (anon.set x slot) y ≠ none) :
    slotAt anon y ≠ none ∨ y = x := by
  by_cases same : y = x
  · exact Or.inr same
  · left
    rwa [slotAt, getElem?_set_ne (Ne.symm same)] at used

theorem St.Sound.put_slot {page : ℕ} {amp : Amp} {slot : Option ℕ} (sound : s.Sound)
    (at_j : s.segs.get j = some seg) (uses : seg.amp = some id) (at_id : s.amps.get id = some amp)
    (inside : page < seg.size) :
    St.Sound { s with
      amps := s.amps.put id
        (some { amp with anon := amp.anon.set (seg.anonIndex + page) slot }) } := by
  have linked := sound.linked id
  rw [at_id] at linked
  rw [St.Sound]
  dsimp only
  rw [Table.put_eq_update at_id]
  refine Fits.set_amp sound (Linked.refill linked length_set fun _ x used => ?_)
  rcases slotAt_set used with was_used | rfl
  · exact Or.inl was_used
  · refine Or.inr ⟨seg.use, mem_usesOf (Table.mem_records.2 ⟨j, at_j⟩) uses, ?_⟩
    simp only [Use.Holds, Seg.use]
    omega

theorem segvnFault_sound {f : Fault} (sound : s.Sound) (at_j : s.segs.get j = some seg)
    (inside : f.page < seg.size) :
    (segvnFault s j seg f).Sound := by
  obtain ⟨sound1, at_j1, size_eq⟩ := faultAmp_sound (f := f) sound at_j
  rw [segvnFault]
  generalize (faultAmp s j seg f).1 = s1 at sound1 at_j1
  generalize (faultAmp s j seg f).2 = seg1 at at_j1 size_eq
  rw [← size_eq] at inside
  rw [faultPage]
  split
  next => exact sound1
  next id uses =>
    split
    next => exact sound1
    next amp at_id =>
      dsimp only
      split_ifs
      · exact sound1
      · have sound2 := sound1.put_resv at_j1 (seg1.swresv + 1) (anonResv s1 1).taken
        exact @St.Sound.put_slot _ j { seg1 with swresv := seg1.swresv + 1 } id f.page amp
          (some f.anon) sound2
          (Table.get_put_self at_j1 _) uses at_id inside
      · exact sound1.put_slot at_j1 uses at_id inside
      · exact sound1.put_resv at_j1 _ _
      · exact sound1
      · exact sound1

/-! ### Owners outside -/

theorem ampMake_sound (sound : s.Sound) (size swresv : ℕ) :
    St.Sound { anonResv s swresv with
      amps := s.amps.add { anonmapAlloc size swresv with outside := 1 } } := by
  rw [St.Sound]
  dsimp only
  rw [Table.add_eq_update]
  refine Fits.set_amp sound ?_
  have unused : usesOf s.segs.records s.amps.next = [] := Fits.unused sound Table.get_next
  change Linked _ (usesOf s.segs.records s.amps.next)
  rw [unused]
  exact ⟨rfl, fun _ => by rintro ⟨⟩, by rintro ⟨_, ⟨⟩, _⟩⟩

/-- Another count of references from outside, for an anon map that stays held. -/
theorem St.Sound.put_outside {refcnt outside : ℕ} {amp : Amp} (sound : s.Sound)
    (at_id : s.amps.get id = some amp) (held : 0 < amp.outside)
    (refs_eq : refcnt + amp.outside = amp.refcnt + outside) :
    St.Sound { s with
      amps := s.amps.put id (some { amp with refcnt := refcnt, outside := outside }) } := by
  have linked := sound.linked id
  rw [at_id] at linked
  have refs := Linked.refs linked
  have inside : ∀ u ∈ usesOf s.segs.records id, u.start + u.size ≤ amp.anon.length :=
    Linked.inside linked
  rw [St.Sound]
  dsimp only
  rw [Table.put_eq_update at_id]
  refine Fits.set_amp sound ⟨by dsimp only; omega, inside, ?_⟩
  rintro ⟨u, member, is_private⟩
  exact absurd is_private (Linked.none_private linked held u member)

theorem ampRele_sound {amp : Amp} (sound : s.Sound) (at_id : s.amps.get id = some amp)
    (held : 0 < amp.outside) : (ampRele s id amp).Sound := by
  have linked := sound.linked id
  rw [at_id] at linked
  have refs := Linked.refs linked
  rw [ampRele]
  split
  next last =>
    rw [St.Sound, anonUnresv]
    dsimp only
    rw [Table.put_eq_update at_id]
    refine Fits.set_amp sound ?_
    exact eq_nil_of_length_eq_zero (by omega)
  next => exact sound.put_outside at_id held (by omega)

/-- Every call keeps segments and anon maps fitting together. -/
theorem step_sound {op : Op} (sound : s.Sound) (legal : Legal s op)
    (eq : step s op = .ok (error, s')) : s'.Sound := by
  cases op with
  | create e as base size a =>
    rcases segvnCreate_spec sound legal eq with ⟨-, segs_eq, amps_eq⟩ | ⟨-, creates⟩
    · rw [St.Sound, segs_eq, amps_eq]
      exact sound
    · exact creates.1
  | unmap j addr len =>
    obtain ⟨seg, at_j, len_pos, -, -⟩ := legal
    simp only [step, at_j] at eq
    cases unmapped : segvnUnmap s j seg addr len with
    | error panic =>
      rw [unmapped] at eq
      cases eq
    | ok s2 =>
      rw [unmapped] at eq
      obtain ⟨-, rfl⟩ := Prod.mk.inj (Except.ok.inj eq)
      exact segvnUnmap_sound sound at_j len_pos unmapped
  | setprot resv j addr len prot =>
    obtain ⟨seg, at_j, -, start_le, -⟩ := legal
    simp only [step, at_j] at eq
    exact segvnSetprot_sound sound at_j start_le (Except.ok.inj eq)
  | dup resv addMap j newas =>
    obtain ⟨seg, at_j, vacant⟩ := legal
    simp only [step, at_j] at eq
    exact segvnDup_sound sound at_j vacant (Except.ok.inj eq)
  | free j =>
    obtain ⟨seg, at_j⟩ := legal
    simp only [step, at_j] at eq
    obtain ⟨-, rfl⟩ := Prod.mk.inj (Except.ok.inj eq)
    exact segvnFree_sound sound at_j
  | fault j f =>
    obtain ⟨seg, at_j, inside⟩ := legal
    simp only [step, at_j] at eq
    obtain ⟨-, rfl⟩ := Prod.mk.inj (Except.ok.inj eq)
    exact segvnFault_sound sound at_j inside
  | ampMake size swresv =>
    obtain ⟨-, rfl⟩ := Prod.mk.inj (Except.ok.inj eq)
    exact ampMake_sound sound size swresv
  | ampHold id =>
    obtain ⟨amp, at_id, held⟩ := legal
    simp only [step, at_id] at eq
    obtain ⟨-, rfl⟩ := Prod.mk.inj (Except.ok.inj eq)
    exact sound.put_outside at_id held (by omega)
  | ampRele id =>
    obtain ⟨amp, at_id, held⟩ := legal
    simp only [step, at_id] at eq
    obtain ⟨-, rfl⟩ := Prod.mk.inj (Except.ok.inj eq)
    exact ampRele_sound sound at_id held

/-- The states that runs of legal calls reach. -/
inductive Reachable : St → Prop
  | init : Reachable St.init
  | step {s s' : St} {op : Op} {error : Option Errno} (reachable : Reachable s) (legal : Legal s op)
      (eq : step s op = .ok (error, s')) : Reachable s'

theorem Reachable.sound (reachable : Reachable s) : s.Sound := by
  induction reachable with
  | init => exact ⟨⟨fun _ => nofun, List.Pairwise.nil⟩, fun _ => rfl⟩
  | step _ legal eq sound => exact step_sound sound legal eq

/-! ### The page map along a run -/

theorem normal_eq (a : Crargs) : ∃ flags, a.normal = { a with flags := flags } := by
  rw [Crargs.normal]
  split_ifs
  · exact ⟨_, rfl⟩
  · exact ⟨a.flags, rfl⟩

theorem pageMap_ext {s1 : St} (sound : s.Sound) (sound1 : s1.Sound)
    (shows_iff : ∀ page, s.Shows as p page ↔ s1.Shows as p page) :
    s.pageMap as p = s1.pageMap as p := by
  refine Option.ext fun page => ?_
  rw [pageMap_eq_some sound, pageMap_eq_some sound1, shows_iff]

theorem pageMap_eq_none (sound : s.Sound) (none_shown : ∀ page, ¬ s.Shows as p page) :
    s.pageMap as p = none := by
  rw [eq_none_iff_forall_ne_some]
  exact fun page shown => none_shown page ((pageMap_eq_some sound).1 shown)

theorem fillGiven_sound {e : Env} {size : ℕ} {a : Crargs} (sound : s.Sound)
    (held : ∀ id, a.amp = some id → ∃ amp, s.amps.get id = some amp ∧ 0 < amp.outside) :
    (fillGiven e s size a).Sound ∧ (fillGiven e s size a).segs = s.segs := by
  rw [fillGiven]
  split
  next => exact ⟨sound, rfl⟩
  next id given =>
    obtain ⟨amp, at_id, outside⟩ := held id given
    have linked := sound.linked id
    rw [at_id] at linked
    simp only [at_id]
    split_ifs
    · exact ⟨sound, rfl⟩
    · refine ⟨?_, rfl⟩
      rw [St.Sound]
      dsimp only
      rw [Table.put_eq_update at_id]
      refine Fits.set_amp sound (Linked.refill linked (length_fillSlots _ _ _ _) ?_)
      rintro ⟨u, member, u_private⟩
      exact absurd u_private (Linked.none_private linked outside u member)

theorem unmap_pageMap (sound : s.Sound) (at_j : s.segs.get j = some seg)
    (within : Within s j addr len) (eq : step s (.unmap j addr len) = .ok (error, s')) (as p : ℕ) :
    s'.pageMap as p = if seg.as = as ∧ addr ≤ p ∧ p < addr + len then none else s.pageMap as p := by
  have sound' := @step_sound s s' error (.unmap j addr len) sound within eq
  obtain ⟨seg', at_j', len_pos, -, -⟩ := within
  simp only [step, at_j] at eq
  cases unmapped : segvnUnmap s j seg addr len with
  | error panic =>
    rw [unmapped] at eq
    exact nomatch eq
  | ok s2 =>
    rw [unmapped] at eq
    obtain ⟨-, rfl⟩ := Prod.mk.inj (Except.ok.inj eq)
    have shows' := fun page =>
      @segvnUnmap_shows s s2 j seg addr len as p sound at_j page len_pos unmapped
    split_ifs with gone
    · exact pageMap_eq_none sound' fun page shown => ((shows' page).1 shown).2 gone
    · exact pageMap_ext sound' sound fun page => by rw [shows' page, and_iff_left gone]

theorem setprot_pageMap (sound : s.Sound) (at_j : s.segs.get j = some seg)
    (within : Within s j addr len) (eq : step s (.setprot resv j addr len prot) = .ok (error, s'))
    (as p : ℕ) :
    s'.pageMap as p = if error = none ∧ seg.as = as ∧ addr ≤ p ∧ p < addr + len then
        (s.pageMap as p).map fun page => { page with prot := prot }
      else s.pageMap as p := by
  have sound' := @step_sound s s' error (.setprot resv j addr len prot) sound within eq
  obtain ⟨seg', at_j', len_pos, start_le, end_le⟩ := within
  obtain rfl : seg = seg' := some.inj (at_j.symm.trans at_j')
  simp only [step, at_j] at eq
  rcases segvnSetprot_spec (sound.formed at_j) start_le (Except.ok.inj eq) with
    ⟨failed, rfl⟩ | ⟨succeeded, amps_eq, seg', segs_eq, protects⟩
  · rw [if_neg fun inside => failed inside.1]
  · obtain ⟨rest, before, others, fits, -⟩ := sound.split at_j
    have shows' : ∀ page, s'.Shows as p page ↔ ∃ old, s.Shows as p old ∧
        page = { old with
          prot := if seg.as = as ∧ addr ≤ p ∧ p < addr + len then prot else old.prot } := by
      intro page
      simp only [St.Shows, amps_eq, segs_eq, Shows.perm (others (some seg')), Shows.perm before]
      exact protects.shows fits start_le end_le
    have map_eq : s'.pageMap as p = (s.pageMap as p).map fun page =>
        { page with
          prot := if seg.as = as ∧ addr ≤ p ∧ p < addr + len then prot else page.prot } := by
      refine Option.ext fun page => ?_
      rw [pageMap_eq_some sound', shows', map_eq_some_iff]
      simp only [pageMap_eq_some sound, eq_comm]
    rw [map_eq]
    by_cases inside : seg.as = as ∧ addr ≤ p ∧ p < addr + len
    · rw [if_pos ⟨succeeded, inside⟩]
      simp only [if_pos inside]
    · rw [if_neg fun all => inside all.2]
      simp only [if_neg inside]
      exact Option.map_id'

theorem create_pageMap {e : Env} {base size : ℕ} {a : Crargs} (sound : s.Sound)
    (legal : Legal s (.create e as base size a))
    (eq : step s (.create e as base size a) = .ok (error, s')) (as' p : ℕ) :
    s'.pageMap as' p = if error ≠ none then s.pageMap as' p
      else if as = as' ∧ base ≤ p ∧ p < base + size then
        some ⟨givenSlot (fillGiven e s size a) a (p - base), a.fileAt base p, a.prot⟩
      else (fillGiven e s size a).pageMap as' p := by
  rcases segvnCreate_spec sound legal eq with ⟨failed, segs_eq, amps_eq⟩ | ⟨rfl, sound', shows'⟩
  · rw [if_pos failed, pageMap_congr segs_eq amps_eq]
  · obtain ⟨pos, vacant, given⟩ := legal
    obtain ⟨flags, normal⟩ := normal_eq a
    rw [normal] at shows'
    have filled := @fillGiven_sound s e size a sound fun id is_given => by
      obtain ⟨-, amp, at_id, held, -⟩ := given id is_given
      exact ⟨amp, at_id, held⟩
    rw [if_neg (not_not.2 rfl)]
    split_ifs with inside
    · rw [pageMap_eq_some sound', shows']
      exact Or.inr ⟨inside, rfl⟩
    · refine pageMap_ext sound' filled.1 fun page => ?_
      rw [shows']
      refine or_iff_left fun new => inside new.1

/-- In every state of a run, an unmap removes its pages and no others.  `segvn_setprot` changes the
protection of its pages, or fails, which it does when they may not have it or need swap space and
there is none.  `segvn_create` adds its pages or fails; they have no slots, unless an anon map was
given: then they have its slots, and a private mapping fills the empty ones first, also under the
pages of other segments. -/
theorem page_map_changes_as_asked (s : St) (reachable : Reachable s) :
    (∀ j seg addr len error s', s.segs.get j = some seg → Within s j addr len →
      step s (.unmap j addr len) = .ok (error, s') → ∀ as p,
        s'.pageMap as p = if seg.as = as ∧ addr ≤ p ∧ p < addr + len then none else
          s.pageMap as p) ∧
    (∀ resv j seg addr len prot error s', s.segs.get j = some seg → Within s j addr len →
      step s (.setprot resv j addr len prot) = .ok (error, s') →
        (error = none ↔ seg.maxprot &&& prot = prot ∧
          (seg.type = .mapPrivate → prot.write → seg.swresv = 0 → noreserve seg.flags ∨ resv)) ∧
        ∀ as p, s'.pageMap as p =
          if error = none ∧ seg.as = as ∧ addr ≤ p ∧ p < addr + len then
            (s.pageMap as p).map fun page => { page with prot := prot }
          else s.pageMap as p) ∧
    ∀ e as base size a error s', Legal s (.create e as base size a) →
      step s (.create e as base size a) = .ok (error, s') → ∀ as' p,
        (error ≠ none → s'.pageMap as' p = s.pageMap as' p) ∧
        (error = none → a.amp = none → s'.pageMap as' p =
          if as = as' ∧ base ≤ p ∧ p < base + size then some ⟨none, a.fileAt base p, a.prot⟩ else
            s.pageMap as' p) ∧
        ∀ id amp, error = none → a.amp = some id → s.amps.get id = some amp →
          (a.type = .mapShared → s'.pageMap as' p =
            if as = as' ∧ base ≤ p ∧ p < base + size then
              some ⟨slotAt amp.anon (a.offset + (p - base)), a.fileAt base p, a.prot⟩
            else s.pageMap as' p) ∧
          (a.type ≠ .mapShared → s'.pageMap as' p =
            if as = as' ∧ base ≤ p ∧ p < base + size then
              some ⟨some ((slotAt amp.anon (a.offset + (p - base))).getD
                (e.anonZero (a.offset + (p - base)))), a.fileAt base p, a.prot⟩
            else (s.pageMap as' p).map fun page =>
              page.filled e a.offset size (s.anonAt as' p id)) := by
  have sound := reachable.sound
  refine ⟨fun j seg addr len error s' at_j within eq => unmap_pageMap sound at_j within eq,
    fun resv j seg addr len prot error s' at_j within eq =>
      ⟨?_, setprot_pageMap sound at_j within eq⟩, ?_⟩
  · simp only [step, at_j] at eq
    rw [← segvnSetprot_succeeds, Except.ok.inj eq]
  intro e as base size a error s' legal eq as' p
  have created := create_pageMap sound legal eq as' p
  refine ⟨fun failed => ?_, fun succeeded none_given => ?_, fun id amp succeeded given at_id =>
    ⟨fun is_shared => ?_, fun is_private => ?_⟩⟩
  · rwa [if_pos failed] at created
  · have filled_eq : fillGiven e s size a = s := by rw [fillGiven, none_given]
    have given_eq : givenSlot s a (p - base) = none := by
      rw [givenSlot, none_given]
      rfl
    rwa [if_neg (not_not.2 succeeded), filled_eq, given_eq] at created
  · have filled_eq : fillGiven e s size a = s := by
      rw [fillGiven, given]
      simp only [at_id, if_pos is_shared]
    have given_eq : givenSlot s a (p - base) = slotAt amp.anon (a.offset + (p - base)) := by
      rw [givenSlot, given, bind_some, at_id, bind_some]
    rwa [if_neg (not_not.2 succeeded), filled_eq, given_eq] at created
  · obtain ⟨-, -, enough⟩ := legal
    obtain ⟨-, amp', at_id', -, le⟩ := enough id given
    obtain rfl := some.inj (at_id.symm.trans at_id')
    rw [if_neg (not_not.2 succeeded), fillGiven_pageMap given at_id le is_private] at created
    rw [created]
    split_ifs with inside
    · have given_eq : givenSlot (fillGiven e s size a) a (p - base) =
          slotAt (fillSlots amp.anon a.offset size e.anonZero) (a.offset + (p - base)) := by
        rw [givenSlot, given, fillGiven, given]
        simp only [at_id, if_neg is_private, bind_some, Table.get_put_self at_id]
      rw [given_eq, slotAt_fillSlots le, if_pos (by omega)]
    · rfl

def roomyEnv : Env := ⟨true, none, none, true, true, true, true, true, 8, 2, fun x => x⟩

def zeroArgs : Crargs := ⟨none, 0, 0, .mapPrivate, 0xb, 0xf, 0, none⟩

/-- A private segment of three pages. -/
def untouched : St where
  segs := ⟨[some { newSeg 0 0 3 zeroArgs with swresv := 3 }]⟩
  amps := ⟨[]⟩
  taken := 3

/-- The segment once its second page was written. -/
def touched : St where
  segs := ⟨[some { newSeg 0 0 3 zeroArgs with swresv := 3, amp := some 0 }]⟩
  amps := ⟨[some ⟨1, 0, [none, some 7, none], 0⟩]⟩
  taken := 3

theorem reachable_touched : Reachable touched := by
  have created : step .init (.create roomyEnv 0 0 3 zeroArgs) = .ok (none, untouched) := by decide
  have legal : Legal .init (.create roomyEnv 0 0 3 zeroArgs) :=
    ⟨by decide, fun _ _ at_j => (nomatch at_j), fun _ given => nomatch given⟩
  have faulted : step untouched (.fault 0 ⟨1, true, true, 7, true, true⟩) =
      .ok (none, touched) := by decide
  have legal' : Legal untouched (.fault 0 ⟨1, true, true, 7, true, true⟩) := ⟨_, rfl, by decide⟩
  exact (Reachable.init.step legal created).step legal' faulted

/-- Unmap the first page of the segment, or take the right to write its second one. -/
theorem page_map_changes_as_asked_touched :
    (∃ s', step touched (.unmap 0 0 1) = .ok (none, s') ∧ s'.pageMap 0 0 = none ∧
      s'.pageMap 0 1 = some ⟨some 7, none, 0xb⟩) ∧
    ∃ s', step touched (.setprot true 0 1 1 9) = .ok (none, s') ∧
      s'.pageMap 0 0 = some ⟨none, none, 0xb⟩ ∧ s'.pageMap 0 1 = some ⟨some 7, none, 9⟩ := by
  obtain ⟨unmaps, protects, -⟩ := page_map_changes_as_asked touched reachable_touched
  constructor
  · obtain ⟨s', eq⟩ : ∃ s', step touched (.unmap 0 0 1) = .ok (none, s') := ⟨_, rfl⟩
    have changed := unmaps 0 _ 0 1 none s' rfl ⟨_, rfl, by decide, by decide, by decide⟩ eq 0
    exact ⟨s', eq, (changed 0).trans (by decide), (changed 1).trans (by decide)⟩
  · obtain ⟨s', eq⟩ : ∃ s', step touched (.setprot true 0 1 1 9) = .ok (none, s') := ⟨_, rfl⟩
    have changed := (protects true 0 _ 1 1 9 none s' rfl ⟨_, rfl, by decide, by decide, by decide⟩
      eq).2 0
    exact ⟨s', eq, (changed 0).trans (by decide), (changed 1).trans (by decide)⟩

/-- An anon map of one page, mapped shared by its owner. -/
def shared : St where
  segs := ⟨[some { newSeg 0 0 1 { zeroArgs with type := .mapShared } with amp := some 0 }]⟩
  amps := ⟨[some ⟨2, 1, [none], 1⟩]⟩
  taken := 1

def givenArgs : Crargs := { zeroArgs with amp := some 0 }

/-- A private mapping of a given anon map has a slot at once, and so has the page of the shared
mapping, which had none. -/
theorem given_map_is_filled : ∃ s', Reachable shared ∧
    Legal shared (.create { roomyEnv with anonZero := fun _ => 9 } 1 0 1 givenArgs) ∧
    step shared (.create { roomyEnv with anonZero := fun _ => 9 } 1 0 1 givenArgs) =
      .ok (none, s') ∧
    s'.pageMap 1 0 = some ⟨some 9, none, 0xb⟩ ∧
    shared.pageMap 0 0 = some ⟨none, none, 0xb⟩ ∧ s'.pageMap 0 0 = some ⟨some 9, none, 0xb⟩ := by
  have made : step .init (.ampMake 1 1) = .ok (none, ⟨⟨[]⟩, ⟨[some ⟨1, 1, [none], 1⟩]⟩, 1⟩) := by
    decide
  have mapped : step ⟨⟨[]⟩, ⟨[some ⟨1, 1, [none], 1⟩]⟩, 1⟩ (.create roomyEnv 0 0 1
      { givenArgs with type := .mapShared }) = .ok (none, shared) := by decide
  have legal : Legal ⟨⟨[]⟩, ⟨[some ⟨1, 1, [none], 1⟩]⟩, 1⟩ (.create roomyEnv 0 0 1
      { givenArgs with type := .mapShared }) :=
    ⟨by decide, fun _ _ at_j => (nomatch at_j), fun id given => by
      cases given
      exact ⟨rfl, _, rfl, by decide, by decide⟩⟩
  have held := @Reachable.step _ _ (.ampMake 1 1) _ .init trivial made
  refine ⟨_, held.step legal mapped, ⟨by decide, ?_, fun id given => ?_⟩, rfl, by decide, by decide,
    by decide⟩
  · intro j seg at_j same
    cases j with
    | zero => cases at_j; cases same
    | succ j => cases at_j
  · cases given
    exact ⟨rfl, _, rfl, by decide, by decide⟩

end Sol25.Segvn
