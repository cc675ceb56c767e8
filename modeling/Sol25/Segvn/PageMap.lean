import Sol25.Segvn.Create

/-!
# The page map

The function from the addresses of an address space to pages, and how it changes: over any run of
the driver, creating a segment adds its pages, unmapping takes pages away and `segvn_setprot`
changes protections, and nothing else happens to any page.
-/

namespace Sol25.Segvn

open List Option

variable {e : Env} {s s' : St} {j : ℕ} {seg : Seg} {as base size addr len : ℕ} {a : Crargs}
  {prot : Prot}
  {error : Option Errno}

/-- The page at an address. -/
def St.pageMap (s : St) (as p : ℕ) : Option Page :=
  (s.segs.records.find? fun seg => decide (seg.Spans as p)).map fun seg => pageOf s.amps.get seg p

/-- In a sound state the page map tells what the segments show. -/
theorem pageMap_eq_some (sound : s.Sound) {as p : ℕ} {page : Page} :
    s.pageMap as p = some page ↔ s.Shows as p page := by
  rw [St.pageMap, map_eq_some_iff]
  constructor
  · rintro ⟨seg, found, shown⟩
    have spans := find?_some found
    rw [decide_eq_true_eq] at spans
    exact ⟨seg, mem_of_find?_eq_some found, spans, shown⟩
  · rintro ⟨seg, member, spans, shown⟩
    have some_found : (s.segs.records.find? fun seg => decide (seg.Spans as p)).isSome := by
      rw [find?_isSome]
      exact ⟨seg, member, decide_eq_true spans⟩
    obtain ⟨other, found⟩ := isSome_iff_exists.1 some_found
    have other_spans := find?_some found
    rw [decide_eq_true_eq] at other_spans
    have perm := perm_cons_erase member
    have placed := Placed.perm sound.toPlaced perm
    rcases mem_cons.1 (perm.mem_iff.1 (mem_of_find?_eq_some found)) with rfl | in_rest
    · exact ⟨other, found, shown⟩
    · have also_shown : Segvn.Shows (s.segs.records.erase seg) s.amps.get as p
          (pageOf s.amps.get other p) :=
        ⟨other, in_rest, other_spans, rfl⟩
      exact absurd also_shown (placed.not_both spans)

theorem pageMap_congr {s2 : St} (segs_eq : s'.segs = s2.segs) (amps_eq : s'.amps = s2.amps) :
    s'.pageMap as = s2.pageMap as := by
  funext p
  rw [St.pageMap, St.pageMap, segs_eq, amps_eq]

/-- The place in an anon map under an address. -/
def St.anonAt (s : St) (as p id : ℕ) : Option ℕ :=
  (s.segs.records.find? fun seg => decide (seg.Spans as p)).bind fun seg =>
    if seg.amp = some id then some (seg.anonIndex + (p - seg.base)) else none

/-- A page over a place of an anon map, once a private mapping got the part from `start` on: it has
a slot if the place lies there. -/
def Page.filled (page : Page) (e : Env) (start n : ℕ) (place : Option ℕ) : Page :=
  { page with
    slot := match place with
      | some x =>
        if start ≤ x ∧ x < start + n then some (page.slot.getD (e.anonZero x)) else page.slot
      | none => page.slot }

/-! ### Creating -/

theorem slotAt_fillSlots {anon : List (Option ℕ)} {start n x : ℕ} {z : ℕ → ℕ}
    (le : start + n ≤ anon.length) : slotAt (fillSlots anon start n z) x =
      if start ≤ x ∧ x < start + n then some ((slotAt anon x).getD (z x)) else slotAt anon x := by
  rw [slotAt, fillSlots, getElem?_mapIdx, slotAt]
  split_ifs with inside
  · simp [getElem?_eq_getElem (show x < anon.length by omega)]
  · cases anon[x]? <;> simp

/-- Filling the empty slots of a given anon map changes the pages over them. -/
theorem fillGiven_pageMap {id p : ℕ} {amp : Amp} (given : a.amp = some id)
    (at_id : s.amps.get id = some amp) (le : a.offset + size ≤ amp.anon.length)
    (is_private : a.type ≠ .mapShared) : (fillGiven e s size a).pageMap as p =
      (s.pageMap as p).map fun page => page.filled e a.offset size (s.anonAt as p id) := by
  have filled_eq : fillGiven e s size a = { s with
      amps := s.amps.put id
        (some { amp with anon := fillSlots amp.anon a.offset size e.anonZero }) } := by
    rw [fillGiven, given]
    simp only [at_id, if_neg is_private]
  rw [filled_eq, St.pageMap, St.pageMap, St.anonAt, Table.put_eq_update at_id]
  dsimp only
  cases s.segs.records.find? fun seg => decide (seg.Spans as p) with
  | none => rfl
  | some seg =>
    simp only [map_some, bind_some, Page.filled, pageOf, some.injEq, Page.mk.injEq, and_true]
    by_cases uses : seg.amp = some id
    · rw [if_pos uses, slotOf_update_self uses, slotOf_eq uses at_id, slotAt_fillSlots le]
    · rw [if_neg uses, slotOf_update_ne uses]

theorem tryJoin_creates {joined : Bool} {swresv : ℕ} {s2 : St} (sound : s.Sound) (pos : 0 < size)
    (vacant : Vacant s as base size) (none_given : a.amp = none)
    (eq : tryJoin e s as base size a swresv = (joined, s2))
    (rest_eq : if joined then s' = s2 else createAlone e s2 as base size a swresv = .ok s') :
    Creates e s s' as base size a := by
  have filled_eq : fillGiven e s size a = s := by rw [fillGiven, none_given]
  have given_eq : givenSlot (fillGiven e s size a) a = fun _ => none := by
    funext i
    rw [givenSlot, none_given]
    rfl
  cases joined with
  | true =>
    obtain rfl : s' = s2 := rest_eq
    rw [Creates, given_eq, filled_eq]
    exact tryJoin_true sound vacant eq
  | false =>
    obtain ⟨s1, nudge, nudge'⟩ := tryJoin_false sound eq
    have sound1 := nudge.sound sound
    have sound2 := nudge'.sound sound1
    have vacant2 := nudge'.vacant sound1 (nudge.vacant sound vacant)
    have held : ∀ id, a.amp = some id → ∃ amp, s2.amps.get id = some amp ∧ 0 < amp.outside :=
      fun id given => by cases none_given.symm.trans given
    obtain ⟨sound', shows'⟩ := createAlone_creates sound2 pos vacant2 held rest_eq
    refine ⟨sound', fun as' p page => ?_⟩
    have filled_eq' : fillGiven e s2 size a = s2 := by rw [fillGiven, none_given]
    have given_eq' : givenSlot (fillGiven e s2 size a) a = fun _ => none := by
      funext i
      rw [givenSlot, none_given]
      rfl
    rw [shows', given_eq, given_eq', filled_eq, filled_eq', nudge'.shows sound1, nudge.shows sound]

theorem fillGiven_resv (n : ℕ) :
    fillGiven e (anonResv s n) size a = anonResv (fillGiven e s size a) n := by
  have amps_eq : (anonResv s n).amps = s.amps := rfl
  rw [fillGiven, fillGiven]
  cases a.amp with
  | none => rfl
  | some id =>
    dsimp only
    rw [amps_eq]
    cases s.amps.get id with
    | none => rfl
    | some amp =>
      dsimp only
      split_ifs <;> rfl

theorem Creates.of_resv {n : ℕ} (creates : Creates e (anonResv s n) s' as base size a) :
    Creates e s s' as base size a := by
  rw [Creates, fillGiven_resv] at creates
  exact creates

theorem normal_amp (a : Crargs) : a.normal.amp = a.amp := by
  rw [Crargs.normal]
  split_ifs <;> rfl

/-- `segvn_create` makes a segment, or fails and leaves segments and anon maps as they are. -/
theorem segvnCreate_spec (sound : s.Sound) (legal : Legal s (.create e as base size a))
    (eq : segvnCreate e s as base size a = .ok (error, s')) :
    (error ≠ none ∧ s'.segs = s.segs ∧ s'.amps = s.amps) ∨
      error = none ∧ Creates e s s' as base size a.normal := by
  obtain ⟨pos, vacant, given⟩ := legal
  rw [segvnCreate] at eq
  split at eq
  next => exact nomatch eq
  dsimp only at eq
  split at eq
  next =>
    obtain ⟨rfl, rfl⟩ := Prod.mk.inj (Except.ok.inj eq)
    exact .inl ⟨nofun, rfl, rfl⟩
  split at eq
  next =>
    obtain ⟨rfl, rfl⟩ := Prod.mk.inj (Except.ok.inj eq)
    exact .inl ⟨nofun, rfl, rfl⟩
  next =>
    obtain ⟨rfl, rfl⟩ := Prod.mk.inj (Except.ok.inj eq)
    exact .inl ⟨nofun, rfl, rfl⟩
  next =>
    right
    generalize (if a.normal.reserves = true then size else 0) = swresv at eq
    have sound1 : (anonResv s swresv).Sound := sound
    have vacant1 : Vacant (anonResv s swresv) as base size := vacant
    by_cases none_given : a.normal.amp = none
    · rw [if_pos none_given] at eq
      split at eq
      next s2 join_eq =>
        obtain ⟨rfl, rfl⟩ := Prod.mk.inj (Except.ok.inj eq)
        exact ⟨rfl, (tryJoin_creates sound1 pos vacant1 none_given join_eq rfl).of_resv⟩
      next s2 join_eq =>
        cases alone : createAlone e s2 as base size a.normal swresv with
        | error panic =>
          rw [alone] at eq
          exact nomatch eq
        | ok s3 =>
          rw [alone] at eq
          obtain ⟨rfl, rfl⟩ := Prod.mk.inj (Except.ok.inj eq)
          exact ⟨rfl, (tryJoin_creates sound1 pos vacant1 none_given join_eq alone).of_resv⟩
    · rw [if_neg none_given] at eq
      dsimp only at eq
      cases alone : createAlone e (anonResv s swresv) as base size a.normal swresv with
      | error panic =>
        rw [alone] at eq
        exact nomatch eq
      | ok s3 =>
        rw [alone] at eq
        obtain ⟨rfl, rfl⟩ := Prod.mk.inj (Except.ok.inj eq)
        refine ⟨rfl, (createAlone_creates sound1 pos vacant1 (fun id is_given => ?_) alone).of_resv⟩
        rw [normal_amp] at is_given
        obtain ⟨-, amp, at_id, held, -⟩ := given id is_given
        exact ⟨amp, at_id, held⟩

/-! ### Protecting -/

/-- The pages of a segment once it has an array for them. -/
theorem segvnVpage_spec (formed : seg.Formed) :
    ∃ vpage, (segvnVpage seg).vpage = some vpage ∧ vpage.length = seg.size ∧
      (segvnVpage seg).pageprot = true ∧
      ∀ i < seg.size, vpage[i]?.map Vpage.prot = some (seg.pageProt i) := by
  cases vpage_some : seg.vpage with
  | none =>
    have no_pages : seg.pageprot = false := by rw [formed.pageprot_eq, vpage_some]; rfl
    refine ⟨List.replicate seg.size ⟨seg.prot, seg.advice⟩, ?_, length_replicate, ?_,
      fun i i_lt => ?_⟩
    · simp only [segvnVpage, vpage_some]
    · simp only [segvnVpage, vpage_some]
    · rw [getElem?_replicate, if_pos i_lt, Seg.pageProt, no_pages]
      rfl
  | some vpage =>
    have pages : seg.pageprot = true := by rw [formed.pageprot_eq, vpage_some]; rfl
    have length_eq := formed.vpage_length vpage vpage_some
    refine ⟨vpage, ?_, length_eq, ?_, fun i i_lt => ?_⟩
    · simp only [segvnVpage, vpage_some]
    · simp only [segvnVpage, vpage_some, pages]
    · rw [getElem?_eq_getElem (by rwa [length_eq]), Seg.pageProt, pages, vpage_some,
        if_pos rfl, bind_some, getElem?_eq_getElem (by rwa [length_eq])]
      rfl

theorem segvnVpage_same : (segvnVpage seg).as = seg.as ∧ (segvnVpage seg).base = seg.base ∧
    (segvnVpage seg).size = seg.size ∧ (segvnVpage seg).type = seg.type ∧
      (segvnVpage seg).amp = seg.amp ∧
    (segvnVpage seg).anonIndex = seg.anonIndex ∧ (segvnVpage seg).vp = seg.vp ∧
    (segvnVpage seg).offset = seg.offset := by
  rw [segvnVpage]
  split <;> exact ⟨rfl, rfl, rfl, rfl, rfl, rfl, rfl, rfl⟩

theorem protects_protectSeg (formed : seg.Formed) (start_le : seg.base ≤ addr) :
    Protects seg (protectSeg seg addr len prot) addr len prot := by
  rw [protectSeg]
  split
  next whole =>
    obtain ⟨rfl, rfl, no_pages⟩ := whole
    rw [Bool.not_eq_true'] at no_pages
    refine ⟨⟨formed.size_pos, formed.pageprot_eq, formed.vpage_length, formed.index_eq,
      formed.shared_zero⟩, rfl, rfl, rfl,
      rfl, rfl, rfl, rfl, rfl, fun i i_lt => ?_⟩
    rw [if_pos ⟨Nat.le_add_right _ _, Nat.add_lt_add_left i_lt _⟩, Seg.pageProt]
    simp only [no_pages, Bool.false_eq_true, if_false]
  next =>
    obtain ⟨vpage, vpage_eq, length_eq, pages, prot_eq⟩ := segvnVpage_spec formed
    obtain ⟨as_eq, base_eq, size_eq, type_eq, amp_eq, index_eq, vp_eq, offset_eq⟩ :=
      @segvnVpage_same seg
    refine ⟨⟨?_, ?_, ?_, ?_, ?_⟩, as_eq, base_eq, size_eq, type_eq, amp_eq, index_eq, vp_eq,
      offset_eq, fun i i_lt => ?_⟩
    · exact size_eq ▸ formed.size_pos
    · dsimp only
      rw [pages, vpage_eq]
      rfl
    · intro new new_eq
      dsimp only at new_eq ⊢
      rw [vpage_eq, map_some] at new_eq
      obtain rfl := some.inj new_eq
      rw [protectPages, length_mapIdx, length_eq, size_eq]
    · dsimp only
      rw [amp_eq, index_eq]
      exact formed.index_eq
    · dsimp only
      rw [type_eq, vp_eq, amp_eq]
      exact formed.shared_zero
    · have old_prot := prot_eq i i_lt
      rw [getElem?_eq_getElem (by rwa [length_eq]), map_some, some.injEq] at old_prot
      rw [← old_prot, Seg.pageProt]
      dsimp only
      rw [if_pos pages, vpage_eq, map_some, bind_some, protectPages,
        getElem?_mapIdx, getElem?_eq_getElem (by rwa [length_eq]), map_some,
        map_some, getD_some, base_eq]
      by_cases inside : addr ≤ seg.base + i ∧ seg.base + i < addr + len
      · rw [if_pos inside, if_pos (by omega)]
      · rw [if_neg inside, if_neg (by omega)]

theorem protectSeg_resv (n : ℕ) : protectSeg { seg with swresv := n } addr len prot =
    { protectSeg seg addr len prot with swresv := n } := by
  simp only [protectSeg, segvnVpage]
  split_ifs
  · rfl
  · split <;> rfl

theorem protResv_ok {resv : Bool} {s1 : St} {seg1 : Seg}
    (eq : protResv resv s seg addr len prot = .ok (s1, seg1)) :
    s1.segs = s.segs ∧ s1.amps = s.amps ∧ ∃ n, seg1 = { seg with swresv := n } := by
  rw [protResv] at eq
  split_ifs at eq
  all_goals
    obtain ⟨rfl, rfl⟩ := Prod.mk.inj (Except.ok.inj eq)
    exact ⟨rfl, rfl, _, rfl⟩

theorem Protects.resv {seg' : Seg} (protects : Protects seg seg' addr len prot) (n : ℕ) :
    Protects seg { seg' with swresv := n } addr len prot := by
  obtain ⟨formed, as_eq, base_eq, size_eq, type_eq, amp_eq, index_eq, vp_eq, offset_eq, prot_eq⟩ :=
    protects
  obtain ⟨size_pos, pageprot_eq, vpage_length, index_zero, shared_zero⟩ := formed
  exact ⟨⟨size_pos, pageprot_eq, vpage_length, index_zero, shared_zero⟩, as_eq, base_eq, size_eq,
    type_eq, amp_eq,
    index_eq, vp_eq, offset_eq, prot_eq⟩

/-- `segvn_setprot` takes no protection beyond `maxprot`, and writable private pages need swap
space, reserved before or now. -/
theorem segvnSetprot_succeeds {resv : Bool} : (segvnSetprot resv s j seg addr len prot).1 = none ↔
    seg.maxprot &&& prot = prot ∧
      (seg.type = .mapPrivate → prot.write → seg.swresv = 0 → noreserve seg.flags ∨ resv) := by
  rw [segvnSetprot, protResv]
  by_cases allowed : seg.maxprot &&& prot = prot
  · simp only [allowed, ne_eq, not_true_eq_false, if_false, true_and]
    cases type : seg.type with
    | mapShared => simp
    | mapPrivate =>
      simp only [not_true_eq_false, if_false, true_implies]
      by_cases writes : prot.write = true
      · simp only [writes, if_true, true_implies]
        by_cases none_left : seg.swresv = 0 <;> cases noreserve seg.flags <;> cases resv <;>
          simp [none_left]
      · simp only [writes, Bool.false_eq_true, if_false]
        split_ifs <;> simp
  · simp [allowed]

/-- `segvn_setprot` changes protections, or fails and changes nothing. -/
theorem segvnSetprot_spec {resv : Bool} (formed : seg.Formed) (start_le : seg.base ≤ addr)
    (eq : segvnSetprot resv s j seg addr len prot = (error, s')) :
    (error ≠ none ∧ s' = s) ∨ error = none ∧ s'.amps = s.amps ∧
      ∃ seg', s'.segs = s.segs.put j (some seg') ∧ Protects seg seg' addr len prot := by
  rw [segvnSetprot] at eq
  split at eq
  next =>
    obtain ⟨rfl, rfl⟩ := Prod.mk.inj eq
    exact .inl ⟨nofun, rfl⟩
  next =>
    split at eq
    next =>
      obtain ⟨rfl, rfl⟩ := Prod.mk.inj eq
      exact .inl ⟨nofun, rfl⟩
    next s1 seg1 resv_eq =>
      obtain ⟨rfl, rfl⟩ := Prod.mk.inj eq
      obtain ⟨segs_eq, amps_eq, n, rfl⟩ := protResv_ok resv_eq
      refine .inr ⟨rfl, amps_eq, _, by dsimp only; rw [segs_eq], ?_⟩
      rw [protectSeg_resv]
      exact (protects_protectSeg formed start_le).resv n

end Sol25.Segvn
