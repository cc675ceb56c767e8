import Sol25.Segvn.Run

/-!
# What a fork copies

`segvn_dup` with the anonymous pages themselves: the slots of a private segment are shared with the
new one, or copied page by page while pages of the old one are softlocked.
-/

namespace Sol25.Segvn

open Function List Option Nat

variable {α : Type*}

/-- The anon slots: how many references each has, the contents of its page, and the next slot that
`anon_alloc` gives. -/
structure Anons (α : Type*) where
  refcnt : ℕ → ℕ
  page : ℕ → α
  next : ℕ

/-- What the pager answers during a copy, page by page: the error of `anon_getpage`, and whether
`anon_private` gets a page. -/
structure PageIo where
  getpage : ℕ → Option Errno
  memory : ℕ → Bool

namespace Anons

/-- `anon_dup`: every slot has one more reference. -/
def dup : Anons α → List (Option ℕ) → Anons α
  | a, [] => a
  | a, none :: slots => a.dup slots
  | a, some x :: slots => { a with refcnt := update a.refcnt x (a.refcnt x + 1) }.dup slots

/-- `anon_alloc`, and the page that `anon_private` fills with a copy. -/
def copyPage (a : Anons α) (x : ℕ) : Anons α where
  refcnt := update a.refcnt a.next 1
  page := update a.page a.next (a.page x)
  next := a.next + 1

/-- `anon_private` without memory gives its slot back. -/
def wasteSlot (a : Anons α) : Anons α := { a with next := a.next + 1 }

/-- The loop of `segvn_dup` from page `i` on, if something is softlocked: an error, and the slots of
the new array. -/
def copyLoop (io : PageIo) : Anons α → ℕ → List (Option ℕ) →
    Option Errno × List (Option ℕ) × Anons α
  | a, _, [] => (none, [], a)
  | a, i, none :: anonp =>
    let (error, newanonp, a) := copyLoop io a (i + 1) anonp
    (error, none :: newanonp, a)
  | a, i, some x :: anonp =>
    match io.getpage i with
    | some error => (some error, List.replicate (anonp.length + 1) none, a)
    | none =>
      if io.memory i then
        let (error, newanonp, a') := copyLoop io (a.copyPage x) (i + 1) anonp
        (error, some a.next :: newanonp, a')
      else (some .enomem, List.replicate (anonp.length + 1) none, a.wasteSlot)

end Anons

/-- The anon array of a private copy, from the array `anon` of a segment. -/
def copyAnon (softlockcnt : ℕ) (io : PageIo) (a : Anons α) (seg : Seg) (anon : List (Option ℕ)) :
    Option Errno × List (Option ℕ) × Anons α :=
  if softlockcnt ≠ 0 then a.copyLoop io 0 (anon.take seg.size)
  else
    let slots := (anon.drop seg.anonIndex).take seg.size
    (none, slots, a.dup slots)

/-- `segvn_dup`, with the pages and the number of softlocks on the segment. -/
def segvnFork (softlockcnt : ℕ) (io : PageIo) (resv : Bool) (addMap : Option Errno) (s : St)
    (a : Anons α) (seg : Seg) (newas : ℕ) : Option Errno × St × Anons α :=
  if seg.swresv ≠ 0 ∧ !resv then (some .enomem, s, a)
  else
    let s1 := anonResv s seg.swresv
    let newseg := { seg with as := newas }
    let added := if seg.vp = none then none else addMap
    match seg.amp with
    | none => (added, { s1 with segs := s1.segs.add { newseg with anonIndex := 0 } }, a)
    | some id =>
      if seg.type = .mapShared then
        let s1 := holdAmp s1 (some id)
        (added, { s1 with segs := s1.segs.add newseg }, a)
      else
        match s1.amps.get id with
        | none => (added, s1, a)
        | some amp =>
          let (error, anon, a) := copyAnon softlockcnt io a seg amp.anon
          let newseg := { newseg with amp := some s1.amps.next, anonIndex := 0 }
          let amps := s1.amps.add { anonmapAlloc seg.size 0 with anon }
          match error with
          | none => (added, { s1 with segs := s1.segs.add newseg, amps := amps }, a)
          | some error =>
            let newseg := { newseg with vpage := none }
            (some error, { s1 with segs := s1.segs.add newseg, amps := amps }, a)

/-! ### What a segment shows of its slots -/

/-- What is read from a page of a segment: the page of its slot, or what the file or the zero page
holds there. -/
def contents (s : St) (a : Anons α) (file : Option ℕ → ℤ → α) (seg : Seg) (i : ℕ) : α :=
  (slotOf s.amps.get seg i).elim (file seg.vp (seg.offset + i)) a.page

/-- `anon_alloc` gives a slot that is in no array. -/
def Anons.Unused (a : Anons α) (s : St) : Prop :=
  ∀ id amp x slot, s.amps.get id = some amp → slotAt amp.anon x = some slot → slot < a.next

/-- A copy of a segment has slots where the segment has them: the same ones, with one more reference
for each page, or slots with the same contents.  The same is read everywhere. -/
structure Faithful (s : St) (a : Anons α) (seg : Seg) (s' : St) (a' : Anons α) (child : Seg) :
    Prop where
  slots : ∀ i < seg.size, (slotOf s'.amps.get child i).isSome = (slotOf s.amps.get seg i).isSome
  same_or_copy : ∀ i < seg.size, ∀ x y, slotOf s.amps.get seg i = some x →
    slotOf s'.amps.get child i = some y →
    (y = x ∧ a'.refcnt x =
      a.refcnt x + ((List.range seg.size).map (slotOf s.amps.get seg)).count (some x)) ∨
    (y ≠ x ∧ a'.page y = a.page x)
  reads : ∀ file, ∀ i < seg.size, contents s' a' file child i = contents s a file seg i

/-- The array has at its beginning what it has under the segment. -/
def Aligned (s : St) (a : Anons α) (seg : Seg) : Prop :=
  ∀ id amp, seg.amp = some id → s.amps.get id = some amp → ∀ i < seg.size,
    (slotAt amp.anon i).map a.page = (slotAt amp.anon (seg.anonIndex + i)).map a.page

/-! ### The two ways to copy -/

namespace Anons

variable {a a' : Anons α} {slots new : List (Option ℕ)} {io : PageIo} {x y i : ℕ}
  {error : Option Errno}

theorem dup_page (a : Anons α) (slots : List (Option ℕ)) : (a.dup slots).page = a.page := by
  induction slots generalizing a with
  | nil => rfl
  | cons slot slots ih =>
    cases slot with
    | none => exact ih a
    | some x => exact ih _

theorem dup_refcnt (a : Anons α) (slots : List (Option ℕ)) (x : ℕ) :
    (a.dup slots).refcnt x = a.refcnt x + slots.count (some x) := by
  induction slots generalizing a with
  | nil => rfl
  | cons slot slots ih =>
    cases slot with
    | none =>
      have ne : (none : Option ℕ) ≠ some x := nofun
      rw [dup, ih, count_cons_of_ne ne]
    | some y =>
      rw [dup, ih]
      by_cases same : x = y
      · subst same
        rw [count_cons_self]
        dsimp only
        rw [update_self]
        omega
      · have ne : some y ≠ some x := fun eq => same (some.inj eq).symm
        rw [count_cons_of_ne ne]
        dsimp only
        rw [update_of_ne same]

/-- A copy of a list of slots: new ones with the same contents in the same places. -/
structure Copied (a : Anons α) (slots new : List (Option ℕ)) (a' : Anons α) : Prop where
  next_le : a.next ≤ a'.next
  page : ∀ x < a.next, a'.page x = a.page x
  at_place : ∀ i, slotAt slots i = none ∧ slotAt new i = none ∨
    ∃ x y, slotAt slots i = some x ∧ slotAt new i = some y ∧ a.next ≤ y ∧ y < a'.next ∧
      a'.page y = a.page x

theorem copyLoop_copied (used : ∀ i x, slotAt slots i = some x → x < a.next)
    (copied : a.copyLoop io i slots = (none, new, a')) : Copied a slots new a' := by
  induction slots generalizing a i new with
  | nil =>
    cases copied
    exact ⟨Nat.le_refl _, fun _ _ => rfl, fun _ => .inl ⟨rfl, rfl⟩⟩
  | cons slot slots ih =>
    cases slot with
    | none =>
      rw [copyLoop] at copied
      cases later : a.copyLoop io (i + 1) slots with
      | mk error result =>
        obtain ⟨new', a''⟩ := result
        rw [later] at copied
        cases copied
        obtain ⟨next_le, page, at_place⟩ := ih (fun i x at_i => used (i + 1) x at_i) later
        refine ⟨next_le, page, fun i => ?_⟩
        cases i with
        | zero => exact .inl ⟨rfl, rfl⟩
        | succ i => exact at_place i
    | some x =>
      rw [copyLoop] at copied
      cases failed : io.getpage i with
      | some error =>
        rw [failed] at copied
        exact nomatch copied
      | none =>
        rw [failed] at copied
        dsimp only at copied
        split_ifs at copied
        swap
        · exact nomatch copied
        cases later : (a.copyPage x).copyLoop io (i + 1) slots with
        | mk error result =>
          obtain ⟨new', a''⟩ := result
          rw [later] at copied
          cases copied
          obtain ⟨next_le, page, at_place⟩ :=
            ih (fun i x at_i => lt_succ_of_lt (used (i + 1) x at_i)) later
          have next_le : a.next + 1 ≤ a''.next := next_le
          have page_old : ∀ z < a.next, a''.page z = a.page z := fun z lt =>
            (page z (lt_succ_of_lt lt)).trans (update_of_ne (by omega) ..)
          refine ⟨le_of_succ_le next_le, page_old, fun i => ?_⟩
          cases i with
          | zero =>
            refine .inr ⟨x, a.next, rfl, rfl, Nat.le_refl _, next_le, ?_⟩
            exact (page a.next (lt_succ_self _)).trans (update_self ..)
          | succ i =>
            rcases at_place i with empty | ⟨u, y, at_u, at_y, y_ge, y_lt, same⟩
            · exact .inl empty
            · refine .inr ⟨u, y, at_u, at_y, le_of_succ_le y_ge, y_lt, same.trans ?_⟩
              have lt := used (i + 1) u at_u
              exact update_of_ne (by omega) ..

end Anons

section Fork

variable {s s' : St} {a a' : Anons α} {seg child : Seg} {amp : Amp} {id i : ℕ}
  {slots new : List (Option ℕ)}

theorem slotAt_take {anon : List (Option ℕ)} {n : ℕ} (lt : i < n) :
    slotAt (anon.take n) i = slotAt anon i := by
  rw [slotAt, slotAt, getElem?_take_of_lt lt]

theorem slotAt_of_take {anon : List (Option ℕ)} {n x : ℕ} (at_i : slotAt (anon.take n) i = some x) :
    slotAt anon i = some x := by
  by_cases lt : i < n
  · rwa [slotAt_take lt] at at_i
  · rw [slotAt_eq_none_of_length_le] at at_i
    · exact nomatch at_i
    · rw [length_take]
      omega

theorem slotAt_map_range {f : ℕ → Option ℕ} {n : ℕ} (lt : i < n) :
    slotAt ((List.range n).map f) i = f i := by
  rw [slotAt, getElem?_map, getElem?_range lt]
  rfl

theorem slots_eq (uses : seg.amp = some id) (at_id : s.amps.get id = some amp)
    (inside : seg.anonIndex + seg.size ≤ amp.anon.length) :
    (amp.anon.drop seg.anonIndex).take seg.size =
      (List.range seg.size).map (slotOf s.amps.get seg) := by
  refine ext_getElem ?_ fun i lt lt' => ?_
  · rw [length_take, length_drop, length_map, length_range]
    omega
  · rw [length_take] at lt
    rw [getElem_take, getElem_drop, getElem_map, getElem_range,
      slotOf_eq uses at_id, slotAt, getElem?_eq_getElem (by omega)]
    rfl

theorem faithful_shared (vp_eq : child.vp = seg.vp) (offset_eq : child.offset = seg.offset)
    (same : ∀ i < seg.size, slotOf s'.amps.get child i = slotOf s.amps.get seg i) :
    Faithful s a seg s' (a.dup ((List.range seg.size).map (slotOf s.amps.get seg))) child where
  slots i lt := congrArg Option.isSome (same i lt)
  same_or_copy i lt x y at_x at_y := by
    rw [same i lt, at_x] at at_y
    exact .inl ⟨(some.inj at_y).symm, a.dup_refcnt _ x⟩
  reads file i lt := by
    rw [contents, contents, same i lt, vp_eq, offset_eq, a.dup_page]

/-- Slots copied from the beginning of the array are those of the segment if these hold the same. -/
theorem faithful_copied_iff (vp_eq : child.vp = seg.vp) (offset_eq : child.offset = seg.offset)
    (uses : seg.amp = some id) (at_id : s.amps.get id = some amp) (unused : a.Unused s)
    (copied : Anons.Copied a (amp.anon.take seg.size) new a')
    (at_new : ∀ i, slotOf s'.amps.get child i = slotAt new i) :
    Faithful s a seg s' a' child ↔ Aligned s a seg := by
  have at_old : ∀ i, slotOf s.amps.get seg i = slotAt amp.anon (seg.anonIndex + i) :=
    slotOf_eq uses at_id
  constructor
  · rintro ⟨isSome_eq, same_or_copy, -⟩ id' amp' uses' at_id' i lt
    obtain rfl : id = id' := some.inj (uses.symm.trans uses')
    obtain rfl : amp = amp' := some.inj (at_id.symm.trans at_id')
    have isSome_eq := isSome_eq i lt
    have same_or_copy := same_or_copy i lt
    rw [at_new, at_old] at isSome_eq
    rw [at_new, at_old] at same_or_copy
    rcases copied.at_place i with ⟨empty, new_empty⟩ | ⟨x, y, at_x, at_y, y_ge, -, page_eq⟩
    · rw [slotAt_take lt] at empty
      rw [new_empty] at isSome_eq
      rw [empty, isSome_eq_false_iff.1 isSome_eq.symm |> isNone_iff_eq_none.1]
    · rw [slotAt_take lt] at at_x
      rw [at_y] at isSome_eq
      obtain ⟨z, at_z⟩ := isSome_iff_exists.1 isSome_eq.symm
      have old := unused id amp _ z at_id at_z
      rw [at_x, at_z, map_some, map_some, ← page_eq]
      rcases same_or_copy z y at_z at_y with ⟨rfl, -⟩ | ⟨-, same⟩
      · omega
      · exact congrArg some same
  · intro aligned
    have aligned := aligned id amp uses at_id
    have places : ∀ i < seg.size,
        slotOf s.amps.get seg i = none ∧ slotOf s'.amps.get child i = none ∨
        ∃ z y, slotOf s.amps.get seg i = some z ∧ slotOf s'.amps.get child i = some y ∧
          y ≠ z ∧ a'.page y = a.page z := by
      intro i lt
      have same := aligned i lt
      rw [at_old, at_new]
      rcases copied.at_place i with ⟨empty, new_empty⟩ | ⟨x, y, at_x, at_y, y_ge, -, page_eq⟩
      · rw [slotAt_take lt] at empty
        rw [empty] at same
        exact .inl ⟨map_eq_none_iff.1 same.symm, new_empty⟩
      · rw [slotAt_take lt] at at_x
        rw [at_x] at same
        obtain ⟨z, at_z, eq⟩ := map_eq_some_iff.1 same.symm
        have old := unused id amp _ z at_id at_z
        exact .inr ⟨z, y, at_z, at_y, by omega, page_eq.trans eq.symm⟩
    refine ⟨fun i lt => ?_, fun i lt x y at_x at_y => ?_, fun file i lt => ?_⟩
    · rcases places i lt with ⟨empty, new_empty⟩ | ⟨z, y, at_z, at_y, -⟩
      · rw [empty, new_empty]
      · rw [at_z, at_y]
        rfl
    · rcases places i lt with ⟨empty, -⟩ | ⟨z, y', at_z, at_y', ne, same⟩
      · rw [empty] at at_x
        exact nomatch at_x
      · obtain rfl := some.inj (at_x.symm.trans at_z)
        obtain rfl := some.inj (at_y.symm.trans at_y')
        exact .inr ⟨ne, same⟩
    · rw [contents, contents, vp_eq, offset_eq]
      rcases places i lt with ⟨empty, new_empty⟩ | ⟨z, y, at_z, at_y, -, same⟩
      · rw [empty, new_empty]
        rfl
      · rw [at_z, at_y]
        exact same

/-- A fork that succeeds has copied a private segment exactly if nothing was softlocked or the array
of the segment has the same contents at its beginning as under the segment. -/
theorem segvn_dup_faithful_iff (softlockcnt : ℕ) (io : PageIo) (resv : Bool)
    (addMap : Option Errno) (s s' : St) (a a' : Anons α) (j : ℕ) (seg : Seg) (newas : ℕ)
    (reachable : Reachable s) (at_j : s.segs.get j = some seg) (is_private : seg.type = .mapPrivate)
    (unused : a.Unused s)
    (forked : segvnFork softlockcnt io resv addMap s a seg newas = (none, s', a')) :
    ∃ child, s'.segs.get s.segs.next = some child ∧ child.as = newas ∧ child.base = seg.base ∧
      child.size = seg.size ∧
      (Faithful s a seg s' a' child ↔ softlockcnt = 0 ∨ Aligned s a seg) := by
  have not_shared : seg.type ≠ .mapShared := fun shared => nomatch is_private.symm.trans shared
  rw [segvnFork] at forked
  by_cases refused : seg.swresv ≠ 0 ∧ !resv
  · rw [if_pos refused] at forked
    exact nomatch forked
  · rw [if_neg refused] at forked
    cases uses : seg.amp with
    | none =>
      rw [uses] at forked
      obtain ⟨-, eq⟩ := Prod.mk.inj forked
      cases eq
      refine ⟨_, Table.get_add_self, rfl, rfl, rfl, ?_⟩
      have aligned : Aligned s a seg := fun id amp uses' => nomatch uses.symm.trans uses'
      refine iff_of_true ⟨fun i _ => ?_, fun i _ x y at_x => ?_, fun file i _ => ?_⟩
        (.inr aligned)
      · rw [slotOf_none uses, slotOf_none rfl]
      · rw [slotOf_none uses] at at_x
        exact nomatch at_x
      · rw [contents, contents, slotOf_none uses, slotOf_none rfl]
    | some id =>
      obtain ⟨rest, records_eq, -, fits, -⟩ := reachable.sound.split at_j
      obtain ⟨amp, at_id, linked⟩ := fits.amp uses
      have inside : seg.anonIndex + seg.size ≤ amp.anon.length :=
        linked.inside seg.use mem_cons_self
      have at_id' : (anonResv s seg.swresv).amps.get id = some amp := at_id
      rw [uses] at forked
      dsimp only at forked
      rw [if_neg not_shared, at_id'] at forked
      dsimp only at forked
      have at_copy : ∀ anon i, slotOf
          ((s.amps.add { anonmapAlloc seg.size 0 with anon }).get)
          { seg with as := newas, amp := some s.amps.next, anonIndex := 0 } i =
              slotAt anon i := by
        intro anon i
        rw [Table.add_eq_update, slotOf_update_self rfl, Nat.zero_add]
      rw [copyAnon] at forked
      by_cases unlocked : softlockcnt = 0
      · rw [if_neg (not_not.2 unlocked)] at forked
        obtain ⟨-, eq⟩ := Prod.mk.inj forked
        cases eq
        refine ⟨_, Table.get_add_self, rfl, rfl, rfl, iff_of_true ?_ (.inl unlocked)⟩
        rw [slots_eq uses at_id inside]
        refine faithful_shared rfl rfl fun i lt => ?_
        rw [slotOf_eq uses at_id]
        refine (at_copy _ i).trans ?_
        rw [slotAt_map_range lt, slotOf_eq uses at_id]
      · rw [if_pos unlocked] at forked
        cases copied : a.copyLoop io 0 (amp.anon.take seg.size) with
        | mk error result =>
          obtain ⟨anon, a2⟩ := result
          rw [copied] at forked
          cases error with
          | some error => exact nomatch forked
          | none =>
            obtain ⟨-, eq⟩ := Prod.mk.inj forked
            cases eq
            refine ⟨_, Table.get_add_self, rfl, rfl, rfl, ?_⟩
            rw [or_iff_right unlocked]
            refine faithful_copied_iff rfl rfl uses at_id unused ?_ (at_copy anon)
            refine Anons.copyLoop_copied (fun i x at_i => ?_) copied
            exact unused id amp i x at_id (slotAt_of_take at_i)

end Fork

/-- The segment without its first page. -/
def beheaded : St where
  segs := ⟨[some { newSeg 0 1 2 zeroArgs with swresv := 2, amp := some 0, anonIndex := 1 }]⟩
  amps := ⟨[some ⟨1, 0, [none, some 7, none], 0⟩]⟩
  taken := 2

theorem reachable_beheaded : Reachable beheaded := by
  have cut : step touched (.unmap 0 0 1) = .ok (none, beheaded) := by decide
  have legal : Legal touched (.unmap 0 0 1) := ⟨_, rfl, by decide, by decide, by decide⟩
  exact reachable_touched.step legal cut

def oneSlot : Anons ℕ := ⟨fun x => if x = 7 then 1 else 0, id, 8⟩

theorem oneSlot_unused : oneSlot.Unused beheaded := by
  intro id amp x slot at_id at_x
  match id with
  | 0 =>
    obtain rfl := some.inj at_id
    match x with
    | 0 => exact nomatch at_x
    | 1 =>
      obtain rfl := some.inj at_x
      decide
    | 2 => exact nomatch at_x
    | x + 3 => exact nomatch at_x
  | id + 1 => exact nomatch at_id

/-- What a fork of that segment comes to. -/
def forkOfTwo (softlockcnt : ℕ) : Option Errno × St × Anons ℕ :=
  segvnFork softlockcnt ⟨fun _ => none, fun _ => true⟩ true none beheaded oneSlot
    { newSeg 0 1 2 zeroArgs with swresv := 2, amp := some 0, anonIndex := 1 } 1

theorem segvn_dup_faithful_iff_two :
    ∃ child, (forkOfTwo 0).2.1.segs.get 1 = some child ∧ Faithful beheaded oneSlot
      { newSeg 0 1 2 zeroArgs with swresv := 2, amp := some 0, anonIndex := 1 }
      (forkOfTwo 0).2.1 (forkOfTwo 0).2.2 child := by
  obtain ⟨child, at_child, -, -, -, iff⟩ := segvn_dup_faithful_iff 0 ⟨fun _ => none, fun _ => true⟩
    true none beheaded (forkOfTwo 0).2.1 oneSlot (forkOfTwo 0).2.2 0
    { newSeg 0 1 2 zeroArgs with swresv := 2, amp := some 0, anonIndex := 1 } 1 reachable_beheaded
    rfl rfl oneSlot_unused rfl
  exact ⟨child, at_child, iff.2 (.inl rfl)⟩

/-- While the page is softlocked, the copy has it one page too far up. -/
theorem not_segvn_dup_faithful :
    ¬ ∀ (softlockcnt : ℕ) (io : PageIo) (resv : Bool) (addMap : Option Errno) (s s' : St)
      (a a' : Anons ℕ) (j : ℕ) (seg : Seg) (newas : ℕ), Reachable s → s.segs.get j = some seg →
      seg.type = .mapPrivate → a.Unused s →
      segvnFork softlockcnt io resv addMap s a seg newas = (none, s', a') →
      ∃ child, s'.segs.get s.segs.next = some child ∧ Faithful s a seg s' a' child := by
  intro all
  obtain ⟨child, at_child, faithful⟩ := all 1 ⟨fun _ => none, fun _ => true⟩ true none beheaded
    (forkOfTwo 1).2.1 oneSlot (forkOfTwo 1).2.2 0
    { newSeg 0 1 2 zeroArgs with swresv := 2, amp := some 0, anonIndex := 1 } 1 reachable_beheaded
    rfl rfl oneSlot_unused rfl
  obtain rfl := some.inj at_child
  exact absurd (faithful.slots 0 (by decide)) (by decide)

end Sol25.Segvn
