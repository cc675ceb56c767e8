import Sol25.Segvn.Layout

/-!
# The pages of segments

What a page of a segment is: the slot of the anon map under it, the place in the file, and its
protection.  The edits that the driver makes on segments and anon maps are taken one by one here: a
segment is cut, extended, joined with the next one, or gets other protections.
-/

namespace Sol25.Segvn

open Function List

def slotOf (amps : ℕ → Option Amp) (seg : Seg) (i : ℕ) : Option ℕ :=
  (seg.amp.bind amps).bind fun amp => slotAt amp.anon (seg.anonIndex + i)

def Seg.pageProt (seg : Seg) (i : ℕ) : Prot :=
  if seg.pageprot then ((seg.vpage.bind fun vpage => vpage[i]?).map Vpage.prot).getD 0 else seg.prot

/-- A page: its slot, its vnode and offset, its protection. -/
structure Page where
  slot : Option ℕ
  file : Option (ℕ × ℤ)
  prot : Prot
  deriving DecidableEq, Repr

def pageOf (amps : ℕ → Option Amp) (seg : Seg) (p : ℕ) : Page where
  slot := slotOf amps seg (p - seg.base)
  file := seg.vp.map fun vp => (vp, seg.offset + (p - seg.base : ℕ))
  prot := seg.pageProt (p - seg.base)

/-- A segment has a page at an address of an address space. -/
def Seg.Spans (seg : Seg) (as p : ℕ) : Prop := seg.as = as ∧ seg.base ≤ p ∧ p < seg.base + seg.size

instance (seg : Seg) (as p : ℕ) : Decidable (seg.Spans as p) :=
  inferInstanceAs (Decidable (_ ∧ _ ∧ _))

def Shows (segs : List Seg) (amps : ℕ → Option Amp) (as p : ℕ) (page : Page) : Prop :=
  ∃ seg ∈ segs, seg.Spans as p ∧ pageOf amps seg p = page

variable {amp : Amp} {anon : List (Option ℕ)} {id pg x : ℕ}

theorem slotAt_eq_none_of_length_le (le : anon.length ≤ x) : slotAt anon x = none := by
  rw [slotAt, getElem?_eq_none le, Option.join_none]

theorem slotAt_anonFree {start n : ℕ} :
    slotAt (anonFree anon start n) x = if start ≤ x ∧ x < start + n then none else
      slotAt anon x := by
  rw [slotAt, anonFree, getElem?_mapIdx, slotAt]
  cases anon[x]? with
  | none => simp
  | some slot => split_ifs <;> simp

theorem length_anonFree {start n : ℕ} : (anonFree anon start n).length = anon.length :=
  length_mapIdx

section Shown

variable {seg : Seg} {segs rest news : List Seg} {amps amps' : ℕ → Option Amp} {as p : ℕ}
  {page : Page}

theorem shows_append :
    Shows (news ++ rest) amps as p page ↔ Shows news amps as p page ∨
      Shows rest amps as p page := by
  simp only [Shows, mem_append, or_and_right, exists_or]

theorem shows_cons : Shows (seg :: rest) amps as p page ↔
    (seg.Spans as p ∧ pageOf amps seg p = page) ∨ Shows rest amps as p page := by
  simp only [Shows, mem_cons, exists_eq_or_imp]

theorem shows_nil : ¬ Shows [] amps as p page := by
  rintro ⟨seg, member, -⟩
  exact nomatch member

theorem Shows.perm (perm : segs.Perm news) :
    Shows segs amps as p page ↔ Shows news amps as p page := by
  simp only [Shows, perm.mem_iff]

theorem shows_congr
    (same_slots : ∀ seg ∈ segs, ∀ i < seg.size, slotOf amps' seg i = slotOf amps seg i) :
    Shows segs amps' as p page ↔ Shows segs amps as p page := by
  have same_page : ∀ seg ∈ segs, seg.Spans as p → pageOf amps' seg p = pageOf amps seg p := by
    intro seg member spans
    obtain ⟨-, base_le, lt_end⟩ := spans
    rw [pageOf, pageOf, same_slots seg member (p - seg.base) (by omega)]
  constructor
  · rintro ⟨seg, member, spans, shown⟩
    exact ⟨seg, member, spans, (same_page seg member spans).symm.trans shown⟩
  · rintro ⟨seg, member, spans, shown⟩
    exact ⟨seg, member, spans, (same_page seg member spans).trans shown⟩

theorem Placed.not_both (placed : Placed (seg :: rest)) (spans : seg.Spans as p) :
    ¬ Shows rest amps as p page := by
  rintro ⟨other, member, other_spans, -⟩
  obtain ⟨seg_as, base_le, lt_end⟩ := spans
  obtain ⟨other_as, other_le, other_lt⟩ := other_spans
  rcases (pairwise_cons.1 placed.apart).1 other member (seg_as.trans other_as.symm) with
    before | after
  · omega
  · omega

theorem slotOf_update_ne {amp : Option Amp} (uses_not : seg.amp ≠ some id) (i : ℕ) :
    slotOf (update amps id amp) seg i = slotOf amps seg i := by
  rw [slotOf, slotOf]
  cases uses : seg.amp with
  | none => rfl
  | some other =>
    have ne : other ≠ id := fun same => uses_not (by rw [uses, same])
    simp only [Option.bind_some]
    rw [update_of_ne ne]

theorem slotOf_update_self (uses : seg.amp = some id) (i : ℕ) :
    slotOf (update amps id (some amp)) seg i = slotAt amp.anon (seg.anonIndex + i) := by
  rw [slotOf, uses, Option.bind_some, update_self, Option.bind_some]

theorem slotOf_eq (uses : seg.amp = some id) (at_id : amps id = some amp) (i : ℕ) :
    slotOf amps seg i = slotAt amp.anon (seg.anonIndex + i) := by
  rw [slotOf, uses, Option.bind_some, at_id, Option.bind_some]

theorem slotOf_none (uses : seg.amp = none) (i : ℕ) : slotOf amps seg i = none := by
  rw [slotOf, uses, Option.bind_none, Option.bind_none]

end Shown

/-! ### Cutting -/

/-- A part of a segment as a segment of its own. -/
structure Piece (seg piece : Seg) : Prop where
  formed : piece.Formed
  as_eq : piece.as = seg.as
  base_le : seg.base ≤ piece.base
  end_le : piece.base + piece.size ≤ seg.base + seg.size
  type_eq : piece.type = seg.type
  amp_eq : piece.amp = seg.amp
  index_eq : seg.amp ≠ none → piece.anonIndex = seg.anonIndex + (piece.base - seg.base)
  vp_eq : piece.vp = seg.vp
  offset_eq : seg.vp ≠ none → piece.offset = seg.offset + (piece.base - seg.base : ℕ)
  prot_eq : ∀ i < piece.size, piece.pageProt i = seg.pageProt (piece.base - seg.base + i)

/-- The segments that are left when some pages of one go. -/
structure CutInto (seg : Seg) (addr len : ℕ) (pieces : List Seg) : Prop where
  start_le : seg.base ≤ addr
  end_le : addr + len ≤ seg.base + seg.size
  piece : ∀ piece ∈ pieces, Piece seg piece
  apart : pieces.Pairwise fun a b => Apart a.base a.size b.base b.size
  spans : ∀ p, (∃ piece ∈ pieces, piece.base ≤ p ∧ p < piece.base + piece.size) ↔
    (seg.base ≤ p ∧ p < seg.base + seg.size) ∧ ¬ (addr ≤ p ∧ p < addr + len)

/-- The anon array under a segment that some pages went from. -/
def cutAnon (amp : Amp) (seg : Seg) (page len : ℕ) : List (Option ℕ) :=
  if amp.refcnt = 1 ∨ seg.type = .mapPrivate then anonFree amp.anon (seg.anonIndex + page) len
    else amp.anon

/-- The anon map of a segment that some pages went from, `n` segments being left of it. -/
def cutAmp (amp : Amp) (seg : Seg) (page len n : ℕ) : Option Amp :=
  if n = 0 ∧ amp.refcnt - 1 = 0 then none
  else some { amp with refcnt := amp.refcnt + n - 1, anon := cutAnon amp seg page len }

/-- The anon maps after some pages of a segment went. -/
def cutAmps (amps : ℕ → Option Amp) (seg : Seg) (page len n : ℕ) : ℕ → Option Amp :=
  match seg.amp with
  | none => amps
  | some id =>
    match amps id with
    | none => amps
    | some amp => update amps id (cutAmp amp seg page len n)

section Cut

variable {seg : Seg} {pieces rest : List Seg} {amps : ℕ → Option Amp} {addr len as p : ℕ}
  {page : Page}

theorem length_cutAnon : (cutAnon amp seg pg len).length = amp.anon.length := by
  rw [cutAnon]
  split_ifs with freed
  · exact length_anonFree
  · rfl

theorem slotAt_cutAnon (kept : ¬ (seg.anonIndex + pg ≤ x ∧ x < seg.anonIndex + pg + len)) :
    slotAt (cutAnon amp seg pg len) x = slotAt amp.anon x := by
  rw [cutAnon]
  split_ifs with freed
  · rw [slotAt_anonFree, if_neg kept]
  · rfl

theorem slotAt_cutAnon_private (is_private : seg.type = .mapPrivate)
    (gone : seg.anonIndex + pg ≤ x ∧ x < seg.anonIndex + pg + len) :
    slotAt (cutAnon amp seg pg len) x = none := by
  rw [cutAnon, if_pos (.inr is_private), slotAt_anonFree, if_pos gone]

theorem slotAt_of_cutAnon (used : slotAt (cutAnon amp seg pg len) x ≠ none) :
    slotAt amp.anon x ≠ none := by
  rw [cutAnon] at used
  split_ifs at used with freed
  · rw [slotAt_anonFree] at used
    split_ifs at used with inside
    · exact absurd rfl used
    · exact used
  · exact used

section

variable (into : CutInto seg addr len pieces)

include into

theorem CutInto.placed (placed : Placed (seg :: rest)) :
    Placed (pieces ++ rest) := by
  obtain ⟨from_seg, rest_apart⟩ := pairwise_cons.1 placed.apart
  refine ⟨?_, pairwise_append.2 ⟨into.apart.imp ?_, rest_apart, ?_⟩⟩
  · intro new member
    rcases mem_append.1 member with piece | other
    · exact (into.piece new piece).formed
    · exact placed.formed new (mem_cons_of_mem _ other)
  · exact fun apart _ => apart
  · intro piece piece_mem other other_mem same_as
    have is_piece := into.piece piece piece_mem
    exact (from_seg other other_mem (is_piece.as_eq.symm.trans same_as)).sub is_piece.base_le
      is_piece.end_le

theorem CutInto.uses_apart (uses : seg.amp = some id) :
    (pieces.map Seg.use).Pairwise fun u v => Apart u.start u.size v.start v.size := by
  refine pairwise_map.2 (into.apart.imp_of_mem fun {a b} a_mem b_mem apart => ?_)
  have a_index := (into.piece a a_mem).index_eq (by rw [uses]; exact nofun)
  have b_index := (into.piece b b_mem).index_eq (by rw [uses]; exact nofun)
  have a_le := (into.piece a a_mem).base_le
  have b_le := (into.piece b b_mem).base_le
  simp only [Seg.use, a_index, b_index]
  rcases apart with before | after
  · exact .inl (by omega)
  · exact .inr (by omega)

theorem CutInto.fits (fits : Fits (seg :: rest) amps) :
    Fits (pieces ++ rest) (cutAmps amps seg (addr - seg.base) len pieces.length) := by
  have placed := into.placed fits.toPlaced
  have start_le := into.start_le
  rw [cutAmps]
  cases uses : seg.amp with
  | none =>
    exact fits.of_none uses placed fun new member => (into.piece new member).amp_eq.trans uses
  | some id =>
    obtain ⟨amp, at_id, linked⟩ := fits.amp uses
    simp only [at_id]
    refine fits.of_update uses placed
      (fun new member => (into.piece new member).amp_eq.trans uses) ?_
    have refs_eq := linked.refs
    rw [length_cons] at refs_eq
    rw [cutAmp]
    by_cases last : pieces.length = 0 ∧ amp.refcnt - 1 = 0
    · rw [if_pos last]
      have pieces_nil := eq_nil_of_length_eq_zero last.1
      rw [pieces_nil, map_nil, nil_append]
      exact eq_nil_of_length_eq_zero (by omega)
    · rw [if_neg last]
      refine linked.cut ?_ ?_ (into.uses_apart uses) (by rw [length_map]; omega) length_cutAnon
        (fun x => slotAt_of_cutAnon) ?_
      · intro v member
        obtain ⟨piece, piece_mem, rfl⟩ := List.mem_map.1 member
        exact (into.piece piece piece_mem).type_eq
      · intro v member
        obtain ⟨piece, piece_mem, rfl⟩ := List.mem_map.1 member
        have is_piece := into.piece piece piece_mem
        have index_eq := is_piece.index_eq (by rw [uses]; exact nofun)
        have base_le := is_piece.base_le
        have end_le := is_piece.end_le
        simp only [Seg.use, index_eq]
        omega
      · intro is_private x holds used
        obtain ⟨start_le', lt_end⟩ := holds
        simp only [Seg.use] at start_le' lt_end
        have stays : ¬ (addr ≤ seg.base + (x - seg.anonIndex) ∧
            seg.base + (x - seg.anonIndex) < addr + len) := by
          intro goes
          exact used (slotAt_cutAnon_private is_private (by omega))
        obtain ⟨piece, piece_mem, base_le, lt⟩ :=
          (into.spans (seg.base + (x - seg.anonIndex))).2 ⟨by omega, stays⟩
        have index_eq := (into.piece piece piece_mem).index_eq (by rw [uses]; exact nofun)
        have seg_le := (into.piece piece piece_mem).base_le
        refine ⟨piece.use, List.mem_map_of_mem piece_mem, ?_⟩
        simp only [Use.Holds, Seg.use, index_eq]
        omega

/-- The pages of the other segments stay as they are. -/
theorem CutInto.slots_rest (fits : Fits (seg :: rest) amps) :
    ∀ other ∈ rest, ∀ i < other.size,
      slotOf (cutAmps amps seg (addr - seg.base) len pieces.length) other i =
        slotOf amps other i := by
  intro other member i i_lt
  have start_le := into.start_le
  have end_le := into.end_le
  rw [cutAmps]
  cases uses : seg.amp with
  | none => rfl
  | some id =>
    obtain ⟨amp, at_id, linked⟩ := fits.amp uses
    simp only [at_id]
    by_cases shares : other.amp = some id
    · have other_use := mem_usesOf member shares
      have refs_eq := linked.refs
      have uses_pos := length_pos_of_mem other_use
      rw [length_cons] at refs_eq
      rw [cutAmp, if_neg (by omega), slotOf_update_self shares, slotOf_eq shares at_id]
      dsimp only
      by_cases is_private : seg.type = .mapPrivate
      · have owned := linked.owned ⟨seg.use, mem_cons_self, is_private⟩
        have apart := (pairwise_cons.1 owned.apart).1 other.use other_use
        refine slotAt_cutAnon fun gone => ?_
        simp only [Seg.use] at apart
        rcases apart with before | after
        · omega
        · omega
      · have kept : ¬ (amp.refcnt = 1 ∨ seg.type = .mapPrivate) := by
          rintro (one | is_private')
          · omega
          · exact is_private is_private'
        rw [cutAnon, if_neg kept]
    · exact slotOf_update_ne shares i

theorem CutInto.page_eq {piece : Seg} (fits : Fits (seg :: rest) amps) (member : piece ∈ pieces)
    (base_le : piece.base ≤ p) (lt_end : p < piece.base + piece.size) :
    pageOf (cutAmps amps seg (addr - seg.base) len pieces.length) piece p = pageOf amps seg p := by
  have is_piece := into.piece piece member
  have seg_le := is_piece.base_le
  have place_eq : piece.base - seg.base + (p - piece.base) = p - seg.base := by omega
  have slot_eq : slotOf (cutAmps amps seg (addr - seg.base) len pieces.length) piece
    (p - piece.base) = slotOf amps seg (p - seg.base) := by
    rw [cutAmps]
    cases uses : seg.amp with
    | none => rw [slotOf_none (is_piece.amp_eq.trans uses), slotOf_none uses]
    | some id =>
      obtain ⟨amp, at_id, linked⟩ := fits.amp uses
      have pieces_pos := length_pos_of_mem member
      have index_eq := is_piece.index_eq (by rw [uses]; exact nofun)
      simp only [at_id]
      rw [cutAmp, if_neg (by omega), slotOf_update_self (is_piece.amp_eq.trans uses),
        slotOf_eq uses at_id, index_eq, Nat.add_assoc, place_eq]
      refine slotAt_cutAnon fun gone => ?_
      have stays := ((into.spans p).1 ⟨piece, member, base_le, lt_end⟩).2
      have start_le := into.start_le
      omega
  have file_eq : (piece.vp.map fun vp => (vp, piece.offset + (p - piece.base : ℕ))) =
      seg.vp.map fun vp => (vp, seg.offset + (p - seg.base : ℕ)) := by
    rw [is_piece.vp_eq]
    cases vp : seg.vp with
    | none => rfl
    | some vnode =>
      have offset_eq := is_piece.offset_eq (by rw [vp]; exact nofun)
      simp only [Option.map_some, offset_eq, ← place_eq]
      congr 2
      push_cast
      omega
  rw [pageOf, pageOf, slot_eq, file_eq, is_piece.prot_eq _ (by omega), place_eq]

/-- A cut takes away its pages and leaves all others as they are. -/
theorem CutInto.shows (fits : Fits (seg :: rest) amps) :
    Shows (pieces ++ rest) (cutAmps amps seg (addr - seg.base) len pieces.length) as p page ↔
      Shows (seg :: rest) amps as p page ∧ ¬ (seg.as = as ∧ addr ≤ p ∧ p < addr + len) := by
  have start_le := into.start_le
  have end_le := into.end_le
  rw [shows_append, shows_cons, shows_congr (into.slots_rest fits)]
  constructor
  · rintro (⟨piece, member, ⟨piece_as, base_le, lt_end⟩, shown⟩ | in_rest)
    · have stays := (into.spans p).1 ⟨piece, member, base_le, lt_end⟩
      have seg_as := (into.piece piece member).as_eq.symm.trans piece_as
      rw [into.page_eq fits member base_le lt_end] at shown
      exact ⟨.inl ⟨⟨seg_as, stays.1⟩, shown⟩, fun gone => stays.2 gone.2⟩
    · refine ⟨.inr in_rest, fun gone => ?_⟩
      exact fits.toPlaced.not_both ⟨gone.1, by omega, by omega⟩ in_rest
  · rintro ⟨⟨⟨seg_as, base_le, lt_end⟩, shown⟩ | in_rest, stays⟩
    · obtain ⟨piece, member, piece_le, piece_lt⟩ :=
        (into.spans p).2 ⟨⟨base_le, lt_end⟩, fun gone => stays ⟨seg_as, gone⟩⟩
      refine .inl ⟨piece, member,
        ⟨(into.piece piece member).as_eq.trans seg_as, piece_le, piece_lt⟩, ?_⟩
      exact (into.page_eq fits member piece_le piece_lt).trans shown
    · exact .inr in_rest

end

end Cut

/-! ### Extending -/

/-- A segment that took in the pages from `base` on, next to it. -/
structure Extends (seg ext : Seg) (base size : ℕ) (prot : Prot)
    (file : ℕ → Option (ℕ × ℤ)) : Prop where
  formed : ext.Formed
  as_eq : ext.as = seg.as
  type_eq : ext.type = seg.type
  amp_eq : ext.amp = seg.amp
  size_eq : ext.size = seg.size + size
  ends : (ext.base = seg.base ∧ base = seg.base + seg.size) ∨
    (ext.base = base ∧ base + size = seg.base)
  vp_eq : ext.vp = seg.vp
  offset_eq : seg.vp ≠ none → ext.offset + seg.base = seg.offset + ext.base
  prot_old : ∀ p, seg.base ≤ p → p < seg.base + seg.size →
    ext.pageProt (p - ext.base) = seg.pageProt (p - seg.base)
  prot_new : ∀ p, base ≤ p → p < base + size → ext.pageProt (p - ext.base) = prot
  file_new : ∀ p, base ≤ p → p < base + size →
    (ext.vp.map fun vp => (vp, ext.offset + (p - ext.base : ℕ))) = file p

/-- The anon maps before and after a segment was extended: a map under it has no other use, and
outside the old pages of the segment its array is empty. -/
def GrownAmps (seg ext : Seg) (amps amps' : ℕ → Option Amp) : Prop :=
  match seg.amp with
  | none => amps' = amps
  | some id =>
    ∃ amp anon, amps id = some amp ∧ amp.refcnt ≤ 1 ∧ seg.type = .mapPrivate ∧
      amps' = update amps id (some { amp with anon := anon }) ∧
      ext.anonIndex + ext.size ≤ anon.length ∧
      ∀ x, slotAt anon x =
        if ext.anonIndex + (seg.base - ext.base) ≤ x ∧
          x < ext.anonIndex + (seg.base - ext.base) + seg.size then
          slotAt amp.anon (seg.anonIndex + (x - (ext.anonIndex + (seg.base - ext.base))))
        else none

section Extend

variable {seg ext : Seg} {rest : List Seg} {amps amps' : ℕ → Option Amp} {base size as p : ℕ}
  {prot : Prot}
  {file : ℕ → Option (ℕ × ℤ)} {page : Page}

theorem Extends.placed (extends_seg : Extends seg ext base size prot file)
    (placed : Placed (seg :: rest))
    (vacant : ∀ other ∈ rest, other.as = seg.as → Apart other.base other.size base size) :
    Placed (ext :: rest) := by
  refine placed.tail.add extends_seg.formed fun other member same_as => ?_
  have seg_as := extends_seg.as_eq.symm.trans same_as
  have from_seg := (pairwise_cons.1 placed.apart).1 other member seg_as
  have from_new := vacant other member seg_as.symm
  have other_pos := (placed.formed other (mem_cons_of_mem _ member)).size_pos
  have size_eq := extends_seg.size_eq
  rcases extends_seg.ends with ⟨base_eq, new_eq⟩ | ⟨base_eq, new_eq⟩ <;>
    rcases from_seg with before | after <;>
    rcases from_new with new_before | new_after <;> unfold Apart <;> omega

theorem Extends.fits (extends_seg : Extends seg ext base size prot file)
    (grown : GrownAmps seg ext amps amps') (fits : Fits (seg :: rest) amps)
    (vacant : ∀ other ∈ rest, other.as = seg.as → Apart other.base other.size base size) :
    Fits (ext :: rest) amps' := by
  have placed := extends_seg.placed fits.toPlaced vacant
  rw [GrownAmps] at grown
  cases uses : seg.amp with
  | none =>
    simp only [uses] at grown
    rw [grown]
    change Fits ([ext] ++ rest) amps
    refine fits.of_none uses placed ?_
    intro new member
    rw [mem_singleton.1 member, extends_seg.amp_eq, uses]
  | some id =>
    simp only [uses] at grown
    obtain ⟨amp, anon, at_id, refcnt_le, is_private, rfl, inside, slots⟩ := grown
    obtain ⟨amp', at_id', linked⟩ := fits.amp uses
    obtain rfl : amp = amp' := Option.some.inj (at_id.symm.trans at_id')
    obtain ⟨sole, -⟩ := linked.sole is_private refcnt_le
    change Fits ([ext] ++ rest) _
    refine fits.of_update uses placed ?_ ?_
    · intro new member
      rw [mem_singleton.1 member, extends_seg.amp_eq, uses]
    · rw [sole] at linked ⊢
      refine linked.rebase is_private extends_seg.type_eq inside fun x used => ?_
      rw [slots x] at used
      split_ifs at used with old
      · have size_eq := extends_seg.size_eq
        have ends := extends_seg.ends
        simp only [Use.Holds, Seg.use]
        omega
      · exact absurd rfl used

theorem Extends.slots_rest (grown : GrownAmps seg ext amps amps') (fits : Fits (seg :: rest) amps) :
    ∀ other ∈ rest, ∀ i < other.size, slotOf amps' other i = slotOf amps other i := by
  intro other member i _
  rw [GrownAmps] at grown
  cases uses : seg.amp with
  | none =>
    simp only [uses] at grown
    rw [grown]
  | some id =>
    simp only [uses] at grown
    obtain ⟨amp, anon, at_id, refcnt_le, is_private, rfl, -, -⟩ := grown
    obtain ⟨amp', at_id', linked⟩ := fits.amp uses
    obtain rfl : amp = amp' := Option.some.inj (at_id.symm.trans at_id')
    refine slotOf_update_ne (fun shares => ?_) i
    have other_use := mem_usesOf member shares
    rw [(linked.sole is_private refcnt_le).1] at other_use
    exact nomatch other_use

section

variable (extends_seg : Extends seg ext base size prot file) (grown : GrownAmps seg ext amps amps')

include extends_seg grown

theorem Extends.page_old (base_le : seg.base ≤ p) (lt_end : p < seg.base + seg.size) :
    pageOf amps' ext p = pageOf amps seg p := by
  have ends := extends_seg.ends
  have slot_eq : slotOf amps' ext (p - ext.base) = slotOf amps seg (p - seg.base) := by
    rw [GrownAmps] at grown
    cases uses : seg.amp with
    | none => rw [slotOf_none (extends_seg.amp_eq.trans uses), slotOf_none uses]
    | some id =>
      simp only [uses] at grown
      obtain ⟨amp, anon, at_id, -, -, rfl, -, slots⟩ := grown
      rw [slotOf_update_self (extends_seg.amp_eq.trans uses), slotOf_eq uses at_id]
      dsimp only
      rw [slots, if_pos (by omega)]
      congr 2
      omega
  have file_eq : (ext.vp.map fun vp => (vp, ext.offset + (p - ext.base : ℕ))) =
      seg.vp.map fun vp => (vp, seg.offset + (p - seg.base : ℕ)) := by
    rw [extends_seg.vp_eq]
    cases vp : seg.vp with
    | none => rfl
    | some vnode =>
      have offset_eq := extends_seg.offset_eq (by rw [vp]; exact nofun)
      simp only [Option.map_some]
      congr 2
      omega
  rw [pageOf, pageOf, slot_eq, file_eq, extends_seg.prot_old p base_le lt_end]

theorem Extends.page_new (base_le : base ≤ p) (lt_end : p < base + size) :
    pageOf amps' ext p = ⟨none, file p, prot⟩ := by
  have ends := extends_seg.ends
  have slot_eq : slotOf amps' ext (p - ext.base) = none := by
    rw [GrownAmps] at grown
    cases uses : seg.amp with
    | none => exact slotOf_none (extends_seg.amp_eq.trans uses) _
    | some id =>
      simp only [uses] at grown
      obtain ⟨amp, anon, at_id, -, -, rfl, -, slots⟩ := grown
      rw [slotOf_update_self (extends_seg.amp_eq.trans uses)]
      dsimp only
      rw [slots, if_neg (by omega)]
  rw [pageOf, slot_eq, extends_seg.file_new p base_le lt_end, extends_seg.prot_new p base_le lt_end]

/-- An extension adds its pages, without slots, and leaves all others as they are. -/
theorem Extends.shows (fits : Fits (seg :: rest) amps) :
    Shows (ext :: rest) amps' as p page ↔
      Shows (seg :: rest) amps as p page ∨ (seg.as = as ∧ base ≤ p ∧ p < base + size) ∧
        page = ⟨none, file p, prot⟩ := by
  have ends := extends_seg.ends
  have size_eq := extends_seg.size_eq
  rw [shows_cons, shows_cons, shows_congr (Extends.slots_rest grown fits)]
  constructor
  · rintro (⟨⟨ext_as, base_le, lt_end⟩, shown⟩ | in_rest)
    · have seg_as := extends_seg.as_eq.symm.trans ext_as
      by_cases old : seg.base ≤ p ∧ p < seg.base + seg.size
      · exact .inl (.inl
          ⟨⟨seg_as, old⟩, (extends_seg.page_old grown old.1 old.2).symm.trans shown⟩)
      · have new : base ≤ p ∧ p < base + size := by omega
        exact .inr ⟨⟨seg_as, new⟩, shown.symm.trans (extends_seg.page_new grown new.1 new.2)⟩
    · exact .inl (.inr in_rest)
  · rintro ((⟨⟨seg_as, base_le, lt_end⟩, shown⟩ | in_rest) | ⟨⟨seg_as, base_le, lt_end⟩, rfl⟩)
    · refine .inl ⟨⟨extends_seg.as_eq.trans seg_as, by omega, by omega⟩, ?_⟩
      exact (extends_seg.page_old grown base_le lt_end).trans shown
    · exact .inr in_rest
    · refine .inl ⟨⟨extends_seg.as_eq.trans seg_as, by omega, by omega⟩, ?_⟩
      exact extends_seg.page_new grown base_le lt_end

end

end Extend

/-! ### Joining and protecting -/

/-- Two neighbours without anon maps in one segment. -/
structure Joins (a b c : Seg) : Prop where
  formed : c.Formed
  as_eq : c.as = a.as
  as_eq' : b.as = a.as
  base_eq : c.base = a.base
  next_eq : b.base = a.base + a.size
  size_eq : c.size = a.size + b.size
  amp_left : a.amp = none
  amp_right : b.amp = none
  amp_eq : c.amp = none
  vp_eq : c.vp = a.vp
  vp_eq' : b.vp = a.vp
  offset_eq : c.offset = a.offset
  offset_eq' : a.vp ≠ none → b.offset = a.offset + a.size
  prot_left : ∀ i < a.size, c.pageProt i = a.pageProt i
  prot_right : ∀ i < b.size, c.pageProt (a.size + i) = b.pageProt i

/-- A segment with another protection for some of its pages. -/
structure Protects (seg seg' : Seg) (addr len : ℕ) (prot : Prot) : Prop where
  formed : seg'.Formed
  as_eq : seg'.as = seg.as
  base_eq : seg'.base = seg.base
  size_eq : seg'.size = seg.size
  type_eq : seg'.type = seg.type
  amp_eq : seg'.amp = seg.amp
  index_eq : seg'.anonIndex = seg.anonIndex
  vp_eq : seg'.vp = seg.vp
  offset_eq : seg'.offset = seg.offset
  prot_eq : ∀ i < seg.size, seg'.pageProt i =
    if addr ≤ seg.base + i ∧ seg.base + i < addr + len then prot else seg.pageProt i

section Join

variable {a b c seg seg' : Seg} {rest : List Seg} {amps : ℕ → Option Amp} {addr len as p : ℕ}
  {prot : Prot} {page : Page}

theorem Joins.fits (joins : Joins a b c) (fits : Fits (a :: b :: rest) amps) :
    Fits (c :: rest) amps := by
  have apart_a := (pairwise_cons.1 fits.apart).1
  have apart_b := (pairwise_cons.1 (pairwise_cons.1 fits.apart).2).1
  have size_eq := joins.size_eq
  have base_eq := joins.base_eq
  have next_eq := joins.next_eq
  refine ⟨fits.toPlaced.tail.tail.add joins.formed fun other member same_as => ?_, fun id => ?_⟩
  · have other_pos := (fits.formed other (mem_cons_of_mem _ (mem_cons_of_mem _ member))).size_pos
    have from_a := apart_a other (mem_cons_of_mem _ member) (joins.as_eq.symm.trans same_as)
    have from_b := apart_b other member (joins.as_eq'.trans (joins.as_eq.symm.trans same_as))
    rcases from_a with before | after <;> rcases from_b with before' | after' <;>
      unfold Apart <;> omega
  · have linked := fits.linked id
    rw [usesOf_cons_ne (by rw [joins.amp_left]; exact nofun),
      usesOf_cons_ne (by rw [joins.amp_right]; exact nofun)]
      at linked
    rwa [usesOf_cons_ne (by rw [joins.amp_eq]; exact nofun)]

theorem Joins.page_left (joins : Joins a b c) (base_le : a.base ≤ p)
    (lt_end : p < a.base + a.size) :
    pageOf amps c p = pageOf amps a p := by
  rw [pageOf, pageOf, slotOf_none joins.amp_eq, slotOf_none joins.amp_left, joins.vp_eq,
    joins.offset_eq, joins.base_eq, joins.prot_left _ (by omega)]

theorem Joins.page_right (joins : Joins a b c) (base_le : b.base ≤ p)
    (lt_end : p < b.base + b.size) :
    pageOf amps c p = pageOf amps b p := by
  have next_eq := joins.next_eq
  have file_eq : (c.vp.map fun vp => (vp, c.offset + (p - c.base : ℕ))) =
      b.vp.map fun vp => (vp, b.offset + (p - b.base : ℕ)) := by
    rw [joins.vp_eq, joins.vp_eq', joins.offset_eq, joins.base_eq]
    cases vp : a.vp with
    | none => rfl
    | some vnode =>
      have offset_eq := joins.offset_eq' (by rw [vp]; exact nofun)
      simp only [Option.map_some]
      congr 2
      omega
  have place_eq : p - c.base = a.size + (p - b.base) := by
    rw [joins.base_eq]
    omega
  rw [pageOf, pageOf, slotOf_none joins.amp_eq, slotOf_none joins.amp_right, file_eq, place_eq,
    joins.prot_right _ (by omega)]

/-- A join shows what its two segments showed. -/
theorem Joins.shows (joins : Joins a b c) :
    Shows (c :: rest) amps as p page ↔ Shows (a :: b :: rest) amps as p page := by
  have size_eq := joins.size_eq
  have base_eq := joins.base_eq
  have next_eq := joins.next_eq
  rw [shows_cons, shows_cons, shows_cons, ← or_assoc]
  refine or_congr_left ⟨?_, ?_⟩
  · rintro ⟨⟨c_as, base_le, lt_end⟩, shown⟩
    have a_as := joins.as_eq.symm.trans c_as
    by_cases left : p < a.base + a.size
    · exact .inl ⟨⟨a_as, by omega, left⟩, (joins.page_left (by omega) left).symm.trans shown⟩
    · have right : b.base ≤ p ∧ p < b.base + b.size := by omega
      exact .inr ⟨⟨joins.as_eq'.trans a_as, right⟩,
        (joins.page_right right.1 right.2).symm.trans shown⟩
  · rintro (⟨⟨a_as, base_le, lt_end⟩, shown⟩ | ⟨⟨b_as, base_le, lt_end⟩, shown⟩)
    · exact ⟨⟨joins.as_eq.trans a_as, by omega, by omega⟩,
        (joins.page_left base_le lt_end).trans shown⟩
    · refine ⟨⟨joins.as_eq.trans (joins.as_eq'.symm.trans b_as), by omega, by omega⟩, ?_⟩
      exact (joins.page_right base_le lt_end).trans shown

theorem Protects.fits (protects : Protects seg seg' addr len prot)
    (fits : Fits (seg :: rest) amps) :
    Fits (seg' :: rest) amps := by
  have apart := (pairwise_cons.1 fits.apart).1
  refine ⟨fits.toPlaced.tail.add protects.formed fun other member same_as => ?_, fun id => ?_⟩
  · rw [protects.base_eq, protects.size_eq]
    exact apart other member (protects.as_eq.symm.trans same_as)
  · have linked := fits.linked id
    by_cases uses : seg.amp = some id
    · have use_eq : seg'.use = seg.use := by
        rw [Seg.use, Seg.use, protects.index_eq, protects.size_eq, protects.type_eq]
      rw [usesOf_cons_self uses] at linked
      rwa [usesOf_cons_self (protects.amp_eq.trans uses), use_eq]
    · rw [usesOf_cons_ne uses] at linked
      rwa [usesOf_cons_ne (by rwa [protects.amp_eq])]

theorem Protects.page_eq (protects : Protects seg seg' addr len prot) (base_le : seg.base ≤ p)
    (lt_end : p < seg.base + seg.size) :
    pageOf amps seg' p = { pageOf amps seg p with
      prot := if addr ≤ p ∧ p < addr + len then prot else (pageOf amps seg p).prot } := by
  have place_eq : seg.base + (p - seg.base) = p := by omega
  have prot_eq := protects.prot_eq (p - seg.base) (by omega)
  rw [place_eq] at prot_eq
  have slot_eq : slotOf amps seg' (p - seg.base) = slotOf amps seg (p - seg.base) := by
    rw [slotOf, slotOf, protects.amp_eq, protects.index_eq]
  simp only [pageOf, protects.base_eq, protects.vp_eq, protects.offset_eq, prot_eq, slot_eq]

/-- Other protections for some pages leave all else as it is. -/
theorem Protects.shows (protects : Protects seg seg' addr len prot) (fits : Fits (seg :: rest) amps)
    (start_le : seg.base ≤ addr) (end_le : addr + len ≤ seg.base + seg.size) :
    Shows (seg' :: rest) amps as p page ↔ ∃ old, Shows (seg :: rest) amps as p old ∧
        page = { old with
          prot := if seg.as = as ∧ addr ≤ p ∧ p < addr + len then prot else old.prot } := by
  simp only [shows_cons]
  constructor
  · rintro (⟨⟨seg_as, base_le, lt_end⟩, shown⟩ | in_rest)
    · rw [protects.as_eq] at seg_as
      rw [protects.base_eq] at base_le lt_end
      rw [protects.size_eq] at lt_end
      refine ⟨pageOf amps seg p, .inl ⟨⟨seg_as, base_le, lt_end⟩, rfl⟩, ?_⟩
      rw [← shown, protects.page_eq base_le lt_end]
      simp only [seg_as, true_and]
    · refine ⟨page, .inr in_rest, ?_⟩
      rw [if_neg]
      rintro ⟨seg_as, addr_le, lt⟩
      exact fits.toPlaced.not_both ⟨seg_as, by omega, by omega⟩ in_rest
  · rintro ⟨old, ⟨⟨seg_as, base_le, lt_end⟩, shown⟩ | in_rest, rfl⟩
    · refine .inl ⟨⟨protects.as_eq.trans seg_as, ?_, ?_⟩, ?_⟩
      · rwa [protects.base_eq]
      · rwa [protects.base_eq, protects.size_eq]
      · rw [protects.page_eq base_le lt_end, shown]
        simp only [seg_as, true_and]
    · right
      rw [if_neg]
      · exact in_rest
      · rintro ⟨seg_as, addr_le, lt⟩
        exact fits.toPlaced.not_both ⟨seg_as, by omega, by omega⟩ in_rest

end Join

end Sol25.Segvn
