import Sol25.Segvn.Extend

/-!
# Creating a segment

What `segvn_create` can do to the table of segments: a neighbour takes the new pages in, and may be
joined with the one after them, or the new segment stands alone.  A neighbour that could not take
them in may have moved its slots.
-/

namespace Sol25.Segvn

open List Option

variable {e : Env} {s s1 s' : St} {j k : ℕ} {seg ext nseg : Seg} {as base size swresv : ℕ}
  {a : Crargs} {prot : Prot}
  {file : ℕ → Option (ℕ × ℤ)}

def St.Shows (s : St) (as p : ℕ) (page : Page) : Prop :=
  Segvn.Shows s.segs.records s.amps.get as p page

theorem St.Sound.split (sound : s.Sound) (at_j : s.segs.get j = some seg) :
    ∃ rest, s.segs.records.Perm (seg :: rest) ∧
      (∀ entry, (s.segs.put j entry).records.Perm (entry.toList ++ rest)) ∧
      Fits (seg :: rest) s.amps.get ∧ ∀ other ∈ rest, ∃ k, k ≠ j ∧ s.segs.get k = some other := by
  obtain ⟨rest, records_eq, others⟩ := Table.records_put at_j
  refine ⟨rest, records_eq, others, Fits.perm sound records_eq, fun other member => ?_⟩
  have in_rest := (others none).mem_iff.2 member
  obtain ⟨k, at_k⟩ := Table.mem_records.1 in_rest
  rcases Table.get_put_cases at_k with ⟨-, impossible⟩ | ⟨ne, at_k⟩
  · exact nomatch impossible
  · exact ⟨k, ne, at_k⟩

theorem St.Sound.formed (sound : s.Sound) (at_j : s.segs.get j = some seg) : seg.Formed :=
  Placed.formed sound.toPlaced seg (Table.mem_records.2 ⟨j, at_j⟩)

theorem St.Sound.apart (sound : s.Sound) (at_j : s.segs.get j = some seg)
    (at_k : s.segs.get k = some nseg) (ne : j ≠ k) (same_as : seg.as = nseg.as) :
    Apart seg.base seg.size nseg.base nseg.size := by
  obtain ⟨rest, records_eq, -⟩ := Table.records_put_two at_j at_k ne
  have fits := Fits.perm sound records_eq
  exact (pairwise_cons.1 fits.apart).1 nseg mem_cons_self same_as

/-- No other segment lies where a segment is extended to. -/
def Clear (s : St) (j as base size : ℕ) : Prop :=
  ∀ k other, k ≠ j → s.segs.get k = some other → other.as = as →
    Apart other.base other.size base size

theorem Grew.sound (grew : Grew s s' j seg ext) (sound : s.Sound) (at_j : s.segs.get j = some seg)
    (extends_seg : Extends seg ext base size prot file) (clear : Clear s j seg.as base size) :
    s'.Sound := by
  obtain ⟨rest, -, others, fits, in_rest⟩ := sound.split at_j
  have fits' := extends_seg.fits grew.grown fits fun other member same_as => by
    obtain ⟨k, ne, at_k⟩ := in_rest other member
    exact clear k other ne at_k same_as
  rw [St.Sound, grew.segs_eq]
  exact fits'.perm (others (some ext)).symm

variable {page : Page} {new seg1 seg2 : Seg} {s1 : St} {as' id n p : ℕ}

theorem Grew.shows (grew : Grew s s' j seg ext) (sound : s.Sound) (at_j : s.segs.get j = some seg)
    (extends_seg : Extends seg ext base size prot file) :
    s'.Shows as' p page ↔ s.Shows as' p page ∨ (seg.as = as' ∧ base ≤ p ∧ p < base + size) ∧
        page = ⟨none, file p, prot⟩ := by
  obtain ⟨rest, records_eq, others, fits, -⟩ := sound.split at_j
  rw [St.Shows, St.Shows, grew.segs_eq, Shows.perm (others (some ext)), Shows.perm records_eq]
  exact extends_seg.shows grew.grown fits

/-- Nothing happened, or the slots of one segment have moved. -/
inductive Nudge (s s' : St) : Prop
  | same (eq : s' = s)
  | moved (j : ℕ) (seg ext : Seg) (prot : Prot) (file : ℕ → Option (ℕ × ℤ))
      (at_j : s.segs.get j = some seg)
      (grew : Grew s s' j seg ext) (resv_eq : ext.swresv = seg.swresv)
      (extends_seg : Extends seg ext (seg.base + seg.size) 0 prot file)

theorem Extends.place_eq (extends_seg : Extends seg ext (seg.base + seg.size) 0 prot file)
    (formed : seg.Formed) :
    ext.base = seg.base ∧ ext.size = seg.size := by
  have size_pos := formed.size_pos
  have size_eq := extends_seg.size_eq
  rcases extends_seg.ends with ⟨base_eq, -⟩ | ⟨-, impossible⟩
  · exact ⟨base_eq, size_eq⟩
  · omega

theorem Nudge.sound (nudge : Nudge s s') (sound : s.Sound) : s'.Sound := by
  cases nudge with
  | same eq => rwa [eq]
  | moved j seg ext prot file at_j grew resv_eq extends_seg =>
    refine grew.sound sound at_j extends_seg fun k other ne at_k same_as => ?_
    have apart := sound.apart at_k at_j ne same_as
    rcases apart with before | after
    · exact .inl (by omega)
    · exact .inr (by omega)

theorem Nudge.shows (nudge : Nudge s s') (sound : s.Sound) :
    s'.Shows as' p page ↔ s.Shows as' p page := by
  cases nudge with
  | same eq => rw [eq]
  | moved j seg ext prot file at_j grew resv_eq extends_seg =>
    rw [grew.shows sound at_j extends_seg]
    refine or_iff_left ?_
    rintro ⟨⟨-, base_le, lt_end⟩, -⟩
    omega

theorem Nudge.vacant (nudge : Nudge s s') (sound : s.Sound) (vacant : Vacant s as base size) :
    Vacant s' as base size := by
  cases nudge with
  | same eq => rwa [eq]
  | moved j seg ext prot file at_j grew resv_eq extends_seg =>
    intro k other at_k same_as
    obtain ⟨base_eq, size_eq⟩ := extends_seg.place_eq (sound.formed at_j)
    rw [grew.segs_eq] at at_k
    rcases Table.get_put_cases at_k with ⟨-, other_eq⟩ | ⟨-, at_k⟩
    · obtain rfl := some.inj other_eq
      rw [base_eq, size_eq]
      exact vacant j seg at_j (extends_seg.as_eq.symm.trans same_as)
    · exact vacant k other at_k same_as

/-! ### Joining with the neighbours -/

theorem of_endingAt (found : endingAt s as base = some j) (at_j : s.segs.get j = some seg) :
    seg.as = as ∧ seg.base + seg.size = base := by
  obtain ⟨seg', at_j', holds⟩ := Table.get_of_locate found
  obtain rfl : seg = seg' := some.inj (at_j.symm.trans at_j')
  rwa [decide_eq_true_eq] at holds

theorem of_startingAt (found : startingAt s as base = some j) (at_j : s.segs.get j = some seg) :
    seg.as = as ∧ seg.base = base := by
  obtain ⟨seg', at_j', holds⟩ := Table.get_of_locate found
  obtain rfl : seg = seg' := some.inj (at_j.symm.trans at_j')
  rwa [decide_eq_true_eq] at holds

/-- The anon array of a segment can be made to hold some more pages at its end. -/
def growsAtEnd (e : Env) (s : St) (seg : Seg) (size : ℕ) : Bool :=
  match seg.amp with
  | none => true
  | some id =>
    match s.amps.get id with
    | none => false
    | some amp =>
      ¬ (1 < amp.refcnt ∨ seg.type = .mapShared) ∧
        (¬ amp.anon.length - seg.anonIndex < seg.size + size ∨ e.prevAnon = true)

/-- The anon array of a segment can be made to hold some more pages at its beginning. -/
def growsAtFront (e : Env) (s : St) (seg : Seg) (size : ℕ) : Bool :=
  match seg.amp with
  | none => true
  | some id =>
    match s.amps.get id with
    | none => false
    | some amp => ¬ (1 < amp.refcnt ∨ seg.type = .mapShared) ∧
        (¬ seg.anonIndex < size ∨ e.nextAnon = true)

/-- The tests that let the previous segment take a new one in. -/
def joinsPrev (e : Env) (s : St) (pseg : Seg) (size : ℕ) (a : Crargs) : Bool :=
  (pseg.size + size ≤ e.combThrshld ∨ pseg.amp = none) ∧ extendTest pseg a = true ∧
    (pseg.vp = none ∨ pseg.offset + pseg.size = a.offset) ∧ growsAtEnd e s pseg size = true ∧
    (pseg.vpage = none ∨ e.prevVpage = true)

/-- The tests that let the next segment take a new one in. -/
def joinsNext (e : Env) (s : St) (nseg : Seg) (size : ℕ) (a : Crargs) : Bool :=
  extendTest nseg a = true ∧ (nseg.vp = none ∨ (a.offset : ℤ) + size = nseg.offset) ∧
    growsAtFront e s nseg size = true ∧ (nseg.vpage = none ∨ e.nextVpage = true)

/-- The tests that let an extended segment be joined with the one after the new pages. -/
def joinsAfter (e : Env) (pseg nseg : Seg) (size : ℕ) : Bool :=
  concatTest { pseg with size := pseg.size + size } nseg = true ∧
    (pseg.vpage = none ∧ nseg.vpage = none ∨ e.concatVpage = true)

theorem isSome_guarded {α : Type*} {shared small memory : Prop} [Decidable shared] [Decidable small]
    [Decidable memory] (x y : α) :
    (if shared then none else if small then if memory then some x else none else some y).isSome =
      decide (¬ shared ∧ (¬ small ∨ memory)) := by
  split_ifs <;> simp [*]

theorem expandAtEnd_isSome : (expandAtEnd e s j seg size).isSome = growsAtEnd e s seg size := by
  rw [expandAtEnd, growsAtEnd]
  cases seg.amp with
  | none => rfl
  | some id =>
    cases at_id : s.amps.get id with
    | none => simp only [at_id, isSome_none]
    | some amp =>
      simp only [at_id]
      exact isSome_guarded _ _

theorem expandAtFront_isSome :
    (expandAtFront e s j seg size).isSome = growsAtFront e s seg size := by
  rw [expandAtFront, growsAtFront]
  cases seg.amp with
  | none => rfl
  | some id =>
    cases at_id : s.amps.get id with
    | none => simp only [at_id, isSome_none]
    | some amp =>
      simp only [at_id]
      exact isSome_guarded _ _

theorem expandAtEnd_vpage (eq : expandAtEnd e s j seg size = some (s1, seg1)) :
    seg1.vpage = seg.vpage := by
  rw [expandAtEnd] at eq
  repeat' split at eq
  all_goals first | (obtain ⟨-, rfl⟩ := Prod.mk.inj (some.inj eq); rfl) | cases eq

theorem expandAtFront_vpage (eq : expandAtFront e s j seg size = some (s1, seg1)) :
    seg1.vpage = seg.vpage := by
  rw [expandAtFront] at eq
  repeat' split at eq
  all_goals first | (obtain ⟨-, rfl⟩ := Prod.mk.inj (some.inj eq); rfl) | cases eq

theorem segvnExtendPrev_fst : (segvnExtendPrev e s j seg size a swresv).1 = true ↔
    extendTest seg a = true ∧ (seg.vp = none ∨ seg.offset + seg.size = a.offset) ∧
      growsAtEnd e s seg size = true ∧
      (seg.vpage = none ∨ e.prevVpage = true) := by
  rw [← @expandAtEnd_isSome e s j seg size, segvnExtendPrev]
  split
  next fails => simp_all
  next passes =>
    split
    next differs => simp_all
    next agrees =>
      have offset_eq : seg.vp = none ∨ seg.offset + seg.size = a.offset := by
        rwa [not_and_or, not_not, not_not] at agrees
      split
      next expand => simp [expand]
      next s1 seg1 expand =>
        rw [expandAtEnd_vpage expand]
        split
        next no_memory => simp_all
        next memory =>
          rw [not_and_or, not_not, Bool.not_eq_true, Bool.not_eq_false'] at memory
          rw [Bool.not_eq_true, Bool.not_eq_false'] at passes
          simp [expand, offset_eq, memory, passes]

theorem segvnExtendNext_fst :
    (segvnExtendNext e s j seg size a swresv).1 = true ↔ joinsNext e s seg size a = true := by
  rw [joinsNext, decide_eq_true_eq, ← @expandAtFront_isSome e s j seg size, segvnExtendNext]
  split
  next fails => simp_all
  next passes =>
    split
    next differs => simp_all
    next agrees =>
      have offset_eq : seg.vp = none ∨ (a.offset : ℤ) + size = seg.offset := by
        rwa [not_and_or, not_not, not_not] at agrees
      split
      next expand => simp [expand]
      next s1 seg1 expand =>
        rw [expandAtFront_vpage expand]
        split
        next no_memory => simp_all
        next memory =>
          rw [not_and_or, not_not, Bool.not_eq_true, Bool.not_eq_false'] at memory
          rw [Bool.not_eq_true, Bool.not_eq_false'] at passes
          simp [expand, offset_eq, memory, passes]

/-- The next segment took the new pages in. -/
structure TookNext (e : Env) (s s' : St) (as base size : ℕ) (a : Crargs) (swresv : ℕ) (k : ℕ)
    (nseg ext : Seg) :
    Prop where
  found : startingAt s as (base + size) = some k
  at_k : s.segs.get k = some nseg
  as_eq : nseg.as = as
  base_eq : nseg.base = base + size
  joins : joinsNext e s nseg size a = true
  passes : extendTest nseg a = true
  grew : Grew s s' k nseg ext
  resv_eq : ext.swresv = nseg.swresv + swresv
  extends_seg : Extends nseg ext base size a.prot (a.fileAt base)

/-- The previous segment took the new pages in. -/
structure TookPrev (e : Env) (s s' : St) (as base size : ℕ) (a : Crargs) (swresv : ℕ) (j : ℕ)
    (pseg ext : Seg) :
    Prop where
  found : endingAt s as base = some j
  at_j : s.segs.get j = some pseg
  as_eq : pseg.as = as
  end_eq : pseg.base + pseg.size = base
  joins : joinsPrev e s pseg size a = true
  passes : extendTest pseg a = true
  grew : Grew s s' j pseg ext
  resv_eq : ext.swresv = pseg.swresv + swresv
  extends_seg : Extends pseg ext base size a.prot (a.fileAt base)

/-- An extended segment was joined with the one after it. -/
structure TookBoth (e : Env) (s s' : St) (as base : ℕ) (j : ℕ) (seg1 : Seg) (k : ℕ)
    (seg2 : Seg) : Prop where
  found : startingAt s as base = some k
  at_j : s.segs.get j = some seg1
  at_k : s.segs.get k = some seg2
  as_eq : seg2.as = as
  base_eq : seg2.base = base
  passes : concatTest seg1 seg2 = true
  memory : seg1.vpage = none ∧ seg2.vpage = none ∨ e.concatVpage = true
  eq : s' = { s with segs := (s.segs.put k none).put j (some (joinedSeg seg1 seg2)) }

theorem joinNext_cases {joined : Bool} (sound : s.Sound)
    (eq : joinNext e s as base size a swresv = (joined, s')) :
    (joined = false ∧ Nudge s s') ∨ joined = true ∧ ∃ k nseg ext,
      TookNext e s s' as base size a swresv k nseg ext := by
  rw [joinNext] at eq
  split at eq
  next =>
    obtain ⟨rfl, rfl⟩ := Prod.mk.inj eq
    exact .inl ⟨rfl, .same rfl⟩
  next k found =>
    split at eq
    next =>
      obtain ⟨rfl, rfl⟩ := Prod.mk.inj eq
      exact .inl ⟨rfl, .same rfl⟩
    next nseg at_k =>
      obtain ⟨as_eq, base_eq⟩ := of_startingAt found at_k
      obtain ⟨rest, -, -, fits, -⟩ := sound.split at_k
      cases joined with
      | false =>
        rcases segvnExtendNext_false fits at_k eq with same | ⟨ext, grew, resv_eq, extends_seg⟩
        · exact .inl ⟨rfl, .same same⟩
        · exact .inl ⟨rfl, .moved k nseg ext _ _ at_k grew resv_eq extends_seg⟩
      | true =>
        obtain ⟨passes, ext, grew, resv_eq, extends_seg⟩ :=
          segvnExtendNext_true fits at_k (by omega) eq
        rw [base_eq, Nat.add_sub_cancel] at extends_seg
        have joins := segvnExtendNext_fst.1 (congrArg Prod.fst eq)
        exact .inr ⟨rfl, k, nseg, ext, found, at_k, as_eq, base_eq, joins, passes, grew,
          resv_eq, extends_seg⟩

theorem concatNext_cases : concatNext e s as base j = s ∨
    ∃ seg1 k seg2, TookBoth e s (concatNext e s as base j) as base j seg1 k seg2 := by
  rw [concatNext]
  split
  next k seg1 found at_j =>
    split
    next => exact .inl rfl
    next seg2 at_k =>
      obtain ⟨as_eq, base_eq⟩ := of_startingAt found at_k
      rcases @segvnConcat_spec e s j seg1 seg2 k with same | ⟨passes, memory, eq⟩
      · exact .inl same
      · exact .inr ⟨seg1, k, seg2, found, at_j, at_k, as_eq, base_eq, passes, memory, eq⟩
  next => exact .inl rfl

/-- The previous segment of a new one does not take it in. -/
def PrevRefuses (e : Env) (s : St) (as base size : ℕ) (a : Crargs) : Prop :=
  ∀ pseg, (endingAt s as base).bind s.segs.get = some pseg → joinsPrev e s pseg size a = false

/-- The next segment can take a new one in. -/
def NextJoins (e : Env) (s : St) (as base size : ℕ) (a : Crargs) (nseg : Seg) : Prop :=
  (startingAt s as (base + size)).bind s.segs.get = some nseg ∧ joinsNext e s nseg size a = true

/-- Another segment keeps its anon map when one is extended. -/
theorem GrownAmps.amp_rest {rest : List Seg} {amps amps' : ℕ → Option Amp}
    (grown : GrownAmps seg ext amps amps') (fits : Fits (seg :: rest) amps) {other : Seg}
    (member : other ∈ rest) (uses_other : other.amp = some id) :
    amps' id = amps id := by
  rw [GrownAmps] at grown
  split at grown
  next => rw [grown]
  next id' uses =>
    obtain ⟨amp, anon, at_id, refcnt_le, is_private, rfl, -, -⟩ := grown
    obtain ⟨amp', at_id', linked⟩ := fits.amp uses
    obtain rfl : amp = amp' := some.inj (at_id.symm.trans at_id')
    refine Function.update_of_ne (fun same => ?_) _ _
    have other_use := mem_usesOf member (uses_other.trans (congrArg some same))
    rw [(linked.sole is_private refcnt_le).1] at other_use
    cases other_use

/-- A previous segment that moved its slots does not change what the next one can do. -/
theorem TookNext.of_moved {pseg pext : Seg} (sound : s.Sound) (at_j : s.segs.get j = some pseg)
    (end_eq : pseg.base + pseg.size = base) (grew : Grew s s1 j pseg pext)
    (extends_seg : Extends pseg pext (pseg.base + pseg.size) 0 prot file)
    (took : TookNext e s1 s' as base size a swresv k nseg ext) :
    NextJoins e s as base size a nseg := by
  obtain ⟨base_eq, size_eq⟩ := extends_seg.place_eq (sound.formed at_j)
  have size_pos := (sound.formed at_j).size_pos
  have found := took.found
  have at_k := took.at_k
  have next_eq := took.base_eq
  rw [startingAt, grew.segs_eq, Table.locate_put at_j (by rw [extends_seg.as_eq, base_eq])] at found
  rw [grew.segs_eq] at at_k
  rcases Table.get_put_cases at_k with ⟨-, is_ext⟩ | ⟨ne, at_k⟩
  · obtain rfl := some.inj is_ext
    omega
  refine ⟨by rw [startingAt, found, bind_some, at_k], ?_⟩
  obtain ⟨rest, records_eq, -, fits, in_rest⟩ := sound.split at_j
  have in_records := Table.mem_records.2 ⟨k, at_k⟩
  have member : nseg ∈ rest := by
    rcases mem_cons.1 (records_eq.mem_iff.1 in_records) with rfl | member
    · omega
    · exact member
  have joins := took.joins
  rw [joinsNext, decide_eq_true_eq] at joins ⊢
  obtain ⟨passes, offset_eq, grows, memory⟩ := joins
  refine ⟨passes, offset_eq, ?_, memory⟩
  rw [growsAtFront] at grows ⊢
  cases uses : nseg.amp with
  | none => rfl
  | some id =>
    simp only [uses, grew.grown.amp_rest fits member uses] at grows
    exact grows

/-- What joining with the neighbours can do. -/
theorem tryJoin_cases {joined : Bool} (sound : s.Sound)
    (eq : tryJoin e s as base size a swresv = (joined, s')) :
    (∃ s1, Nudge s s1 ∧ PrevRefuses e s as base size a ∧ ((joined = false ∧ Nudge s1 s') ∨
      joined = true ∧ ∃ k nseg ext, TookNext e s1 s' as base size a swresv k nseg ext ∧
        NextJoins e s as base size a nseg)) ∨
    joined = true ∧ ∃ s1 j pseg ext, TookPrev e s s1 as base size a swresv j pseg ext ∧
      (s' = s1 ∨ ∃ seg1 k seg2, TookBoth e s1 s' as (base + size) j seg1 k seg2) := by
  have next_only : PrevRefuses e s as base size a →
    joinNext e s as base size a swresv = (joined, s') →
      ∃ s1, Nudge s s1 ∧ PrevRefuses e s as base size a ∧ ((joined = false ∧ Nudge s1 s') ∨
        joined = true ∧ ∃ k nseg ext, TookNext e s1 s' as base size a swresv k nseg ext ∧
          NextJoins e s as base size a nseg) := by
    intro refuses next_eq
    refine ⟨s, .same rfl, refuses, ?_⟩
    rcases joinNext_cases sound next_eq with nudged | ⟨rfl, k, nseg, ext, took⟩
    · exact .inl nudged
    · exact .inr ⟨rfl, k, nseg, ext, took, by rw [took.found, bind_some, took.at_k], took.joins⟩
  rw [tryJoin] at eq
  split at eq
  next not_found =>
    refine .inl (next_only (fun pseg found => ?_) eq)
    rw [not_found] at found
    exact nomatch found
  next j found =>
    split at eq
    next not_at_j =>
      refine .inl (next_only (fun pseg at_j => ?_) eq)
      rw [found, bind_some, not_at_j] at at_j
      exact nomatch at_j
    next pseg at_j =>
      obtain ⟨as_eq, end_eq⟩ := of_endingAt found at_j
      obtain ⟨rest, -, -, fits, -⟩ := sound.split at_j
      have refuses_of : joinsPrev e s pseg size a = false → PrevRefuses e s as base size a := by
        intro refuses pseg' at_j'
        rw [found, bind_some, at_j] at at_j'
        rwa [← some.inj at_j']
      split at eq
      next small =>
        split at eq
        next s1 extend_eq =>
          have refuses : joinsPrev e s pseg size a = false := by
            rw [joinsPrev, decide_eq_false_iff_not]
            rintro ⟨-, passes⟩
            have extended := (@segvnExtendPrev_fst e s j pseg size swresv a).2 passes
            rw [extend_eq] at extended
            exact nomatch extended
          rcases segvnExtendPrev_false fits at_j extend_eq with rfl | ⟨ext, grew, resv_eq,
            extends_seg⟩
          · exact .inl (next_only (refuses_of refuses) eq)
          · have nudge := Nudge.moved j pseg ext _ _ at_j grew resv_eq extends_seg
            refine .inl ⟨s1, nudge, refuses_of refuses, ?_⟩
            rcases joinNext_cases (nudge.sound sound) eq with nudged | ⟨rfl, k, nseg, next, took⟩
            · exact .inl nudged
            · exact .inr ⟨rfl, k, nseg, next, took,
                took.of_moved sound at_j end_eq grew extends_seg⟩
        next s1 extend_eq =>
          obtain ⟨rfl, rfl⟩ := Prod.mk.inj eq
          obtain ⟨passes, ext, grew, resv_eq, extends_seg⟩ :=
            segvnExtendPrev_true fits at_j extend_eq
          rw [end_eq] at extends_seg
          have joins : joinsPrev e s pseg size a = true :=
            decide_eq_true ⟨small, segvnExtendPrev_fst.1 (congrArg Prod.fst extend_eq)⟩
          exact .inr ⟨rfl, s1, j, pseg, ext,
            ⟨found, at_j, as_eq, end_eq, joins, passes, grew, resv_eq, extends_seg⟩,
            concatNext_cases⟩
      next large =>
        refine .inl (next_only (refuses_of ?_) eq)
        rw [joinsPrev, decide_eq_false_iff_not]
        exact fun all => large all.1

theorem Grew.at_self (grew : Grew s s' j seg ext) (at_j : s.segs.get j = some seg) :
    s'.segs.get j = some ext := by
  rw [grew.segs_eq, Table.get_put_self at_j]

theorem TookNext.sound (took : TookNext e s s' as base size a swresv k nseg ext) (sound : s.Sound)
    (vacant : Vacant s as base size) : s'.Sound :=
  took.grew.sound sound took.at_k took.extends_seg fun k' other _ at_k' same_as =>
    vacant k' other at_k' (same_as.trans took.as_eq)

theorem TookPrev.sound (took : TookPrev e s s' as base size a swresv j seg ext) (sound : s.Sound)
    (vacant : Vacant s as base size) : s'.Sound :=
  took.grew.sound sound took.at_j took.extends_seg fun k' other _ at_k' same_as =>
    vacant k' other at_k' (same_as.trans took.as_eq)

theorem TookPrev.ext_end (took : TookPrev e s s' as base size a swresv j seg ext)
    (sound : s.Sound) :
    ext.base = seg.base ∧ ext.base + ext.size = base + size := by
  have size_pos := (sound.formed took.at_j).size_pos
  have size_eq := took.extends_seg.size_eq
  have end_eq := took.end_eq
  rcases took.extends_seg.ends with ⟨base_eq, -⟩ | ⟨-, impossible⟩
  · exact ⟨base_eq, by omega⟩
  · omega

section

variable (took : TookBoth e s s' as base j seg1 k seg2) (good : s.Sound)

include took good

theorem TookBoth.ne (end_eq : seg1.base + seg1.size = base) : j ≠ k := by
  rintro rfl
  have size_pos := (good.formed took.at_j).size_pos
  obtain rfl : seg1 = seg2 := some.inj (took.at_j.symm.trans took.at_k)
  have base_eq := took.base_eq
  omega

theorem TookBoth.joins (as_eq : seg1.as = as) (end_eq : seg1.base + seg1.size = base) :
    Joins seg1 seg2 (joinedSeg seg1 seg2) :=
  joins_joinedSeg (good.formed took.at_j) (good.formed took.at_k) (took.as_eq.trans as_eq.symm)
    (took.base_eq.trans end_eq.symm) took.passes

theorem TookBoth.sound (as_eq : seg1.as = as) (end_eq : seg1.base + seg1.size = base) :
    s'.Sound := by
  obtain ⟨rest, records_eq, joined⟩ :=
    Table.records_put_two took.at_j took.at_k (took.ne good end_eq)
  have fits := (took.joins good as_eq end_eq).fits (Fits.perm good records_eq)
  rw [St.Sound, took.eq]
  exact fits.perm (joined (some _)).symm

theorem TookBoth.shows (as_eq : seg1.as = as) (end_eq : seg1.base + seg1.size = base) :
    s'.Shows as' p page ↔ s.Shows as' p page := by
  obtain ⟨rest, records_eq, joined⟩ :=
    Table.records_put_two took.at_j took.at_k (took.ne good end_eq)
  rw [St.Shows, St.Shows, took.eq, Shows.perm records_eq]
  dsimp only
  rw [Shows.perm (joined (some _))]
  exact (took.joins good as_eq end_eq).shows

end

/-- The pages of a new mapping, over some slots. -/
def NewPage (as base size : ℕ) (a : Crargs) (slot : ℕ → Option ℕ) (as' p : ℕ)
    (page : Page) : Prop :=
  (as = as' ∧ base ≤ p ∧ p < base + size) ∧ page = ⟨slot (p - base), a.fileAt base p, a.prot⟩

theorem tryJoin_false (sound : s.Sound) (eq : tryJoin e s as base size a swresv = (false, s')) :
    ∃ s1, Nudge s s1 ∧ Nudge s1 s' := by
  rcases tryJoin_cases sound eq with ⟨s1, nudge, -, ⟨-, nudge'⟩ | ⟨impossible, -⟩⟩ | ⟨impossible, -⟩
  · exact ⟨s1, nudge, nudge'⟩
  · exact nomatch impossible
  · exact nomatch impossible

/-- A neighbour that takes new pages in shows them, and everything else stays as it is. -/
theorem tryJoin_true (sound : s.Sound) (vacant : Vacant s as base size)
    (eq : tryJoin e s as base size a swresv = (true, s')) :
    s'.Sound ∧ ∀ as' p page, s'.Shows as' p page ↔
      s.Shows as' p page ∨ NewPage as base size a (fun _ => none) as' p page := by
  rcases tryJoin_cases sound eq with ⟨s1, nudge, -, ⟨impossible, -⟩ | ⟨-, k, nseg, ext, took, -⟩⟩ |
    ⟨-, s1, j, pseg, ext, took, both⟩
  · exact nomatch impossible
  · have sound1 := nudge.sound sound
    refine ⟨took.sound sound1 (nudge.vacant sound vacant), fun as' p page => ?_⟩
    rw [took.grew.shows sound1 took.at_k took.extends_seg, nudge.shows sound, took.as_eq, NewPage]
  · have sound1 := took.sound sound vacant
    have shows1 : ∀ as' p page, s1.Shows as' p page ↔
        s.Shows as' p page ∨ NewPage as base size a (fun _ => none) as' p page := by
      intro as' p page
      rw [took.grew.shows sound took.at_j took.extends_seg, took.as_eq, NewPage]
    rcases both with rfl | ⟨seg1, k, seg2, took_both⟩
    · exact ⟨sound1, shows1⟩
    · obtain rfl : seg1 = ext := some.inj (took_both.at_j.symm.trans (took.grew.at_self took.at_j))
      have as_eq := took.extends_seg.as_eq.trans took.as_eq
      have end_eq := (took.ext_end sound).2
      refine ⟨took_both.sound sound1 as_eq end_eq, fun as' p page => ?_⟩
      rw [took_both.shows sound1 as_eq end_eq, shows1]

/-! ### A segment of its own -/

theorem Placed.of_vacant (sound : s.Sound) (formed : new.Formed)
    (vacant : Vacant s new.as new.base new.size) : Placed (new :: s.segs.records) := by
  refine Placed.add sound.toPlaced formed fun other member same_as => ?_
  obtain ⟨k, at_k⟩ := Table.mem_records.1 member
  exact (vacant k other at_k same_as.symm).symm

theorem slotAt_replicate (n x : ℕ) : slotAt (List.replicate n none) x = none := by
  rw [slotAt, getElem?_replicate]
  split_ifs <;> rfl

theorem length_fillSlots (anon : List (Option ℕ)) (start n : ℕ) (anonZero : ℕ → ℕ) :
    (fillSlots anon start n anonZero).length = anon.length := length_mapIdx

theorem slotAt_take_drop (anon : List (Option ℕ)) (start n x : ℕ) :
    slotAt ((anon.drop start).take n) x = if x < n then slotAt anon (start + x) else none := by
  rw [slotAt, getElem?_take]
  split_ifs with inside
  · rw [getElem?_drop, slotAt]
  · rfl

/-- The state whose segments show what they show after a private mapping of a given anon map: the
empty slots that the mapping needs are filled with pages of zeroes. -/
def fillGiven (e : Env) (s : St) (size : ℕ) (a : Crargs) : St :=
  match a.amp with
  | none => s
  | some id =>
    match s.amps.get id with
    | none => s
    | some amp =>
      if a.type = .mapShared then s
      else
        let anon := fillSlots amp.anon a.offset size e.anonZero
        { s with amps := s.amps.put id (some { amp with anon := anon }) }

def givenSlot (s : St) (a : Crargs) (i : ℕ) : Option ℕ :=
  (a.amp.bind s.amps.get).bind fun amp => slotAt amp.anon (a.offset + i)

theorem formed_newSeg {id : Option ℕ} {m : ℕ} (pos : 0 < size) (index_eq : id = none → n = 0)
    (shared_zero : a.type = .mapShared → a.vp = none → id ≠ none) :
    Seg.Formed { newSeg as base size a with amp := id, anonIndex := n, swresv := m } :=
  ⟨pos, rfl, fun _ => nofun, index_eq, shared_zero⟩

theorem pageOf_newSeg {id : Option ℕ} {m : ℕ} (amps : ℕ → Option Amp) (p : ℕ) :
    pageOf amps { newSeg as base size a with amp := id, anonIndex := n, swresv := m } p =
      ⟨slotOf amps { newSeg as base size a with amp := id, anonIndex := n, swresv := m } (p - base),
        a.fileAt base p, a.prot⟩ := rfl

/-- A new segment is added to the others, which may have got other anon maps. -/
theorem shows_add {s2 : St} {slot : ℕ → Option ℕ} (segs_eq : s'.segs = s.segs.add new)
    (segs_eq' : s2.segs = s.segs)
    (same_slots : ∀ seg ∈ s.segs.records, ∀ i < seg.size,
      slotOf s'.amps.get seg i = slotOf s2.amps.get seg i)
    (spans : new.Spans as' p ↔ as = as' ∧ base ≤ p ∧ p < base + size)
    (page_eq : base ≤ p → p < base + size → pageOf s'.amps.get new p = ⟨slot (p - base),
      a.fileAt base p, a.prot⟩) :
    s'.Shows as' p page ↔ s2.Shows as' p page ∨ NewPage as base size a slot as' p page := by
  rw [St.Shows, St.Shows, segs_eq, segs_eq', Table.records_add, shows_append,
    shows_congr same_slots, shows_cons, or_iff_left shows_nil, spans, NewPage]
  refine or_congr_right ⟨?_, ?_⟩
  · rintro ⟨inside, shown⟩
    exact ⟨inside, shown.symm.trans (page_eq inside.2.1 inside.2.2)⟩
  · rintro ⟨inside, shown⟩
    exact ⟨inside, (page_eq inside.2.1 inside.2.2).trans shown.symm⟩

/-- Slots of the segments in a state are not touched by an anon map at a new place. -/
theorem St.Sound.slots_fresh (sound : s.Sound) {amp : Amp} :
    ∀ seg ∈ s.segs.records, ∀ i < seg.size,
      slotOf (s.amps.add amp).get seg i = slotOf s.amps.get seg i := by
  intro seg member i _
  rw [Table.add_eq_update]
  refine slotOf_update_ne (fun uses => ?_) i
  have unused := Fits.unused sound Table.get_next
  have used := mem_usesOf member uses
  rw [unused] at used
  exact nomatch used

theorem St.Sound.add_fresh {anon : List (Option ℕ)} (sound : s.Sound)
    (placed : Placed (new :: s.segs.records)) (uses : new.amp = some s.amps.next)
    (index_eq : new.anonIndex = 0) (length_eq : anon.length = new.size)
    (unreserved : new.type = .mapPrivate → n = 0) :
    St.Sound { s with segs := s.segs.add new, amps := s.amps.add ⟨1, 0, anon, n⟩ } := by
  have linked : Linked ⟨1, 0, anon, n⟩ (new.use :: usesOf s.segs.records s.amps.next) := by
    rw [Fits.unused sound Table.get_next]
    refine Linked.fresh n unreserved
      (by simp only [Seg.use, index_eq, length_eq]; omega) fun x used => ?_
    simp only [Use.Holds, Seg.use, index_eq]
    refine ⟨Nat.zero_le x, ?_⟩
    by_contra beyond
    exact used (slotAt_eq_none_of_length_le (by omega))
  have fits := Fits.add_use sound placed uses linked
  rw [St.Sound, Table.records_add, Table.add_eq_update]
  exact fits.perm (perm_append_singleton _ _).symm

/-- What a created segment must leave behind: a sound state that shows the new pages beside the old
ones. -/
def Creates (e : Env) (s s' : St) (as base size : ℕ) (a : Crargs) : Prop :=
  s'.Sound ∧ ∀ as' p page, s'.Shows as' p page ↔
    (fillGiven e s size a).Shows as' p page ∨
      NewPage as base size a (givenSlot (fillGiven e s size a) a) as' p page

section

variable (sound : s.Sound) (pos : 0 < size) (vacant : Vacant s as base size)

include sound pos vacant

theorem creates_plain (none_given : a.amp = none)
    (shared_file : a.type = .mapShared → a.vp ≠ none) :
    Creates e s { s with segs := s.segs.add { newSeg as base size a with swresv := n } } as base
      size a := by
  have formed : Seg.Formed { newSeg as base size a with swresv := n } :=
    formed_newSeg pos (fun _ => rfl) fun is_shared no_file => absurd no_file (shared_file is_shared)
  refine ⟨?_, fun as' p page => ?_⟩
  · rw [St.Sound, Table.records_add]
    exact (Fits.add_none sound (Placed.of_vacant sound formed vacant) rfl).perm
      (perm_append_singleton _ _).symm
  · refine shows_add rfl (by rw [fillGiven, none_given]) (fun _ _ _ _ => ?_) Iff.rfl fun _ _ => ?_
    · rw [fillGiven, none_given]
    · rw [givenSlot, none_given]
      rfl

/-- A new shared segment over an anon map of its own. -/
theorem creates_zero (none_given : a.amp = none) (is_shared : a.type = .mapShared) :
    Creates e s { s with
      segs := s.segs.add { newSeg as base size a with amp := some s.amps.next }
      amps := s.amps.add (anonmapAlloc size n) } as base size a := by
  have formed : Seg.Formed { newSeg as base size a with amp := some s.amps.next } :=
    formed_newSeg pos (fun impossible => nomatch impossible) fun _ _ => nofun
  have unreserved : a.type = .mapPrivate → n = 0 :=
    fun is_private => nomatch is_shared.symm.trans is_private
  refine ⟨sound.add_fresh
    (Placed.of_vacant sound formed vacant) rfl rfl length_replicate unreserved,
    fun as' p page => ?_⟩
  refine shows_add rfl (by rw [fillGiven, none_given]) ?_ Iff.rfl fun _ _ => ?_
  · rw [fillGiven, none_given]
    exact sound.slots_fresh
  · rw [givenSlot, none_given, Table.add_eq_update]
    refine (pageOf_newSeg _ _).trans ?_
    rw [slotOf_update_self rfl, anonmapAlloc, slotAt_replicate]
    rfl

/-- A new shared segment over a given anon map. -/
theorem creates_shared {amp : Amp} (given : a.amp = some id) (is_shared : a.type = .mapShared)
    (at_id : s.amps.get id = some amp) (held : 0 < amp.outside)
    (room : a.offset + size ≤ amp.anon.length) :
    Creates e s { s with
      segs := s.segs.add { newSeg as base size a with amp := some id, anonIndex := a.offset }
      amps := s.amps.put id (some { amp with refcnt := amp.refcnt + 1 }) } as base size a := by
  have formed : Seg.Formed { newSeg as base size a with amp := some id, anonIndex := a.offset } :=
    formed_newSeg pos (fun impossible => by cases impossible) fun _ _ => (by rintro ⟨⟩)
  have linked := sound.linked id
  rw [at_id] at linked
  have shared : Linked { amp with refcnt := amp.refcnt + 1 }
      (Seg.use { newSeg as base size a with amp := some id, anonIndex := a.offset } ::
          usesOf s.segs.records id) := by
    refine Linked.share linked (Linked.none_private linked held) ?_ room
    simp only [Seg.use, newSeg, is_shared]
    rintro ⟨⟩
  have filled_eq : fillGiven e s size a = s := by
    simp only [fillGiven, given, at_id, is_shared, if_true]
  refine ⟨?_, fun as' p page => ?_⟩
  · rw [St.Sound, Table.records_add, Table.put_eq_update at_id]
    exact (Fits.add_use sound (Placed.of_vacant sound formed vacant) rfl shared).perm
      (perm_append_singleton _ _).symm
  · refine shows_add rfl (by rw [filled_eq]) (fun seg member i _ => ?_) Iff.rfl fun _ _ => ?_
    · rw [filled_eq]
      dsimp only
      rw [Table.put_eq_update at_id]
      by_cases uses : seg.amp = some id
      · rw [slotOf_update_self uses, slotOf_eq uses at_id]
      · exact slotOf_update_ne uses i
    · rw [filled_eq, givenSlot, given, bind_some, at_id, bind_some]
      dsimp only
      rw [Table.put_eq_update at_id]
      refine (pageOf_newSeg _ _).trans ?_
      rw [slotOf_update_self rfl]

/-- A new private segment over a copy of a given anon map. -/
theorem creates_private {amp : Amp} (given : a.amp = some id) (is_private : a.type ≠ .mapShared)
    (at_id : s.amps.get id = some amp) (held : 0 < amp.outside)
    (room : a.offset + size ≤ amp.anon.length) :
    Creates e s
      { fillGiven e s size a with
        segs := s.segs.add
          { newSeg as base size a with amp := some (fillGiven e s size a).amps.next, swresv := n }
        amps := (fillGiven e s size a).amps.add
          ⟨1, 0, ((fillSlots amp.anon a.offset size e.anonZero).drop a.offset).take size, 0⟩ } as
            base size a := by
  have filled_eq : fillGiven e s size a =
      { s with
        amps := s.amps.put id
          (some { amp with anon := fillSlots amp.anon a.offset size e.anonZero }) } := by
    simp only [fillGiven, given, at_id, if_neg is_private]
  have linked := sound.linked id
  rw [at_id] at linked
  have sound' : (fillGiven e s size a).Sound := by
    rw [filled_eq, St.Sound]
    dsimp only
    rw [Table.put_eq_update at_id]
    refine Fits.set_amp sound (Linked.refill linked (length_fillSlots _ _ _ _) ?_)
    rintro ⟨u, member, u_private⟩
    exact absurd u_private (Linked.none_private linked held u member)
  have segs_eq : (fillGiven e s size a).segs = s.segs := by rw [filled_eq]
  have formed : Seg.Formed
      { newSeg as base size a with amp := some (fillGiven e s size a).amps.next, swresv := n } :=
    formed_newSeg pos (fun impossible => nomatch impossible) fun _ _ => nofun
  have vacant' : Vacant (fillGiven e s size a) as base size := by rwa [Vacant, segs_eq]
  have length_eq :
      (((fillSlots amp.anon a.offset size e.anonZero).drop a.offset).take size).length = size := by
    rw [length_take, length_drop, length_fillSlots]
    omega
  have fresh := sound'.add_fresh (Placed.of_vacant sound' formed vacant') rfl rfl length_eq fun _ =>
    rfl
  rw [segs_eq] at fresh
  refine ⟨fresh, fun as' p page => ?_⟩
  refine shows_add rfl segs_eq ?_ Iff.rfl fun base_le lt_end => ?_
  · rw [← segs_eq]
    exact sound'.slots_fresh
  · have at_id' : (fillGiven e s size a).amps.get id =
        some { amp with anon := fillSlots amp.anon a.offset size e.anonZero } := by
      rw [filled_eq]
      exact Table.get_put_self at_id _
    rw [givenSlot, given, bind_some, at_id', bind_some, Table.add_eq_update]
    refine (pageOf_newSeg _ _).trans ?_
    rw [slotOf_update_self rfl]
    dsimp only [newSeg]
    rw [slotAt_take_drop, if_pos (by omega), Nat.zero_add]

theorem createAlone_creates
    (held : ∀ id, a.amp = some id → ∃ amp, s.amps.get id = some amp ∧ 0 < amp.outside)
    (eq : createAlone e s as base size a swresv = .ok s') : Creates e s s' as base size a := by
  rw [createAlone] at eq
  split at eq
  next none_given =>
    split_ifs at eq with is_shared no_file
    · obtain rfl := Except.ok.inj eq
      exact creates_zero sound pos vacant none_given is_shared
    · obtain rfl := Except.ok.inj eq
      exact creates_plain sound pos vacant none_given fun _ => no_file
    · obtain rfl := Except.ok.inj eq
      exact creates_plain sound pos vacant none_given fun is_shared' => absurd is_shared' is_shared
  next id given =>
    obtain ⟨amp, at_id, outside⟩ := held id given
    simp only [at_id] at eq
    split_ifs at eq with short is_shared
    · obtain rfl := Except.ok.inj eq
      exact creates_shared sound pos vacant given is_shared at_id outside (by omega)
    · obtain rfl := Except.ok.inj eq
      have creates := @creates_private e s as base size a id swresv sound pos vacant amp given
        is_shared at_id outside
        (by omega)
      simp only [fillGiven, given, at_id, if_neg is_shared] at creates
      exact creates

end

end Sol25.Segvn
