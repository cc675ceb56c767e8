import Sol25.Segvn.Model

/-!
# How segments and anon maps fit together

The invariant behind the page map, over the segments as a list: segments do not overlap, their
arrays have their sizes, and an anon map under private segments belongs to these alone.  The parts
of it they use are apart, and a slot outside all of them is empty.
-/

namespace Sol25.Segvn

open Function List Option

/-- A segment whose per-page array, anon map and places agree. -/
structure Seg.Formed (seg : Seg) : Prop where
  size_pos : 0 < seg.size
  pageprot_eq : seg.pageprot = seg.vpage.isSome
  vpage_length : ∀ vpage, seg.vpage = some vpage → vpage.length = seg.size
  index_eq : seg.amp = none → seg.anonIndex = 0
  shared_zero : seg.type = .mapShared → seg.vp = none → seg.amp ≠ none

/-- The part of an anon map that a segment uses. -/
structure Use where
  start : ℕ
  size : ℕ
  type : MapType

def Use.Holds (u : Use) (x : ℕ) : Prop := u.start ≤ x ∧ x < u.start + u.size

def Seg.use (seg : Seg) : Use := ⟨seg.anonIndex, seg.size, seg.type⟩

/-- An anon map under private segments: the segments hold its reservation. -/
structure Owned (amp : Amp) (uses : List Use) : Prop where
  outside : amp.outside = 0
  unreserved : amp.swresv = 0
  all_private : ∀ u ∈ uses, u.type = .mapPrivate
  apart : uses.Pairwise fun u v => Apart u.start u.size v.start v.size
  covered : ∀ x, slotAt amp.anon x ≠ none → ∃ u ∈ uses, u.Holds x

/-- An anon map and the uses of it by segments. -/
structure Linked (amp : Amp) (uses : List Use) : Prop where
  refs : amp.refcnt = amp.outside + uses.length
  inside : ∀ u ∈ uses, u.start + u.size ≤ amp.anon.length
  owned : (∃ u ∈ uses, u.type = .mapPrivate) → Owned amp uses

/-- A place in the table of anon maps and the uses of it. -/
def LinkedTo : Option Amp → List Use → Prop
  | none, uses => uses = []
  | some amp, uses => Linked amp uses

theorem Apart.symm {a n b m : ℕ} (apart : Apart a n b m) : Apart b m a n := Or.symm apart

theorem Apart.sub {a n b m a' n' : ℕ} (apart : Apart a n b m) (start_le : a ≤ a')
    (end_le : a' + n' ≤ a + n) :
    Apart a' n' b m := by
  rcases apart with before | after
  · exact Or.inl (end_le.trans before)
  · exact Or.inr (after.trans start_le)

section Uses

variable {amp : Amp} {u v : Use} {us pieces : List Use} {anon : List (Option ℕ)} {refcnt : ℕ}

theorem Linked.perm (linked : Linked amp us) (perm : us.Perm pieces) : Linked amp pieces := by
  refine ⟨by rw [linked.refs, perm.length_eq],
    fun u member => linked.inside u (perm.mem_iff.2 member), ?_⟩
  rintro ⟨u, member, is_private⟩
  obtain ⟨outside, unreserved, all_private, apart, covered⟩ :=
    linked.owned ⟨u, perm.mem_iff.2 member, is_private⟩
  refine ⟨outside, unreserved, fun u member => all_private u (perm.mem_iff.2 member), ?_, ?_⟩
  · exact (perm.pairwise_iff fun apart => Apart.symm apart).1 apart
  · intro x used
    obtain ⟨u, member, holds⟩ := covered x used
    exact ⟨u, perm.mem_iff.1 member, holds⟩

/-- One use becomes some parts of it. -/
theorem Linked.cut (linked : Linked amp (u :: us)) (same_type : ∀ v ∈ pieces, v.type = u.type)
    (sub : ∀ v ∈ pieces, u.start ≤ v.start ∧ v.start + v.size ≤ u.start + u.size)
    (apart : pieces.Pairwise fun u v => Apart u.start u.size v.start v.size)
    (refs : refcnt + 1 = amp.refcnt + pieces.length) (length_eq : anon.length = amp.anon.length)
    (kept : ∀ x, slotAt anon x ≠ none → slotAt amp.anon x ≠ none)
    (cleared : u.type = .mapPrivate → ∀ x, u.Holds x → slotAt anon x ≠ none → ∃ v ∈ pieces,
      v.Holds x) :
    Linked { amp with refcnt := refcnt, anon := anon } (pieces ++ us) := by
  have refs_eq := linked.refs
  rw [length_cons] at refs_eq
  refine ⟨by simp only [length_append]; omega, ?_, ?_⟩
  · intro v member
    rw [length_eq]
    rcases mem_append.1 member with piece | other
    · exact (sub v piece).2.trans (linked.inside u mem_cons_self)
    · exact linked.inside v (mem_cons_of_mem _ other)
  · rintro ⟨v, member, is_private⟩
    have was_private : ∃ w ∈ u :: us, w.type = .mapPrivate := by
      rcases mem_append.1 member with piece | other
      · exact ⟨u, mem_cons_self, (same_type v piece).symm.trans is_private⟩
      · exact ⟨v, mem_cons_of_mem _ other, is_private⟩
    obtain ⟨outside, unreserved, all_private, apart_all, covered⟩ := linked.owned was_private
    have u_private := all_private u mem_cons_self
    obtain ⟨from_u, rest_apart⟩ := pairwise_cons.1 apart_all
    refine ⟨outside, unreserved, ?_, ?_, ?_⟩
    · intro w member
      rcases mem_append.1 member with piece | other
      · exact (same_type w piece).trans u_private
      · exact all_private w (mem_cons_of_mem _ other)
    · refine pairwise_append.2 ⟨apart, rest_apart, fun w piece z other => ?_⟩
      exact (from_u z other).sub (sub w piece).1 (sub w piece).2
    · intro x used
      obtain ⟨w, w_mem, holds⟩ := covered x (kept x used)
      rcases mem_cons.1 w_mem with rfl | other
      · obtain ⟨z, z_mem, z_holds⟩ := cleared u_private x holds used
        exact ⟨z, mem_append_left _ z_mem, z_holds⟩
      · exact ⟨w, mem_append_right _ other, holds⟩

theorem Linked.sole (linked : Linked amp (u :: us)) (is_private : u.type = .mapPrivate)
    (refcnt_le : amp.refcnt ≤ 1) :
    us = [] ∧ amp.refcnt = 1 := by
  have refs_eq := linked.refs
  have outside := (linked.owned ⟨u, mem_cons_self, is_private⟩).outside
  rw [length_cons] at refs_eq
  exact ⟨eq_nil_of_length_eq_zero (by omega), by omega⟩

theorem Linked.rebase (linked : Linked amp [u]) (is_private : u.type = .mapPrivate)
    (same_type : v.type = u.type) (inside : v.start + v.size ≤ anon.length)
    (covered : ∀ x, slotAt anon x ≠ none → v.Holds x) :
    Linked { amp with anon := anon } [v] := by
  refine ⟨linked.refs, ?_, ?_⟩
  · intro w member
    rwa [mem_singleton.1 member]
  · intro _
    have owned := linked.owned ⟨u, mem_cons_self, is_private⟩
    refine ⟨owned.outside, owned.unreserved, ?_, pairwise_singleton _ _, ?_⟩
    · intro w member
      rw [mem_singleton.1 member, same_type, is_private]
    · exact fun x used => ⟨v, mem_cons_self, covered x used⟩

theorem Linked.refill (linked : Linked amp us) (length_eq : anon.length = amp.anon.length)
    (covered : (∃ u ∈ us, u.type = .mapPrivate) → ∀ x, slotAt anon x ≠ none →
      slotAt amp.anon x ≠ none ∨ ∃ u ∈ us, u.Holds x) :
    Linked { amp with anon := anon } us := by
  refine ⟨linked.refs, fun u member => length_eq ▸ linked.inside u member, ?_⟩
  intro is_private
  obtain ⟨outside, unreserved, all_private, apart, old_covered⟩ := linked.owned is_private
  refine ⟨outside, unreserved, all_private, apart, fun x used => ?_⟩
  rcases covered is_private x used with was_used | under
  · exact old_covered x was_used
  · exact under

theorem Linked.share (linked : Linked amp us) (none_private : ∀ u ∈ us, u.type ≠ .mapPrivate)
    (is_shared : v.type ≠ .mapPrivate) (inside : v.start + v.size ≤ amp.anon.length) :
    Linked { amp with refcnt := amp.refcnt + 1 } (v :: us) := by
  refine ⟨?_, ?_, ?_⟩
  · have refs_eq := linked.refs
    simp only [length_cons]
    omega
  · intro w member
    rcases mem_cons.1 member with rfl | other
    · exact inside
    · exact linked.inside w other
  · rintro ⟨w, member, is_private⟩
    rcases mem_cons.1 member with rfl | other
    · exact absurd is_private is_shared
    · exact absurd is_private (none_private w other)

theorem Linked.fresh (swresv : ℕ) (unreserved : u.type = .mapPrivate → swresv = 0)
    (inside : u.start + u.size ≤ anon.length) (covered : ∀ x, slotAt anon x ≠ none → u.Holds x) :
    Linked ⟨1, 0, anon, swresv⟩ [u] := by
  refine ⟨rfl, ?_, ?_⟩
  · intro w member
    rwa [mem_singleton.1 member]
  · rintro ⟨w, member, is_private⟩
    rw [mem_singleton] at member
    subst member
    refine ⟨rfl, unreserved is_private, ?_, pairwise_singleton _ _, fun x used => ?_⟩
    · intro z member
      rw [mem_singleton.1 member, is_private]
    · exact ⟨w, mem_cons_self, covered x used⟩

theorem Linked.none_private (linked : Linked amp us) (held : 0 < amp.outside) :
    ∀ u ∈ us, u.type ≠ .mapPrivate := by
  intro u member is_private
  have outside := (linked.owned ⟨u, member, is_private⟩).outside
  omega

end Uses

/-! ### Segments -/

def usesOf (segs : List Seg) (id : ℕ) : List Use :=
  (segs.filter fun seg => seg.amp = some id).map Seg.use

/-- Segments that do not overlap. -/
structure Placed (segs : List Seg) : Prop where
  formed : ∀ seg ∈ segs, seg.Formed
  apart : segs.Pairwise fun a b => a.as = b.as → Apart a.base a.size b.base b.size

/-- Segments and anon maps that fit together. -/
structure Fits (segs : List Seg) (amps : ℕ → Option Amp) : Prop extends Placed segs where
  linked : ∀ id, LinkedTo (amps id) (usesOf segs id)

section Segments

variable {seg new : Seg} {rest news segs : List Seg} {amps : ℕ → Option Amp} {id : ℕ}

theorem usesOf_append : usesOf (news ++ rest) id = usesOf news id ++ usesOf rest id := by
  simp [usesOf]

theorem usesOf_cons_self (uses : seg.amp = some id) :
    usesOf (seg :: rest) id = seg.use :: usesOf rest id := by
  simp [usesOf, uses]

theorem usesOf_cons_ne (uses_not : seg.amp ≠ some id) :
    usesOf (seg :: rest) id = usesOf rest id := by
  simp [usesOf, uses_not]

theorem usesOf_all (all : ∀ seg ∈ news, seg.amp = some id) : usesOf news id = news.map Seg.use := by
  rw [usesOf, filter_eq_self.2]
  exact fun seg member => decide_eq_true (all seg member)

theorem usesOf_none (none_uses : ∀ seg ∈ news, seg.amp ≠ some id) : usesOf news id = [] := by
  rw [usesOf, filter_eq_nil_iff.2, map_nil]
  intro seg member
  rw [decide_eq_true_eq]
  exact none_uses seg member

theorem mem_usesOf (member : seg ∈ segs) (uses : seg.amp = some id) : seg.use ∈ usesOf segs id :=
  List.mem_map_of_mem (mem_filter.2 ⟨member, decide_eq_true uses⟩)

theorem Placed.perm (placed : Placed segs) (perm : segs.Perm news) : Placed news := by
  refine ⟨fun seg member => placed.formed seg (perm.mem_iff.2 member), ?_⟩
  refine (perm.pairwise_iff ?_).1 placed.apart
  exact fun apart same_as => (apart same_as.symm).symm

theorem Fits.perm (fits : Fits segs amps) (perm : segs.Perm news) : Fits news amps := by
  refine ⟨fits.toPlaced.perm perm, fun id => ?_⟩
  have uses_perm : (usesOf segs id).Perm (usesOf news id) := (perm.filter _).map _
  have linked := fits.linked id
  cases at_id : amps id with
  | none =>
    rw [at_id] at linked
    have uses_nil : usesOf segs id = [] := linked
    rw [uses_nil] at uses_perm
    exact nil_perm.1 uses_perm
  | some amp =>
    rw [at_id] at linked
    exact Linked.perm linked uses_perm

theorem Placed.tail (placed : Placed (seg :: rest)) : Placed rest :=
  ⟨fun seg member => placed.formed seg (mem_cons_of_mem _ member), (pairwise_cons.1 placed.apart).2⟩

theorem Placed.add (placed : Placed rest) (formed : new.Formed)
    (vacant : ∀ seg ∈ rest, new.as = seg.as → Apart new.base new.size seg.base seg.size) :
    Placed (new :: rest) := by
  refine ⟨?_, pairwise_cons.2 ⟨vacant, placed.apart⟩⟩
  intro seg member
  rcases mem_cons.1 member with rfl | other
  · exact formed
  · exact placed.formed seg other

theorem Fits.amp (fits : Fits (seg :: rest) amps) (uses : seg.amp = some id) :
    ∃ amp, amps id = some amp ∧ Linked amp (seg.use :: usesOf rest id) := by
  have linked := fits.linked id
  rw [usesOf_cons_self uses] at linked
  cases at_id : amps id with
  | none =>
    rw [at_id] at linked
    exact nomatch linked
  | some amp =>
    rw [at_id] at linked
    exact ⟨amp, rfl, linked⟩

/-- Another table for the anon map of one segment. -/
theorem Fits.of_update {amp : Option Amp} (fits : Fits (seg :: rest) amps)
    (uses : seg.amp = some id) (placed : Placed (news ++ rest))
    (same_amp : ∀ new ∈ news, new.amp = some id)
    (linked : LinkedTo amp (news.map Seg.use ++ usesOf rest id)) :
    Fits (news ++ rest) (update amps id amp) := by
  refine ⟨placed, fun other => ?_⟩
  rw [usesOf_append]
  by_cases same : other = id
  · subst same
    rw [update_self, usesOf_all same_amp]
    exact linked
  · have others : ∀ new ∈ news, new.amp ≠ some other := fun new member uses_other =>
      same (some.inj (uses_other.symm.trans (same_amp new member)))
    have seg_other : seg.amp ≠ some other :=
      fun uses_other => same (some.inj (uses_other.symm.trans uses))
    have linked_other := fits.linked other
    rw [usesOf_cons_ne seg_other] at linked_other
    rwa [update_of_ne same, usesOf_none others, nil_append]

theorem Fits.of_none (fits : Fits (seg :: rest) amps) (uses : seg.amp = none)
    (placed : Placed (news ++ rest)) (no_amp : ∀ new ∈ news, new.amp = none) :
    Fits (news ++ rest) amps := by
  refine ⟨placed, fun id => ?_⟩
  have none_uses : ∀ new ∈ news, new.amp ≠ some id := fun new member uses => by
    rw [no_amp new member] at uses
    exact nomatch uses
  have linked := fits.linked id
  rw [usesOf_cons_ne (by rw [uses]; exact nofun)] at linked
  rwa [usesOf_append, usesOf_none none_uses, nil_append]

theorem Fits.unused (fits : Fits segs amps) (at_id : amps id = none) : usesOf segs id = [] := by
  have linked := fits.linked id
  rw [at_id] at linked
  exact linked

theorem Fits.set_amp {amp : Option Amp} (fits : Fits segs amps)
    (linked : LinkedTo amp (usesOf segs id)) :
    Fits segs (update amps id amp) := by
  refine ⟨fits.toPlaced, fun other => ?_⟩
  by_cases same : other = id
  · subst same
    rwa [update_self]
  · rw [update_of_ne same]
    exact fits.linked other

theorem Fits.add_none (fits : Fits segs amps) (placed : Placed (new :: segs))
    (no_amp : new.amp = none) :
    Fits (new :: segs) amps := by
  refine ⟨placed, fun id => ?_⟩
  rw [usesOf_cons_ne (by rw [no_amp]; exact nofun)]
  exact fits.linked id

theorem Fits.add_use {amp : Amp} (fits : Fits segs amps) (placed : Placed (new :: segs))
    (uses : new.amp = some id) (linked : Linked amp (new.use :: usesOf segs id)) :
    Fits (new :: segs) (update amps id (some amp)) := by
  refine ⟨placed, fun other => ?_⟩
  by_cases same : other = id
  · subst same
    rw [update_self, usesOf_cons_self uses]
    exact linked
  · have uses_not : new.amp ≠ some other :=
      fun uses_other => same (some.inj (uses_other.symm.trans uses))
    rw [update_of_ne same, usesOf_cons_ne uses_not]
    exact fits.linked other

end Segments

end Sol25.Segvn
