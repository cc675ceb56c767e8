import Sol25.Data.Doubly
import Sol25.Seglist.Model

/-!
# Segments in order

Segments that are not empty and do not overlap, by rising addresses.  An address splits them into
those that end at it or below and those that end above it.
-/

namespace Sol25.Seglist

open List

variable {s s' : State} {l front back : List ℕ} {addr : ℕ}

/-- The segments are not empty and lie one behind the other. -/
structure Ordered (s : State) (l : List ℕ) : Prop where
  size : ∀ a ∈ l, 0 < (s.seg a).size
  order : l.Pairwise fun a b => s.eaddr a ≤ (s.seg b).base

/-- The segments in front end at the address or below, those at the back above it. -/
structure Splits (s : State) (addr : ℕ) (front back : List ℕ) : Prop where
  below : ∀ a ∈ front, s.eaddr a ≤ addr
  above : ∀ a ∈ back, addr < s.eaddr a

/-- The segment that a search for an address finds. -/
def found (l back : List ℕ) (tail : Bool) : Option ℕ :=
  if tail then back.head?.or l.getLast? else back.head?

def Overlaps (s : State) (a b : ℕ) : Prop := (s.seg a).base < s.eaddr b ∧ (s.seg b).base < s.eaddr a

/-- The segments lie where they did. -/
def SameAreas (s s' : State) : Prop :=
  ∀ a, (s'.seg a).base = (s.seg a).base ∧ (s'.seg a).size = (s.seg a).size

theorem modify_seg (s : State) (p : ℕ) (f : Seg → Seg) (a : ℕ) :
    (s.modify p f).seg a = if a = p then f (s.seg p) else s.seg a := Function.update_apply _ _ _ _

theorem modify_list (s : State) (p : ℕ) (f : Seg → Seg) : (s.modify p f).list = s.list := rfl

theorem sameAreas_modify {p : ℕ} {f : Seg → Seg} (same : SameAreas s s')
    (links : ∀ seg, (f seg).base = seg.base ∧ (f seg).size = seg.size) :
    SameAreas s (s'.modify p f) := by
  intro a
  rw [modify_seg]
  split_ifs with is_p
  · rw [(links _).1, (links _).2, is_p]
    exact same p
  · exact same a

theorem base_lt_eaddr (ordered : Ordered s l) {a : ℕ} (a_mem : a ∈ l) :
    (s.seg a).base < s.eaddr a := by
  have positive := ordered.size a a_mem
  simp only [State.eaddr]
  omega

namespace Ordered

theorem nil : Ordered s [] := ⟨fun _ mem => (nomatch mem), List.Pairwise.nil⟩

theorem nodup (ordered : Ordered s l) : l.Nodup := by
  refine ordered.order.imp_of_mem ?_
  rintro a b a_mem - before rfl
  have positive := base_lt_eaddr ordered a_mem
  omega

theorem sublist (ordered : Ordered s l) {l' : List ℕ} (fewer : List.Sublist l' l) : Ordered s l' :=
  ⟨fun a a_mem => ordered.size a (fewer.subset a_mem), ordered.order.sublist fewer⟩

theorem congr (ordered : Ordered s l)
    (same : ∀ a ∈ l, (s'.seg a).base = (s.seg a).base ∧ (s'.seg a).size = (s.seg a).size) :
    Ordered s' l := by
  refine ⟨?_, ?_⟩
  · intro a a_mem
    rw [(same a a_mem).2]
    exact ordered.size a a_mem
  · refine ordered.order.imp_of_mem ?_
    intro a b a_mem b_mem before
    rw [State.eaddr, (same a a_mem).1, (same a a_mem).2, (same b b_mem).1]
    exact before

/-- Every address splits the segments. -/
theorem exists_splits (ordered : Ordered s l) (addr : ℕ) :
    ∃ front back, l = front ++ back ∧ Splits s addr front back := by
  induction l with
  | nil => exact ⟨[], [], rfl, fun _ mem => (nomatch mem), fun _ mem => nomatch mem⟩
  | cons a l ih =>
    have first := (pairwise_cons.1 ordered.order).1
    by_cases below : s.eaddr a ≤ addr
    · obtain ⟨front, back, rfl, splits⟩ := ih (ordered.sublist (sublist_cons_self a l))
      refine ⟨a :: front, back, rfl, ?_, splits.above⟩
      intro b b_mem
      rcases mem_cons.1 b_mem with rfl | b_mem
      · exact below
      · exact splits.below b b_mem
    · refine ⟨[], a :: l, rfl, fun _ mem => (nomatch mem), ?_⟩
      intro b b_mem
      rcases mem_cons.1 b_mem with rfl | later
      · omega
      · have behind := first b later
        have positive := base_lt_eaddr ordered b_mem
        omega

/-- A split that the neighbours of the address bear out. -/
theorem splits_of_neighbours (ordered : Ordered s (front ++ back))
    (below : ∀ a, front.getLast? = some a → s.eaddr a ≤ addr)
    (above : ∀ a, back.head? = some a → addr < s.eaddr a) : Splits s addr front back := by
  refine ⟨?_, ?_⟩
  · intro a a_mem
    rcases eq_nil_or_concat' front with rfl | ⟨rest, b, rfl⟩
    · cases a_mem
    · have b_below := below b (by simp)
      rcases mem_append.1 a_mem with a_mem | a_mem
      · have pairs := pairwise_append.1 (pairwise_append.1 ordered.order).1
        have before := pairs.2.2 a a_mem b (mem_singleton_self b)
        have positive := base_lt_eaddr ordered (show b ∈ rest ++ [b] ++ back by simp)
        omega
      · rw [mem_singleton.1 a_mem]
        exact b_below
  · intro a a_mem
    cases back with
    | nil => cases a_mem
    | cons b rest =>
      have b_above := above b rfl
      rcases mem_cons.1 a_mem with rfl | later
      · exact b_above
      · have before := rel_of_pairwise_cons (pairwise_append.1 ordered.order).2.1 later
        have positive := base_lt_eaddr ordered (mem_append_right front a_mem)
        omega

/-- A segment that ends in front of the next one finds its place. -/
theorem insert (ordered : Ordered s (front ++ back)) {new : ℕ} (size : 0 < (s.seg new).size)
    (splits : Splits s (s.seg new).base front back)
    (gap : ∀ a, back.head? = some a → s.eaddr new ≤ (s.seg a).base) :
    Ordered s (front ++ new :: back) := by
  obtain ⟨front_order, back_order, apart⟩ := pairwise_append.1 ordered.order
  refine ⟨?_, pairwise_append.2 ⟨front_order, pairwise_cons.2 ⟨?_, back_order⟩, ?_⟩⟩
  · intro a a_mem
    rw [mem_append, mem_cons] at a_mem
    rcases a_mem with a_mem | rfl | a_mem
    · exact ordered.size a (mem_append_left _ a_mem)
    · exact size
    · exact ordered.size a (mem_append_right _ a_mem)
  · intro a a_mem
    cases back with
    | nil => cases a_mem
    | cons b rest =>
      have near := gap b rfl
      rcases mem_cons.1 a_mem with rfl | later
      · exact near
      · have before := (pairwise_cons.1 back_order).1 a later
        have positive := base_lt_eaddr ordered (show b ∈ front ++ b :: rest by simp)
        omega
  · intro a a_mem b b_mem
    rcases mem_cons.1 b_mem with rfl | b_mem
    · exact splits.below a a_mem
    · exact apart a a_mem b b_mem

theorem not_overlaps {new : ℕ} (ordered : Ordered s (front ++ new :: back)) {a : ℕ}
    (a_mem : a ∈ front ++ back) :
    ¬ Overlaps s a new := by
  obtain ⟨-, back_order, apart⟩ := pairwise_append.1 ordered.order
  rintro ⟨before, behind⟩
  rcases mem_append.1 a_mem with a_mem | a_mem
  · have := apart a a_mem new mem_cons_self
    omega
  · have := (pairwise_cons.1 back_order).1 a a_mem
    omega

/-- No segment begins at an address when the one that is found for it does not. -/
theorem absent (ordered : Ordered s (front ++ back)) (splits : Splits s addr front back)
    (not_here : ∀ a, back.head? = some a → (s.seg a).base ≠ addr) :
    ∀ a ∈ front ++ back, (s.seg a).base ≠ addr := by
  intro a a_mem here
  have positive := base_lt_eaddr ordered a_mem
  rcases mem_append.1 a_mem with a_mem | a_mem
  · have below := splits.below a a_mem
    omega
  · cases back with
    | nil => cases a_mem
    | cons b rest =>
      rcases mem_cons.1 a_mem with rfl | later
      · exact not_here a rfl here
      · have before := (pairwise_cons.1 (pairwise_append.1 ordered.order).2.1).1 a later
        have above := splits.above b mem_cons_self
        omega

theorem base_le (ordered : Ordered s l) {first a : ℕ} (is_first : l.head? = some first)
    (a_mem : a ∈ l) :
    (s.seg first).base ≤ (s.seg a).base := by
  cases l with
  | nil => cases a_mem
  | cons b rest =>
    obtain rfl : b = first := Option.some.inj is_first
    rcases mem_cons.1 a_mem with rfl | later
    · exact Nat.le_refl _
    · have before := (pairwise_cons.1 ordered.order).1 a later
      have positive := base_lt_eaddr ordered mem_cons_self
      omega

theorem le_base (ordered : Ordered s l) {last a : ℕ} (is_last : l.getLast? = some last)
    (a_mem : a ∈ l) :
    (s.seg a).base ≤ (s.seg last).base := by
  obtain ⟨rest, rfl⟩ := getLast?_eq_some_iff.1 is_last
  rcases mem_append.1 a_mem with earlier | here
  · have before := (pairwise_append.1 ordered.order).2.2 a earlier last
      (mem_singleton_self last)
    have positive := base_lt_eaddr ordered a_mem
    omega
  · rw [mem_singleton.1 here]

end Ordered

end Sol25.Seglist
