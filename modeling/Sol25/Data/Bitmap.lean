import Mathlib.Algebra.Order.Ring.Int
import Mathlib.Data.List.Basic

/-!
# Bitmaps in words

A set of numbers as a list of words, one bit a number, and the greatest number with a property.
-/

namespace Sol25

open Nat BitVec Bool

/-- The greatest number with a property, or `-1` if there is none. -/
def IsHighest (p : ℕ → Prop) (r : ℤ) : Prop :=
  (r = -1 ∧ ∀ i, ¬ p i) ∨ ∃ k : ℕ, r = k ∧ p k ∧ ∀ i, k < i → ¬ p i

namespace IsHighest

variable {p p' : ℕ → Prop} {r r' : ℤ} {k i : ℕ}

theorem le (highest : IsHighest p r) (holds : p i) : (i : ℤ) ≤ r := by
  rcases highest with ⟨-, none⟩ | ⟨k, rfl, -, above⟩
  · exact absurd holds (none i)
  · by_contra beyond
    exact above i (by omega) holds

theorem neg_one_le (highest : IsHighest p r) : -1 ≤ r := by
  rcases highest with ⟨rfl, -⟩ | ⟨k, rfl, -⟩ <;> omega

theorem holds (highest : IsHighest p k) : p k := by
  rcases highest with ⟨eq, -⟩ | ⟨j, eq, holds, -⟩
  · omega
  · obtain rfl : k = j := by omega
    exact holds

theorem congr (highest : IsHighest p r) (same : ∀ i, p' i ↔ p i) : IsHighest p' r := by
  rcases highest with ⟨rfl, none⟩ | ⟨k, rfl, holds, above⟩
  · exact .inl ⟨rfl, fun i => (same i).not.2 (none i)⟩
  · exact .inr ⟨k, rfl, (same k).2 holds, fun i lt => (same i).not.2 (above i lt)⟩

/-- One more number gets the property. -/
theorem insert (highest : IsHighest p r) (k : ℕ) : IsHighest (fun i => i = k ∨ p i) (max r k) := by
  rcases highest with ⟨rfl, none⟩ | ⟨j, rfl, holds, above⟩
  · refine .inr ⟨k, by omega, .inl rfl, fun i lt => ?_⟩
    rintro (rfl | holds)
    · exact absurd lt (Nat.lt_irrefl i)
    · exact none i holds
  · rcases Nat.le_total j k with le | le
    · refine .inr ⟨k, by omega, .inl rfl, fun i lt => ?_⟩
      rintro (rfl | holds)
      · exact absurd lt (Nat.lt_irrefl i)
      · exact above i (by omega) holds
    · refine .inr ⟨j, by omega, .inr holds, fun i lt => ?_⟩
      rintro (rfl | holds)
      · omega
      · exact above i lt holds

end IsHighest

/-! ### Words -/

variable {w : ℕ}

/-- The word of a map, zero outside of it. -/
def wordAt (map : List (BitVec w)) (j : ℕ) : BitVec w := map[j]?.getD 0

/-- A number is in the set of a map. -/
def bitAt (map : List (BitVec w)) (i : ℕ) : Bool := (wordAt map (i / w)).getLsbD (i % w)

variable {map : List (BitVec w)} {i : ℕ}

theorem wordAt_modify {j : ℕ} (f : BitVec w → BitVec w) (inside : j < map.length) (k : ℕ) :
    wordAt (map.modify j f) k = if k = j then f (wordAt map j) else wordAt map k := by
  rw [wordAt, wordAt, wordAt, List.getElem?_modify]
  split_ifs with eq ne ne
  · subst eq
    rw [List.getElem?_eq_getElem inside]
    rfl
  · exact absurd eq.symm ne
  · exact absurd ne.symm eq
  · cases map[k]? <;> rfl

theorem bitAt_modify (f : BitVec w → BitVec w) (inside : i / w < map.length) (j : ℕ) :
    bitAt (map.modify (i / w) f) j =
      if j / w = i / w then (f (wordAt map (i / w))).getLsbD (j % w) else bitAt map j := by
  rw [bitAt, wordAt_modify f inside]
  split_ifs with same
  · rfl
  · rfl

theorem eq_of_div_mod {j : ℕ} (div : j / w = i / w) (mod : j % w = i % w) : j = i := by
  rw [← div_add_mod j w, ← div_add_mod i w, div, mod]

/-- A number is put in. -/
theorem bitAt_or (pos : 0 < w) (inside : i / w < map.length) (j : ℕ) :
    bitAt (map.modify (i / w) (· ||| 1#w <<< (i % w))) j = (decide (j = i) || bitAt map j) := by
  rw [bitAt_modify _ inside]
  have lt := mod_lt j pos
  split_ifs with same
  · rw [BitVec.getLsbD_or, ← BitVec.twoPow_eq, BitVec.getLsbD_twoPow, bitAt, same, Bool.or_comm]
    congr 1
    rw [Bool.eq_iff_iff, Bool.and_eq_true, decide_eq_true_iff, decide_eq_true_iff,
      decide_eq_true_iff]
    constructor
    · rintro ⟨-, mod⟩
      exact eq_of_div_mod same mod.symm
    · rintro rfl
      exact ⟨lt, rfl⟩
  · have ne : j ≠ i := fun eq => same (by rw [eq])
    rw [decide_eq_false ne, Bool.false_or]

/-- A number is taken out. -/
theorem bitAt_and_not (pos : 0 < w) (inside : i / w < map.length) (j : ℕ) :
    bitAt (map.modify (i / w) (· &&& ~~~ (1#w <<< (i % w)))) j =
      (!decide (j = i) && bitAt map j) := by
  rw [bitAt_modify _ inside]
  have lt := mod_lt j pos
  split_ifs with same
  · rw [getLsbD_and, getLsbD_not, ← twoPow_eq, getLsbD_twoPow, bitAt,
      same, Bool.and_comm, decide_eq_true lt, Bool.true_and, decide_eq_true (Nat.mod_lt i pos),
      Bool.true_and]
    congr 2
    rw [Bool.eq_iff_iff, decide_eq_true_iff, decide_eq_true_iff]
    constructor
    · intro mod
      exact eq_of_div_mod same mod.symm
    · rintro rfl
      rfl
  · have ne : j ≠ i := fun eq => same (by rw [eq])
    rw [decide_eq_false ne, Bool.not_false, Bool.true_and]

end Sol25
