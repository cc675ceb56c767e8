import Mathlib.Data.List.GetD
import Sol25.Swap.Model

/-!
# The map of a device

The bits of a device's map say which of its slots are in use; those behind the last page are always
set.  `swap_getoff` finds a free slot whenever `si_nfpgs` says that there is one, wherever its hint
points.
-/

namespace Sol25.Swap

open List Nat Bool

namespace Swapinfo

variable {d d' : Swapinfo}

/-! ### Consistent maps -/

/-- A map that is consistent with the counters of its device. -/
structure Good (d : Swapinfo) : Prop where
  size : d.slots.length = (d.npgs + nbbw - 1) / nbbw * nbbw
  range : d.eoff = d.soff + d.npgs
  positive : 0 < d.npgs
  /-- `si_nfpgs` counts the clear bits. -/
  free : d.nfpgs = (d.slots.take d.npgs).count false
  /-- The bits behind the last page are set. -/
  padded : ∀ slot, d.npgs ≤ slot → d.test slot = true
  hint : d.hint ≤ d.npgs

/-- What the allocation of slots leaves alone. -/
def area (d : Swapinfo) : ℕ × ℕ × ℕ × ℕ × ℕ × Bool × Bool :=
  (d.id, d.vp, d.soff, d.eoff, d.npgs, d.indel, d.doingdel)

theorem Good.npgs_le (good : d.Good) : d.npgs ≤ d.slots.length := by
  rw [good.size, nbbw]
  omega

theorem test_set (slot : ℕ) (b : Bool) (inside : slot < d.slots.length) (other : ℕ) :
    ({ d with slots := d.slots.set slot b } : Swapinfo).test other =
      if other = slot then b else d.test other := by
  simp only [test, getD_eq_getElem?_getD, getElem?_set]
  split_ifs with same same' same'
  · simp
  · omega
  · omega
  · rfl

theorem count_take_set {l : List Bool} {n slot : ℕ} (inside : slot < n) (short : n ≤ l.length)
    (b : Bool) :
    ((l.set slot b).take n).count false + (if l.getD slot true = false then 1 else 0) =
      (l.take n).count false + (if b = false then 1 else 0) := by
  have small : slot < (l.take n).length := by
    rw [length_take]
    omega
  have at_slot : (l.take n)[slot] = l.getD slot true := by
    rw [getElem_take, getD_eq_getElem _ _ (by omega)]
  have positive : (l.take n)[slot] = false → 0 < (l.take n).count false := by
    intro is_false
    exact count_pos_iff.2 (is_false ▸ getElem_mem small)
  rw [take_set, count_set small]
  rw [at_slot] at positive ⊢
  cases taken : l.getD slot true <;> cases b <;> simp_all

theorem Good.exists_free (good : d.Good) (some_free : 0 < d.nfpgs) :
    ∃ slot < d.npgs, d.test slot = false := by
  rw [good.free, count_pos_iff, mem_iff_getElem] at some_free
  obtain ⟨slot, small, clear⟩ := some_free
  rw [length_take] at small
  refine ⟨slot, by omega, ?_⟩
  rw [test, getD_eq_getElem _ _ (by omega), ← clear, getElem_take]

/-! ### `swap_getoff` -/

theorem mem_words {word : ℕ} (inside : word < d.slots.length / nbbw) : word ∈ d.words := by
  simp only [words, mem_append, mem_range'_1, mem_range]
  omega

theorem mem_bits {b : ℕ} (inside : b < nbbw) : b ∈ d.bits := by
  simp only [bits, mem_append, mem_range'_1, mem_range]
  omega

/-- A free slot is found and set. -/
theorem Good.getoff (good : d.Good) (some_free : 0 < d.nfpgs) :
    ∃ slot < d.npgs, d.test slot = false ∧
      d.getoff = some (some slot, { d with slots := d.slots.set slot true, hint := slot + 1 }) := by
  obtain ⟨free, free_lt, clear⟩ := good.exists_free some_free
  have word_lt : free / nbbw < d.slots.length / nbbw := by
    rw [good.size, nbbw]
    omega
  have not_full : d.full (free / nbbw) = false := by
    rw [full, List.all_eq_false]
    refine ⟨free % nbbw, mem_range.2 (mod_lt _ (by decide)), ?_⟩
    rw [div_add_mod, clear]
    decide
  rcases found : d.words.find? fun word => !d.full word with _ | word
  · have := find?_eq_none.1 found _ (mem_words word_lt)
    simp [not_full] at this
  · have open_word := find?_some found
    simp only [not_eq_true', full, List.all_eq_false, mem_range] at open_word
    obtain ⟨b, b_lt, clear_b⟩ := open_word
    rcases found_bit : d.bits.find? fun b => !d.test (nbbw * word + b) with _ | bit
    · have := find?_eq_none.1 found_bit _ (mem_bits b_lt)
      simp [not_eq_true] at this clear_b
      rw [this] at clear_b
      cases clear_b
    · have clear_bit := find?_some found_bit
      simp only [not_eq_true'] at clear_bit
      refine ⟨nbbw * word + bit, ?_, clear_bit, ?_⟩
      · by_contra beyond
        have := good.padded _ (Nat.le_of_not_lt beyond)
        rw [clear_bit] at this
        cases this
      · simp only [Swapinfo.getoff, found, found_bit]

/-- A slot that is taken out of a consistent map. -/
theorem Good.taken (good : d.Good) {slot hint : ℕ} (inside : slot < d.npgs)
    (clear : d.test slot = false) (near : hint ≤ d.npgs) :
    ({ d with slots := d.slots.set slot true, hint, nfpgs := d.nfpgs - 1 } : Swapinfo).Good := by
  have short := good.npgs_le
  have counted := count_take_set inside short true
  rw [show d.slots.getD slot true = false from clear] at counted
  refine ⟨?_, good.range, good.positive, ?_, ?_, near⟩
  · simp only [length_set]
    exact good.size
  · have free := good.free
    simp only [if_true, reduceCtorEq, if_false] at counted
    simp only
    omega
  · intro other beyond
    have beyond : d.npgs ≤ other := beyond
    have kept := @test_set d slot true (by omega) other
    rw [if_neg (by omega), good.padded other beyond] at kept
    exact kept

/-! ### Runs -/

/-- A device from which a run of slots was taken. -/
structure Took (d : Swapinfo) (first len : ℕ) (d' : Swapinfo) : Prop where
  positive : 0 < len
  inside : first + len ≤ d.npgs
  free : ∀ slot, first ≤ slot → slot < first + len → d.test slot = false
  test : ∀ slot, d'.test slot = (decide (first ≤ slot ∧ slot < first + len) || d.test slot)
  area : d'.area = d.area
  allocs : d'.allocs = d.allocs
  good : d'.Good

theorem test_hint (slots : List Bool) (hint nfpgs slot : ℕ) :
    ({ d with slots, hint, nfpgs } : Swapinfo).test slot =
      ({ d with slots } : Swapinfo).test slot := rfl

theorem grow_spec {maxcontig lenp first : ℕ} {free : ℕ} {e : Swapinfo} {len : ℕ}
    (took : Took d first len e) (is_free : e.nfpgs = free) :
    ∃ len' d', e.grow maxcontig lenp first free len = some (len', d') ∧ Took d first len' d' := by
  induction free generalizing e len with
  | zero => exact ⟨len, e, rfl, took⟩
  | succ free ih =>
    simp only [grow]
    by_cases enough : ¬ len * pagesize < lenp
    · exact ⟨len, e, by rw [if_pos enough], took⟩
    · rw [if_neg enough]
      by_cases long : maxcontig ≠ 0 ∧ maxcontig ≤ len * pagesize
      · exact ⟨len, e, by rw [if_pos long], took⟩
      · rw [if_neg long]
        have npgs : e.npgs = d.npgs := by
          have := took.area
          simp only [Swapinfo.area, Prod.mk.injEq] at this
          exact this.2.2.2.2.1
        obtain ⟨slot, slot_lt, clear, found⟩ := took.good.getoff (by omega)
        have short := took.good.npgs_le
        rw [found]
        simp only
        by_cases gap : slot ≠ first + len
        · rw [if_pos gap]
          -- The bit that was set is cleared again: only the hint has moved.
          have same : (e.slots.set slot true).set slot false = e.slots := by
            rw [set_set]
            have is_clear := clear
            rw [Swapinfo.test, getD_eq_getElem _ _ (by omega)] at is_clear
            rw [← is_clear]
            exact set_getElem_self (by omega)
          refine ⟨len, _, rfl, ?_⟩
          rw [same]
          exact ⟨took.positive, took.inside, took.free, took.test, took.area, took.allocs,
            took.good.size, took.good.range, took.good.positive, took.good.free,
              took.good.padded, slot_lt⟩
        · rw [if_neg gap]
          push Not at gap
          subst gap
          have was_free : d.test (first + len) = false := by
            have now := took.test (first + len)
            rw [clear] at now
            have := (or_eq_false_iff.1 now.symm).2
            exact this
          refine ih ⟨by omega, by omega, ?_, ?_, took.area, took.allocs, ?_⟩ (by simp only; omega)
          · intro other from_first to_end
            rcases Nat.lt_or_ge other (first + len) with before | at_end
            · exact took.free other from_first before
            · rwa [show other = first + len by omega]
          · intro other
            rw [test_hint, test_set _ _ (by omega)]
            split_ifs with at_slot
            · subst at_slot
              simp
            · rw [took.test other]
              congr 1
              rw [decide_eq_decide]
              omega
          · exact took.good.taken slot_lt clear slot_lt

/-- A device with a free page gives a run of slots that were free. -/
theorem Good.take (good : d.Good) (some_free : 0 < d.nfpgs) (maxcontig lenp : ℕ) :
    ∃ first len d', d.take maxcontig lenp = some (first, len, d') ∧ Took d first len d' := by
  obtain ⟨slot, slot_lt, clear, found⟩ := good.getoff some_free
  have short := good.npgs_le
  have first : Took d slot 1
      { d with slots := d.slots.set slot true, hint := slot + 1, nfpgs := d.nfpgs - 1 } := by
    refine ⟨Nat.one_pos, slot_lt, ?_, ?_, rfl, rfl, good.taken slot_lt clear slot_lt⟩
    · intro other from_first to_end
      rwa [show other = slot by omega]
    · intro other
      rw [test_hint, test_set _ _ (by omega)]
      split_ifs with at_slot
      · subst at_slot
        simp
      · have outside : ¬ (slot ≤ other ∧ other < slot + 1) := by omega
        rw [decide_eq_false outside, Bool.false_or]
  obtain ⟨len, d', grows, took⟩ := @grow_spec d maxcontig lenp slot _ _ 1 first rfl
  refine ⟨slot, len, d', ?_, took⟩
  simp only [Swapinfo.take, found, grows, Option.map_some]

/-- Slots that are in use are given back. -/
theorem Good.release {page npage : ℕ} (good : d.Good) (inside : page + npage ≤ d.npgs)
    (in_use : ∀ slot, page ≤ slot → slot < page + npage → d.test slot = true) :
    ∃ d', d.release page npage = some d' ∧ d'.Good ∧ d'.area = d.area ∧
      ∀ slot, d'.test slot = (!decide (page ≤ slot ∧ slot < page + npage) && d.test slot) := by
  induction npage generalizing d page with
  | zero =>
    refine ⟨d, rfl, good, rfl, fun slot => ?_⟩
    rw [decide_eq_false (by omega), Bool.not_false, Bool.true_and]
  | succ npage ih =>
    have short := good.npgs_le
    have set := in_use page (le_refl _) (by omega)
    have counted := count_take_set (show page < d.npgs by omega) short false
    rw [show d.slots.getD page true = true from set] at counted
    have good' : ({ d with
        slots := d.slots.set page false, nfpgs := d.nfpgs + 1 } : Swapinfo).Good := by
      refine ⟨?_, good.range, good.positive, ?_, ?_, good.hint⟩
      · simp only [length_set]
        exact good.size
      · have free := good.free
        simp only [if_true, reduceCtorEq, if_false] at counted
        simp only
        omega
      · intro other beyond
        have beyond : d.npgs ≤ other := beyond
        have kept := @test_set d page false (by omega) other
        rw [if_neg (by omega), good.padded other beyond] at kept
        exact kept
    have tests : ∀ other, ({ d with slots := d.slots.set page false, nfpgs := d.nfpgs + 1 } :
        Swapinfo).test other = if other = page then false else d.test other :=
      fun other => test_set page false (by omega) other
    obtain ⟨d', releases, good'', same, test'⟩ := @ih _ (page + 1) good' (by simp only; omega) (by
      intro slot from_page to_end
      rw [tests, if_neg (by omega)]
      exact in_use slot (by omega) (by omega))
    refine ⟨d', ?_, good'', same, fun slot => ?_⟩
    · simp only [Swapinfo.release, set, Bool.not_true, Bool.false_eq_true, if_false]
      exact releases
    · rw [test', tests]
      split_ifs with at_page
      · subst at_page
        simp
      · congr 2
        rw [decide_eq_decide]
        omega

theorem newSwapinfo_good (id vp : ℕ) {soff eoff : ℕ} (nonempty : soff < eoff) :
    (newSwapinfo id vp soff eoff).Good := by
  have padded : eoff - soff ≤ (eoff - soff + nbbw - 1) / nbbw * nbbw := by
    rw [nbbw]
    omega
  refine ⟨?_, ?_, ?_, ?_, ?_, ?_⟩
  · simp only [newSwapinfo, length_append, length_replicate]
    omega
  · simp only [newSwapinfo]
    omega
  · simp only [newSwapinfo]
    omega
  · simp [newSwapinfo]
  · intro slot beyond
    simp only [newSwapinfo] at beyond
    simp only [newSwapinfo, test, getD_eq_getElem?_getD]
    rw [getElem?_append_right (by simpa using beyond), getElem?_replicate]
    split_ifs <;> rfl
  · exact zero_le _

end Swapinfo

end Sol25.Swap
