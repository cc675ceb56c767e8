import Mathlib.Data.List.Basic
import Mathlib.Tactic.Linarith
import Mathlib.Tactic.LinearCombination
import Mathlib.Tactic.Ring

/-!
# Numbers as lists of digits

Lists of digits to a base, lowest digit first, and loops that go over a part of an array from its
low end, replace each digit and hand a carry on.
-/

namespace Sol25.Digits

open List

variable {B : ℤ}

/-- The number that a list of digits stands for. -/
def value (B : ℤ) : List ℤ → ℤ
  | [] => 0
  | d :: l => d + B * value B l

def IsDigits (B : ℤ) (l : List ℤ) : Prop := ∀ d ∈ l, 0 ≤ d ∧ d < B

theorem IsDigits.nil : IsDigits B [] := fun _ => nofun

theorem isDigits_cons {d : ℤ} {l : List ℤ} : IsDigits B (d :: l) ↔ (0 ≤ d ∧ d < B) ∧ IsDigits B l :=
  forall_mem_cons

theorem isDigits_append {l l' : List ℤ} : IsDigits B (l ++ l') ↔ IsDigits B l ∧ IsDigits B l' :=
  forall_mem_append

theorem value_append (l l' : List ℤ) :
    value B (l ++ l') = value B l + B ^ l.length * value B l' := by
  induction l with
  | nil => simp [value]
  | cons d l ih =>
    rw [cons_append, value, value, ih, length_cons, pow_succ]
    ring

theorem value_singleton (d : ℤ) : value B [d] = d := by simp [value]

theorem value_concat (l : List ℤ) (d : ℤ) : value B (l ++ [d]) = value B l + B ^ l.length * d := by
  rw [value_append, value_singleton]

theorem value_map_mul (q : ℤ) (l : List ℤ) : value B (l.map fun d => q * d) = q * value B l := by
  induction l with
  | nil => simp [value]
  | cons d l ih =>
    rw [map_cons, value, value, ih]
    ring

theorem value_zipWith (r s : ℤ) {l l' : List ℤ} (length_eq : l.length = l'.length) :
    value B (List.zipWith (fun d d' => r * d + s * d') l l') = r * value B l + s * value B l' := by
  induction l generalizing l' with
  | nil =>
    obtain rfl := eq_nil_of_length_eq_zero length_eq.symm
    simp [value]
  | cons d l ih =>
    cases l' with
    | nil => exact nomatch length_eq
    | cons d' l' =>
      rw [zipWith_cons_cons, value, value, value, ih (Nat.succ.inj length_eq)]
      ring

section Base

variable (base : 1 < B)

include base

theorem value_nonneg {l : List ℤ} (digits : IsDigits B l) : 0 ≤ value B l := by
  induction l with
  | nil => exact le_refl 0
  | cons d l ih =>
    obtain ⟨⟨d_nonneg, -⟩, digits⟩ := isDigits_cons.1 digits
    have rest := mul_nonneg (by omega : 0 ≤ B) (ih digits)
    rw [value]
    omega

theorem value_lt {l : List ℤ} (digits : IsDigits B l) : value B l < B ^ l.length := by
  induction l with
  | nil => simp [value]
  | cons d l ih =>
    obtain ⟨⟨-, d_lt⟩, digits⟩ := isDigits_cons.1 digits
    have rest : value B l + 1 ≤ B ^ l.length := ih digits
    have scaled := mul_le_mul_of_nonneg_left rest (by omega : 0 ≤ B)
    rw [value, length_cons, pow_succ, mul_comm (B ^ l.length) B]
    linarith

/-- A number with a nonzero highest digit. -/
theorem le_value {l : List ℤ} {d : ℤ} (digits : IsDigits B l) (pos : 0 < d) :
    B ^ l.length ≤ value B (l ++ [d]) := by
  have rest := value_nonneg base digits
  have power : 0 ≤ B ^ l.length := pow_nonneg (by omega) _
  rw [value_concat]
  nlinarith

end Base

/-- A digit of a quotient that was found from the highest digits is not too small, and at most one
too large. -/
theorem trial_quotient {V W v u low_v low_u P q : ℤ} (V_eq : V = v * P + low_v)
    (W_eq : W = u * P + low_u) (P_pos : 0 < P) (low_v_bounds : 0 ≤ low_v ∧ low_v < P)
    (low_u_bounds : 0 ≤ low_u ∧ low_u < P) (v_le : B ≤ v) (digit : 0 ≤ q ∧ q < B) (fits : q * v ≤ u)
    (most : q = B - 1 ∨ u < (q + 1) * v) (W_lt : W < V * B) :
    (q - 1) * V ≤ W ∧ W < (q + 1) * V := by
  constructor
  · have scaled : q * v * P ≤ u * P := mul_le_mul_of_nonneg_right fits P_pos.le
    have low_le : q * low_v ≤ q * P := mul_le_mul_of_nonneg_left low_v_bounds.2.le digit.1
    have digit_le : q * P ≤ v * P := mul_le_mul_of_nonneg_right (by omega) P_pos.le
    calc (q - 1) * V = q * v * P + q * low_v - V := by rw [V_eq]; ring
      _ ≤ u * P + q * P - V := by linarith
      _ ≤ W := by linarith [low_v_bounds.1, low_u_bounds.1]
  · rcases most with rfl | most
    · rw [sub_add_cancel, mul_comm]
      exact W_lt
    · have scaled : (u + 1) * P ≤ (q + 1) * v * P := mul_le_mul_of_nonneg_right most P_pos.le
      have low_nonneg : 0 ≤ (q + 1) * low_v := mul_nonneg (by omega) low_v_bounds.1
      calc W < (u + 1) * P := by rw [W_eq]; linarith [low_u_bounds.2]
        _ ≤ (q + 1) * v * P := scaled
        _ ≤ (q + 1) * V := by rw [V_eq]; linarith

/-! ### Loops with a carry -/

/-- A loop over some places of an array.  At each place the step gets its number, the old digit and
the carry, and gives a new digit and carry. -/
def sweep (step : ℕ → ℤ → ℤ → Option (ℤ × ℤ)) : ℕ → ℕ → ℕ → List ℤ → ℤ → Option (List ℤ × ℤ)
  | 0, _, _, v, carry => some (v, carry)
  | k + 1, i, place, v, carry =>
    match v[place]? with
    | none => none
    | some old =>
      match step i old carry with
      | none => none
      | some (digit, carry) => sweep step k (i + 1) (place + 1) (v.set place digit) carry

/-- A loop whose steps split off digits leaves a number behind. -/
theorem sweep_spec {step : ℕ → ℤ → ℤ → Option (ℤ × ℤ)} {P : ℤ → Prop} {win terms : List ℤ} {i : ℕ}
    {carry : ℤ} (length_eq : terms.length = win.length) (start : P carry)
    (steps : ∀ j old term, win[j]? = some old → terms[j]? = some term → ∀ c, P c → ∃ digit c',
      step (i + j) old c = some (digit, c') ∧ 0 ≤ digit ∧ digit < B ∧ P c' ∧
        digit + B * c' = term + c)
    (pre post : List ℤ) :
    ∃ win' carry', sweep step win.length i pre.length (pre ++ (win ++ post)) carry =
      some (pre ++ (win' ++ post), carry') ∧ win'.length = win.length ∧ IsDigits B win' ∧ P carry' ∧
        value B win' + B ^ win.length * carry' = value B terms + carry := by
  induction win generalizing terms i carry pre with
  | nil =>
    obtain rfl := eq_nil_of_length_eq_zero length_eq
    refine ⟨[], carry, rfl, rfl, IsDigits.nil, start, ?_⟩
    rw [length_nil, pow_zero, one_mul]
  | cons old win ih =>
    cases terms with
    | nil => exact nomatch length_eq
    | cons term terms =>
      obtain ⟨digit, c', stepped, digit_nonneg, digit_lt, kept, split⟩ :=
        steps 0 old term rfl rfl carry start
      have rest_steps : ∀ j old term, win[j]? = some old → terms[j]? = some term → ∀ c,
        P c → ∃ digit c', step (i + 1 + j) old c = some (digit, c') ∧ 0 ≤ digit ∧ digit < B ∧ P c' ∧
              digit + B * c' = term + c := by
        intro j old term at_j term_at_j
        rw [Nat.add_right_comm, Nat.add_assoc]
        exact steps (j + 1) old term at_j term_at_j
      obtain ⟨win', carry', swept, same_length, digits, kept', total⟩ :=
        ih (Nat.succ.inj length_eq) kept rest_steps (pre ++ [digit])
      refine ⟨digit :: win', carry', ?_, by rw [length_cons, same_length, length_cons],
        isDigits_cons.2 ⟨⟨digit_nonneg, digit_lt⟩, digits⟩, kept', ?_⟩
      · have at_place : (pre ++ (old :: win ++ post))[pre.length]? = some old := by simp
        have written : (pre ++ (old :: win ++ post)).set pre.length digit =
            pre ++ [digit] ++ (win ++ post) := by simp
        rw [Nat.add_zero] at stepped
        rw [length_append, length_singleton] at swept
        rw [length_cons, sweep]
        simp only [at_place, stepped, written, swept, Option.some.injEq, Prod.mk.injEq, and_true]
        simp
      · rw [value, value, length_cons, pow_succ]
        linear_combination B * total + split

end Sol25.Digits
