import Sol25.Libmp.Exact
import Mathlib.Algebra.Order.Ring.Abs

/-!
# Division with signs

`mdiv` and `sdiv` give the quotient and the remainder of the magnitudes one sign, so the remainder
goes with the divisor's sign as well as with the dividend's.
-/

namespace Sol25.Libmp

open Digits Function Option Int

variable {junk : ℤ} {a b : Mint} {x y z : ℤ} {s : Store}

/-- `sdiv` on variables: the remainder is a digit. -/
def sdivAt (junk : ℤ) (s : Store) (a : ℕ) (n : ℤ) (q : ℕ) : Option (Store × ℤ) :=
  (sdiv junk (s a) n).map fun r => (update s q r.1, r.2)

/-- The sign that both results of a division get. -/
def divSign (x y : ℤ) : ℤ := (if x < 0 then -1 else 1) * (if y < 0 then -1 else 1)

theorem divSign_cases (x y : ℤ) : divSign x y = 1 ∨ divSign x y = -1 := by
  by_cases x_neg : x < 0 <;> by_cases y_neg : y < 0 <;> simp [divSign, x_neg, y_neg]

theorem Stands.abs (stands : Stands a x) : Stands { a with len := a.len.natAbs } |x| := by
  by_cases nonneg : 0 ≤ x
  · have len_nonneg := stands.nonneg_iff.2 nonneg
    rwa [natAbs_of_nonneg len_nonneg, abs_of_nonneg nonneg]
  · have len_neg : a.len < 0 := by
      by_contra len_nonneg
      exact nonneg (stands.nonneg_iff.1 (not_lt.1 len_nonneg))
    rw [ofNat_natAbs_of_nonpos len_neg.le, abs_of_neg (not_le.1 nonneg)]
    exact stands.neg

theorem Stands.len_neg_iff (stands : Stands a x) : a.len < 0 ↔ x < 0 := by
  rw [← not_le, ← not_le, stands.nonneg_iff]

/-- `mdiv` divides the magnitudes and gives both results the sign of the quotient. -/
theorem mdiv_signed (stands_a : Stands a x) (stands_b : Stands b y) (nonzero : y ≠ 0) :
    ∃ q r, mdiv junk a b = some (q, r) ∧ Stands q (divSign x y * (|x| / |y|)) ∧
      Stands r (divSign x y * (|x| % |y|)) := by
  obtain ⟨a', moved_a, -, stands_a'⟩ := @Stands.moved junk a x stands_a
  obtain ⟨b', moved_b, -, stands_b'⟩ := @Stands.moved junk b y stands_b
  obtain ⟨q, r, divided, stands_q, stands_r⟩ := @mDiv_spec junk _ _ _ _ stands_a'.abs stands_b'.abs
    (abs_nonneg x) (abs_pos.2 nonzero)
  rw [mdiv, moved_a, moved_b]
  dsimp only
  rw [divided, map_some]
  have sign_eq : (if a'.len < 0 then (-1 : ℤ) else 1) * (if b'.len < 0 then -1 else 1) =
      divSign x y := by
    simp only [divSign, stands_a'.len_neg_iff, stands_b'.len_neg_iff]
  rw [sign_eq]
  rcases divSign_cases x y with positive | negative
  · rw [positive, if_neg (by decide), one_mul, one_mul]
    exact ⟨q, r, rfl, stands_q, stands_r⟩
  · rw [negative, if_pos rfl, neg_one_mul, neg_one_mul]
    exact ⟨_, _, rfl, stands_q.signed_neg, stands_r.signed_neg⟩

/-- `sdiv` does the same with a divisor of one digit. -/
theorem sdiv_signed (stands : Stands a y) (nonzero : z ≠ 0) (digit : |z| < base) :
    ∃ q, sdiv junk a z = some (q, divSign y z * (|y| % |z|)) ∧
      Stands q (divSign y z * (|y| / |z|)) := by
  have abs_pos := abs_pos.2 nonzero
  obtain ⟨n, a_len, holds, full⟩ := stands.abs.nonneg_cases (by dsimp only; omega)
  obtain ⟨q, divided, stands_q⟩ :=
    @sDiv_spec junk { a with len := a.len.natAbs } n |y| |z| a_len abs_pos digit holds full
  have rest_nonneg := emod_nonneg |y| abs_pos.ne'
  have rest_lt := (emod_lt_of_pos |y| abs_pos).trans digit
  have magnitude : (if z < 0 then toShort (-z) else z) = |z| := by
    split_ifs with negative
    · rw [abs_of_neg negative] at digit ⊢
      exact toShort_digit (by omega) digit
    · exact (abs_of_nonneg (not_lt.1 negative)).symm
  have sign_eq : (if z < 0 then (-1 : ℤ) else 1) * (if a.len < 0 then -1 else 1) =
      divSign y z := by
    simp only [divSign, stands.len_neg_iff, mul_comm]
  rw [sdiv, magnitude, sign_eq, divided, map_some]
  refine ⟨_, congrArg some (Prod.ext rfl ?_), ?_⟩
  · rcases divSign_cases y z with positive | negative
    · rw [positive, mul_one, one_mul]
      exact toShort_digit rest_nonneg rest_lt
    · rw [negative, mul_neg_one, neg_one_mul]
      simp only [toShort, base] at rest_lt ⊢
      omega
  · rcases divSign_cases y z with positive | negative
    · rw [positive, one_mul]
      rwa [signed, one_mul]
    · rw [negative, neg_one_mul]
      exact stands_q.signed_neg

/-! ### The law of division -/

/-- The results are a division exactly when the divisor is positive or nothing is left over. -/
theorem divSign_law (nonzero : y ≠ 0) :
    (x = divSign x y * (|x| / |y|) * y + divSign x y * (|x| % |y|)) ↔ 0 < y ∨ y ∣ x := by
  have law := emod_add_mul_ediv |x| |y|
  have exact_iff : y ∣ x ↔ |x| % |y| = 0 := by
    rw [← dvd_iff_emod_eq_zero, abs_dvd_abs]
  rw [exact_iff]
  generalize |x| / |y| = q at law ⊢
  generalize |x| % |y| = r at law ⊢
  rcases lt_or_ge x 0 with x_neg | x_nonneg <;> rcases lt_or_ge y 0 with y_neg | y_nonneg
  · rw [divSign, if_pos x_neg, if_pos y_neg]
    rw [abs_of_neg x_neg, abs_of_neg y_neg] at law
    constructor
    · intro eq
      exact .inr (by linarith)
    · rintro (pos | none_left)
      · omega
      · linarith
  · rw [divSign, if_pos x_neg, if_neg (not_lt.2 y_nonneg)]
    rw [abs_of_neg x_neg, abs_of_nonneg y_nonneg] at law
    exact ⟨fun _ => .inl (by omega), fun _ => by linarith⟩
  · rw [divSign, if_neg (not_lt.2 x_nonneg), if_pos y_neg]
    rw [abs_of_nonneg x_nonneg, abs_of_neg y_neg] at law
    constructor
    · intro eq
      exact .inr (by linarith)
    · rintro (pos | none_left)
      · omega
      · linarith
  · rw [divSign, if_neg (not_lt.2 x_nonneg), if_neg (not_lt.2 y_nonneg)]
    rw [abs_of_nonneg x_nonneg, abs_of_nonneg y_nonneg] at law
    exact ⟨fun _ => .inl (by omega), fun _ => by linarith⟩

theorem divSign_rest_lt (nonzero : y ≠ 0) : |divSign x y * (|x| % |y|)| < |y| := by
  have abs_pos := abs_pos.2 nonzero
  have rest_nonneg := emod_nonneg |x| abs_pos.ne'
  have rest_lt := emod_lt_of_pos |x| abs_pos
  rcases divSign_cases x y with positive | negative
  · rwa [positive, one_mul, abs_of_nonneg rest_nonneg]
  · rwa [negative, neg_one_mul, abs_neg, abs_of_nonneg rest_nonneg]

/-- A division of variables with the law of division, and `sdiv` by a divisor of one digit gives the
same. -/
def Divides (junk : ℤ) (s : Store) (a b q r : ℕ) : Prop :=
  ∃ s', mdivAt junk s a b q r = some s' ∧ (s' q).Canonical ∧ (s' r).Canonical ∧
    (s a).toInt = (s' q).toInt * (s b).toInt + (s' r).toInt ∧ |(s' r).toInt| < |(s b).toInt| ∧
    (|(s b).toInt| < base → ∀ q', ∃ s'', sdivAt junk s a (s b).toInt q' =
      some (s'', (s' r).toInt) ∧ (s'' q').Canonical ∧ (s'' q').toInt = (s' q).toInt)

/-- The law of division holds for positive divisors, and for negative ones only when nothing is left
over. -/
theorem signed_division_iff (junk : ℤ) (s : Store) (a b q r : ℕ) (ne : q ≠ r)
    (canonical_a : (s a).Canonical) (canonical_b : (s b).Canonical) (nonzero : (s b).toInt ≠ 0) :
    Divides junk s a b q r ↔ 0 < (s b).toInt ∨ (s b).toInt ∣ (s a).toInt := by
  obtain ⟨quotient, remainder, divided, stands_q, stands_r⟩ :=
    @mdiv_signed junk _ _ _ _ canonical_a.stands canonical_b.stands nonzero
  have at_q : update (update s q quotient) r remainder q = quotient := by
    rw [update_of_ne ne, update_self]
  have at_r : update (update s q quotient) r remainder r = remainder := update_self ..
  have law := @divSign_law (s a).toInt (s b).toInt nonzero
  rw [Divides, mdivAt, divided, map_some]
  constructor
  · rintro ⟨s', ⟨⟩, -, -, divides, -⟩
    rw [at_q, at_r, stands_q.toInt_eq, stands_r.toInt_eq] at divides
    exact law.1 divides
  · intro condition
    refine ⟨_, rfl, ?_⟩
    rw [at_q, at_r, stands_q.toInt_eq, stands_r.toInt_eq]
    refine ⟨stands_q.canonical, stands_r.canonical, law.2 condition, divSign_rest_lt nonzero,
      fun digit q' => ?_⟩
    obtain ⟨small, short, stands_small⟩ := @sdiv_signed junk _ _ _ canonical_a.stands nonzero digit
    rw [sdivAt, short, map_some]
    obtain ⟨canonical, value_eq, -⟩ := @result_update _ _ s q' stands_small
    exact ⟨_, rfl, canonical, value_eq⟩

/-- Seven by minus two, with the operands as results. -/
def sevenByMinusTwo : Store := fun i => if i = 0 then ⟨1, [7]⟩ else ⟨-1, [2]⟩

/-- Seven by two. -/
theorem signed_division_iff_seven :
    Divides 0 (fun i => if i = 0 then ⟨1, [7]⟩ else ⟨1, [2]⟩) 0 1 1 0 :=
  (signed_division_iff 0 _ 0 1 1 0 (by decide) ⟨by decide, by decide, by decide⟩
    ⟨by decide, by decide, by decide⟩ (by decide)).2 (.inl (by decide))

/-- Seven by minus two gives minus three and minus one. -/
theorem not_signed_division :
    ¬∀ (junk : ℤ) (s : Store) (a b q r : ℕ), q ≠ r → (s a).Canonical → (s b).Canonical →
      (s b).toInt ≠ 0 → Divides junk s a b q r := by
  intro holds
  obtain ⟨s', divided, -, -, law, -⟩ := holds 0 sevenByMinusTwo 0 1 1 0 (by decide)
    ⟨by decide, by decide, by decide⟩ ⟨by decide, by decide, by decide⟩ (by decide)
  have results : (mdivAt 0 sevenByMinusTwo 0 1 1 0).map (fun s' => ((s' 1).toInt, (s' 0).toInt)) =
      some (-3, -1) := by decide
  rw [divided, map_some] at results
  obtain ⟨q_eq, r_eq⟩ := Prod.mk.inj (some.inj results)
  rw [q_eq, r_eq] at law
  exact absurd law (by decide)

end Sol25.Libmp
