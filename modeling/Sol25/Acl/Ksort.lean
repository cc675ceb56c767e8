import Mathlib.Algebra.Order.Ring.Int
import Mathlib.Data.List.Basic
import Mathlib.Data.List.Induction

/-!
# The shell sort of the kernel

`ksort` of `syscall/acl.c` over an array that may be shorter than the number of entries it is told.
An access beyond the array gives `none`.
-/

namespace Sol25.Acl

open List Option

variable {α : Type*} {f : α → α → Ordering} {v v' : List α} {g i n : ℕ}

/-- The inner loop of `ksort`: the entry at a place is exchanged with the one a gap before it, while
that one is greater. -/
def sift (f : α → α → Ordering) (g : ℕ) : ℕ → List α → ℕ → Option (List α)
  | 0, v, _ => some v
  | fuel + 1, v, k =>
    if k < g then some v
    else
      match v[k - g]?, v[k]? with
      | some x, some y =>
        if f x y = .gt then sift f g fuel ((v.set (k - g) y).set k x) (k - g) else some v
      | _, _ => none

/-- One round of `ksort`, for one gap. -/
def siftAll (f : α → α → Ordering) (n : ℕ) (v : List α) (g : ℕ) : Option (List α) :=
  (List.range' g (n - g)).foldlM (fun v i => sift f g (i + 1) v i) v

def gaps : ℕ → ℕ → List ℕ
  | 0, _ => []
  | fuel + 1, g => if g = 0 then [] else g :: gaps fuel (g / 2)

/-- `ksort` of an array of so many entries. -/
def ksort (f : α → α → Ordering) (v : List α) (n : ℕ) : Option (List α) :=
  if n ≤ 1 then some v else (gaps n (n / 2)).foldlM (siftAll f n) v

/-! ### What is kept -/

theorem sift_perm {fuel k : ℕ} (eq : sift f g fuel v k = some v') : v'.Perm v := by
  induction fuel generalizing v k with
  | zero =>
    obtain rfl := some.inj eq
    exact List.Perm.refl v
  | succ fuel ih =>
    rw [sift] at eq
    split at eq
    next =>
      obtain rfl := some.inj eq
      exact List.Perm.refl v
    next =>
      split at eq
      next x y at_low at_high =>
        split at eq
        next =>
          obtain ⟨low_lt, low_eq⟩ := List.getElem?_eq_some_iff.1 at_low
          obtain ⟨high_lt, high_eq⟩ := List.getElem?_eq_some_iff.1 at_high
          have swapped := set_set_perm low_lt high_lt
          rw [low_eq, high_eq] at swapped
          exact (ih eq).trans swapped
        next =>
          obtain rfl := some.inj eq
          exact List.Perm.refl v
      next => exact nomatch eq

theorem sift_inside {fuel k : ℕ} (inside : k < v.length) : ∃ v', sift f g fuel v k = some v' := by
  induction fuel generalizing v k with
  | zero => exact ⟨v, rfl⟩
  | succ fuel ih =>
    rw [sift]
    split
    next => exact ⟨v, rfl⟩
    next =>
      rw [getElem?_eq_getElem inside, getElem?_eq_getElem (by omega : k - g < v.length)]
      dsimp only
      split
      next => exact ih (by rw [length_set, length_set]; omega)
      next => exact ⟨v, rfl⟩

theorem foldlM_perm {β : Type*} {step : List α → β → Option (List α)} {places : List β}
    (kept : ∀ v b v', step v b = some v' → v'.Perm v) (eq : places.foldlM step v = some v') :
    v'.Perm v := by
  induction places generalizing v with
  | nil =>
    obtain rfl := some.inj eq
    exact List.Perm.refl v
  | cons b places ih =>
    rw [foldlM_cons] at eq
    obtain ⟨v1, stepped, rest⟩ := bind_eq_some_iff.1 eq
    exact (ih rest).trans (kept v b v1 stepped)

theorem foldlM_inside {β : Type*} {step : List α → β → Option (List α)} {places : List β} {l : ℕ}
    (kept : ∀ v b v', step v b = some v' → v'.Perm v)
    (inside : ∀ v, ∀ b ∈ places, v.length = l → ∃ v', step v b = some v')
    (length_eq : v.length = l) :
    ∃ v', places.foldlM step v = some v' := by
  induction places generalizing v with
  | nil => exact ⟨v, rfl⟩
  | cons b places ih =>
    obtain ⟨v1, stepped⟩ := inside v b mem_cons_self length_eq
    rw [foldlM_cons, stepped]
    exact ih (fun v c member => inside v c (mem_cons_of_mem b member))
      ((kept v b v1 stepped).length_eq.trans length_eq)

theorem siftAll_perm (eq : siftAll f n v g = some v') : v'.Perm v :=
  foldlM_perm (fun _ _ _ => sift_perm) eq

theorem siftAll_inside (length_eq : v.length = n) : ∃ v', siftAll f n v g = some v' := by
  refine foldlM_inside (fun _ _ _ => sift_perm)
    (fun v i member same_length => sift_inside ?_) length_eq
  rw [mem_range'_1] at member
  omega

theorem ksort_perm (eq : ksort f v n = some v') : v'.Perm v := by
  rw [ksort] at eq
  split at eq
  next =>
    obtain rfl := some.inj eq
    exact List.Perm.refl v
  next => exact foldlM_perm (fun _ _ _ => siftAll_perm) eq

theorem ksort_inside (length_eq : v.length = n) : ∃ v', ksort f v n = some v' := by
  rw [ksort]
  split
  next => exact ⟨v, rfl⟩
  next => exact foldlM_inside (fun _ _ _ => siftAll_perm) (fun _ _ _ => siftAll_inside) length_eq

/-- `ksort` leaves an array that is shorter than it is told. -/
theorem ksort_outside (many : 1 < n) (short : v.length < n) : ksort f v n = none := by
  have round_fails : siftAll f n v (n / 2) = none := by
    have places : List.range' (n / 2) (n - n / 2) = List.range' (n / 2) (n - n / 2 - 1) ++
        [n - 1] := by
      have split_last := @range'_concat 1 (n / 2) (n - n / 2 - 1)
      rw [show n - n / 2 - 1 + 1 = n - n / 2 by omega] at split_last
      rw [split_last]
      congr 2
      omega
    rw [siftAll, places, foldlM_append]
    cases before : (List.range' (n / 2) (n - n / 2 - 1)).foldlM
      (fun v i => sift f (n / 2) (i + 1) v i) v with
    | none => rfl
    | some v1 =>
      have same_length := (foldlM_perm (fun _ _ _ => sift_perm) before).length_eq
      have beyond : v1[n - 1]? = none := getElem?_eq_none (by omega)
      simp only [bind_eq_bind, bind_some, foldlM_cons, foldlM_nil, sift,
        if_neg (by omega : ¬ n - 1 < n / 2), beyond]
      cases v1[n - 1 - n / 2]? <;> rfl
  have gaps_eq : gaps n (n / 2) = n / 2 :: gaps (n - 1) (n / 2 / 2) := by
    obtain ⟨m, rfl⟩ : ∃ m, n = m + 1 := ⟨n - 1, by omega⟩
    rw [gaps, if_neg (by omega)]
    rfl
  rw [ksort, if_neg (by omega), gaps_eq, foldlM_cons, round_fails]
  rfl

/-! ### Order -/

/-- With a gap of one, an entry behind sorted ones is put in its place. -/
theorem sift_one {pre : List α} {y : α} {fuel : ℕ} (enough : pre.length < fuel) (post : List α) :
    ∃ low high, pre = low ++ high ∧
      sift f 1 fuel (pre ++ y :: post) pre.length = some (low ++ y :: (high ++ post)) ∧
      (∀ x ∈ high, f x y = .gt) ∧ ∀ x, low.getLast? = some x → f x y ≠ .gt := by
  induction pre using List.reverseRecOn generalizing fuel post with
  | nil =>
    obtain ⟨fuel, rfl⟩ : ∃ m, fuel = m + 1 := ⟨fuel - 1, by omega⟩
    exact ⟨[], [], rfl, by rw [sift, if_pos (by simp)]; rfl, fun _ => nofun, fun _ => nofun⟩
  | append_singleton pre x ih =>
    obtain ⟨fuel, rfl⟩ : ∃ m, fuel = m + 1 := ⟨fuel - 1, by omega⟩
    rw [length_append, length_singleton] at enough ⊢
    have at_low : (pre ++ [x] ++ y :: post)[pre.length + 1 - 1]? = some x := by simp
    have at_high : (pre ++ [x] ++ y :: post)[pre.length + 1]? = some y := by simp
    rw [sift, if_neg (by omega)]
    simp only [at_low, at_high]
    by_cases greater : f x y = .gt
    · have swapped : ((pre ++ [x] ++ y :: post).set (pre.length + 1 - 1) y).set (pre.length + 1) x =
          pre ++ y :: (x :: post) := by simp
      obtain ⟨low, high, pre_eq, sifted, high_gt, low_le⟩ :=
        ih (by omega : pre.length < fuel) (x :: post)
      refine ⟨low, high ++ [x], by rw [pre_eq, append_assoc], ?_, fun z member => ?_, low_le⟩
      · rw [if_pos greater, swapped, Nat.add_sub_cancel, sifted, append_assoc]
        rfl
      · rcases mem_append.1 member with before | last
        · exact high_gt z before
        · rw [mem_singleton.1 last]
          exact greater
    · refine ⟨pre ++ [x], [], by rw [append_nil], ?_, fun _ => nofun, fun z last => ?_⟩
      · rw [if_neg greater]
        rfl
      · rw [getLast?_concat] at last
        rwa [← some.inj last]

section Order

variable (total : ∀ x y, f x y ≠ .gt ∨ f y x ≠ .gt)
  (trans : ∀ x y z, f x y ≠ .gt → f y z ≠ .gt → f x z ≠ .gt)

include total trans

theorem sift_one_sorted {pre post : List α} {y : α} (sorted : pre.Pairwise fun x z => f x z ≠ .gt) :
    ∃ pre', sift f 1 (pre.length + 1) (pre ++ y :: post) pre.length = some (pre' ++ post) ∧
      pre'.length = pre.length + 1 ∧ pre'.Pairwise fun x z => f x z ≠ .gt := by
  obtain ⟨low, high, pre_eq, sifted, high_gt, low_le⟩ :=
    @sift_one α f pre y _ (Nat.lt_succ_self _) post
  subst pre_eq
  obtain ⟨low_sorted, high_sorted, across⟩ := pairwise_append.1 sorted
  refine ⟨low ++ y :: high, ?_, ?_, ?_⟩
  · rw [sifted, append_assoc]
    rfl
  · simp only [length_append, length_cons]
    omega
  · have above : ∀ z ∈ high, f y z ≠ .gt := fun z member =>
      (total y z).resolve_right (not_not.2 (high_gt z member))
    have below : ∀ x ∈ low, f x y ≠ .gt := by
      intro x member
      obtain ⟨front, last, rfl⟩ := (eq_nil_or_concat' low).resolve_left (ne_nil_of_mem member)
      have last_le := low_le last (by rw [getLast?_concat])
      rcases mem_append.1 member with in_front | is_last
      · have le_last := (pairwise_append.1 low_sorted).2.2 x in_front last
          (mem_singleton.2 rfl)
        exact trans x last y le_last last_le
      · rw [mem_singleton.1 is_last]
        exact last_le
    refine pairwise_append.2 ⟨low_sorted, pairwise_cons.2 ⟨above, high_sorted⟩,
      fun x in_low z member => ?_⟩
    rcases mem_cons.1 member with rfl | in_high
    · exact below x in_low
    · exact across x in_low z in_high

theorem siftAll_one_sorted {pre post : List α} (sorted : pre.Pairwise fun x z => f x z ≠ .gt)
    {v' : List α}
    (eq : (List.range' pre.length post.length).foldlM
      (fun v i => sift f 1 (i + 1) v i) (pre ++ post) = some v') :
    v'.Pairwise fun x z => f x z ≠ .gt := by
  induction post generalizing pre with
  | nil =>
    obtain rfl := some.inj eq
    rwa [append_nil]
  | cons y post ih =>
    obtain ⟨pre', sifted, length_eq, sorted'⟩ := @sift_one_sorted α f total trans pre post y sorted
    rw [length_cons, range'_succ, foldlM_cons, sifted] at eq
    refine ih sorted' ?_
    rw [length_eq]
    exact eq

omit total trans in
theorem gaps_last {fuel : ℕ} (pos : 0 < g) (enough : g ≤ fuel) :
    ∃ before, gaps fuel g = before ++ [1] := by
  induction fuel generalizing g with
  | zero => omega
  | succ fuel ih =>
    rw [gaps, if_neg (by omega)]
    by_cases one : g = 1
    · subst one
      refine ⟨[], ?_⟩
      cases fuel <;> rfl
    · obtain ⟨before, eq⟩ := ih (by omega : 0 < g / 2) (by omega)
      exact ⟨g :: before, by rw [eq]; rfl⟩

/-- `ksort` sorts an array of as many entries as it is told. -/
theorem ksort_sorted (length_eq : v.length = n) (eq : ksort f v n = some v') :
    v'.Pairwise fun x z => f x z ≠ .gt := by
  rw [ksort] at eq
  split at eq
  next few =>
    obtain rfl := some.inj eq
    match v, length_eq with
    | [], _ => exact List.Pairwise.nil
    | [x], _ => exact pairwise_singleton _ x
    | _ :: _ :: _, length_eq =>
      simp only [length_cons] at length_eq
      omega
  next many =>
    obtain ⟨before, gaps_eq⟩ := @gaps_last (n / 2) n (by omega) (by omega)
    rw [gaps_eq, foldlM_append] at eq
    obtain ⟨v1, rounds, last⟩ := bind_eq_some_iff.1 eq
    have same_length := (foldlM_perm (fun _ _ _ => siftAll_perm) rounds).length_eq
    rw [foldlM_cons, siftAll] at last
    obtain ⟨v2, last_round, done⟩ := bind_eq_some_iff.1 last
    obtain rfl := some.inj done
    match v1, same_length with
    | [], same_length =>
      rw [length_nil] at same_length
      omega
    | x :: post, same_length =>
      refine @siftAll_one_sorted α f total trans [x] post (pairwise_singleton _ x) _ ?_
      rw [length_cons] at same_length
      rw [show n - 1 = post.length by omega] at last_round
      exact last_round

/-- `ksort` of no more entries than it is told sorts them just when there are as many, or when it
has nothing to do. -/
theorem ksort_sorts_iff (few : v.length ≤ n) : (∃ v', ksort f v n = some v' ∧ v'.Perm v ∧
    v'.Pairwise fun x z => f x z ≠ .gt) ↔ v.length = n ∨ n ≤ 1 := by
  constructor
  · rintro ⟨v', eq, -⟩
    by_contra short
    rw [ksort_outside (by omega) (by omega)] at eq
    cases eq
  · rintro (same | one)
    · obtain ⟨v', eq⟩ := @ksort_inside α f v n same
      exact ⟨v', eq, ksort_perm eq, ksort_sorted total trans same eq⟩
    · exact ⟨v, if_pos one, .refl v, pairwise_iff_getElem.2 fun i j _ _ _ => by omega⟩

end Order

theorem ksort_sorts_iff_three : (∃ v', ksort compare [3, 1, 2] 3 = some v' ∧ v'.Perm [3, 1, 2] ∧
    v'.Pairwise fun x z : ℕ => compare x z ≠ .gt) ↔ [3, 1, 2].length = 3 ∨ 3 ≤ 1 :=
  ksort_sorts_iff (by simpa [compare_le_iff_le] using Nat.le_total)
    (by simpa [compare_le_iff_le] using fun _ _ _ => Nat.le_trans) (by decide)

end Sol25.Acl
