import Sol25.Route.Model
import Sol25.Data.Descending
import Mathlib.Data.List.Triplewise

/-!
# The order of a list of routes

The entries of a list have shorter and shorter masks, and entries with one address and one mask
stand together.  `ire_add` keeps that when its second loop meets no entry with the same address and
another mask.
-/

namespace Sol25.Route

open List Option

variable {s : State} {ire x e : Ire} {p q : Slot Head ℕ} {l : List ℕ} {fuel : ℕ}

/-! ### Lists of entries -/

/-- The masks get shorter. -/
def Sorted (l : List Ire) : Prop := Descending (fun e => e.mask.toNat) l

/-- What stands between two entries with one address and one mask has that address and mask too. -/
def Grouped (l : List Ire) : Prop :=
  l.Triplewise fun a b c => a.addr = c.addr ∧ a.mask = c.mask → b.addr = a.addr ∧ b.mask = a.mask

section Insert

variable {front run rest : List Ire} (sorted : Sorted (front ++ (run ++ rest)))
  (skipped : ∀ e ∈ front, Skips x e)
  (stopped : ∀ e, (run ++ rest).head? = some e → ¬ Skips x e)
  (same : ∀ e ∈ run, e.addr = x.addr ∧ e.mask = x.mask) (other : ∀ e, rest.head? = some e →
    x.addr ≠ e.addr)

include skipped in
theorem front_apart (mem : e ∈ front) : ¬ (e.addr = x.addr ∧ e.mask = x.mask) := by
  rintro ⟨addr_eq, mask_eq⟩
  rcases skipped e mem with longer | ⟨-, ne⟩
  · rw [mask_eq] at longer
    exact BitVec.lt_irrefl _ longer
  · exact ne addr_eq.symm

include skipped in
theorem front_mask_le (mem : e ∈ front) : x.mask.toNat ≤ e.mask.toNat := by
  rcases skipped e mem with longer | ⟨mask_eq, -⟩
  · exact le_of_lt (BitVec.lt_def.1 longer)
  · rw [mask_eq]

include sorted stopped other in
/-- Behind an empty group, the masks are shorter. -/
theorem rest_mask_lt (empty : run = []) (mem : e ∈ rest) : e.mask.toNat < x.mask.toNat := by
  subst empty
  rw [nil_append] at sorted stopped
  cases rest with
  | nil => exact nomatch mem
  | cons first rest =>
    have not_skipped := stopped first rfl
    have first_lt : first.mask.toNat < x.mask.toNat := by
      rcases Nat.lt_trichotomy first.mask.toNat x.mask.toNat with lt | eq | gt
      · exact lt
      · exact absurd (Or.inr ⟨BitVec.eq_of_toNat_eq eq, other first rfl⟩) not_skipped
      · exact absurd (Or.inl (BitVec.lt_def.2 gt)) not_skipped
    rcases mem_cons.1 mem with rfl | mem
    · exact first_lt
    · have le := rel_of_pairwise_cons (pairwise_append.1 sorted).2.1 mem
      exact lt_of_le_of_lt le first_lt

include sorted stopped same other in
theorem rest_mask_le (mem : e ∈ rest) : e.mask.toNat ≤ x.mask.toNat := by
  by_cases empty : run = []
  · exact le_of_lt (rest_mask_lt sorted stopped other empty mem)
  · obtain ⟨r, r_mem⟩ := exists_mem_of_ne_nil run empty
    have le := (pairwise_append.1 (pairwise_append.1 sorted).2.1).2.2 r r_mem e mem
    dsimp only at le
    rwa [(same r r_mem).2] at le

include sorted skipped stopped same other in
theorem Sorted.insert : Sorted (front ++ (run ++ x :: rest)) := by
  rw [Sorted, ← append_assoc] at sorted ⊢
  refine sorted.insert (fun e mem => ?_) fun e mem => ?_
  · rcases mem_append.1 mem with mem | mem
    · exact front_mask_le skipped mem
    · rw [(same e mem).2]
  · rw [append_assoc] at sorted
    exact rest_mask_le sorted stopped same other mem

section Group

variable (grouped : Grouped (front ++ (run ++ rest)))

include sorted stopped same other grouped

theorem rest_apart (mem : e ∈ rest) : ¬ (x.addr = e.addr ∧ x.mask = e.mask) := by
  rintro ⟨addr_eq, mask_eq⟩
  by_cases empty : run = []
  · have lt := rest_mask_lt sorted stopped other empty mem
    rw [mask_eq] at lt
    exact Nat.lt_irrefl _ lt
  · obtain ⟨r, r_mem⟩ := exists_mem_of_ne_nil run empty
    cases rest with
    | nil => exact nomatch mem
    | cons first rest =>
      rcases mem_cons.1 mem with rfl | mem
      · exact other e rfl addr_eq
      · rw [Grouped, ← append_assoc, triplewise_append] at grouped
        obtain ⟨-, -, behind, -⟩ := grouped
        have between := rel_of_pairwise_cons (behind r (mem_append_right front r_mem)) mem
        obtain ⟨r_addr, r_mask⟩ := same r r_mem
        obtain ⟨first_addr, -⟩ := between ⟨r_addr.trans addr_eq, r_mask.trans mask_eq⟩
        exact other first rfl (r_addr.symm.trans first_addr.symm)

include skipped in
theorem Grouped.insert : Grouped (front ++ (run ++ x :: rest)) := by
  have apart : ∀ c ∈ rest, ¬ (x.addr = c.addr ∧ x.mask = c.mask) :=
    fun c mem => rest_apart sorted stopped same other grouped mem
  rw [Grouped, ← append_assoc, triplewise_append] at grouped ⊢
  obtain ⟨in_front, in_rest, one_two, two_one⟩ := grouped
  refine ⟨in_front, triplewise_cons.2 ⟨?_, in_rest⟩,
    fun a mem => pairwise_cons.2 ⟨fun c c_mem => ?_, one_two a mem⟩,
    forall_mem_cons.2 ⟨?_, two_one⟩⟩
  · exact pairwise_of_forall_mem_list fun b _ c mem eq => absurd eq (apart c mem)
  · rintro ⟨addr_eq, mask_eq⟩
    rcases mem_append.1 mem with mem | mem
    · by_cases empty : run = []
      · have lt := rest_mask_lt sorted stopped other empty c_mem
        have le := front_mask_le skipped mem
        rw [mask_eq] at le
        omega
      · obtain ⟨r, r_mem⟩ := exists_mem_of_ne_nil run empty
        have between := (pairwise_append.1 (two_one c c_mem)).2.2 a mem r r_mem
        obtain ⟨r_addr, r_mask⟩ := between ⟨addr_eq, mask_eq⟩
        exact ⟨(same r r_mem).1.symm.trans r_addr, (same r r_mem).2.symm.trans r_mask⟩
    · exact ⟨(same a mem).1.symm, (same a mem).2.symm⟩
  · refine pairwise_append.2 ⟨?_, ?_, fun a mem b _ eq => absurd eq (front_apart skipped mem)⟩
    · exact pairwise_of_forall_mem_list fun a mem b _ eq => absurd eq (front_apart skipped mem)
    · exact pairwise_of_forall_mem_list fun a a_mem b b_mem _ =>
        ⟨(same b b_mem).1.trans (same a a_mem).1.symm, (same b b_mem).2.trans (same a a_mem).2.symm⟩

end Group

end Insert

theorem Sorted.sublist {l l' : List Ire} (sorted : Sorted l) (sublist : l'.Sublist l) : Sorted l' :=
  Pairwise.sublist sublist sorted

theorem Grouped.remove {front rest : List Ire} (grouped : Grouped (front ++ x :: rest)) :
    Grouped (front ++ rest) := by
  rw [Grouped, triplewise_append] at grouped ⊢
  obtain ⟨in_front, in_rest, one_two, two_one⟩ := grouped
  exact ⟨in_front, (triplewise_cons.1 in_rest).2,
    fun a mem => (pairwise_cons.1 (one_two a mem)).2,
    (forall_mem_cons.1 two_one).2⟩

/-! ### The loops -/

open Slots in
theorem scan_split (chain : s.slots.Chain p l) (scanned : scan s ire fuel p = some q) :
    ∃ front rest, l = front ++ rest ∧ q = behind p front ∧ (∀ i ∈ front, Skips ire (s.ire i)) ∧
      ∀ i, rest.head? = some i → ¬ Skips ire (s.ire i) := by
  induction l generalizing p fuel with
  | nil =>
    cases fuel with
    | zero => exact nomatch scanned
    | succ fuel =>
      rw [scan, chain_nil.1 chain] at scanned
      exact ⟨[], [], rfl, (some.inj scanned).symm, fun _ => nofun, fun _ => nofun⟩
  | cons i l ih =>
    cases fuel with
    | zero => exact nomatch scanned
    | succ fuel =>
      obtain ⟨link_eq, -, chain⟩ := chain_cons.1 chain
      rw [scan, link_eq] at scanned
      dsimp only at scanned
      split_ifs at scanned with skips
      · obtain ⟨front, rest, rfl, rfl, skipped, stopped⟩ := ih chain scanned
        exact ⟨i :: front, rest, rfl, rfl, forall_mem_cons.2 ⟨skips, skipped⟩, stopped⟩
      · refine ⟨[], i :: l, rfl, (some.inj scanned).symm, fun _ => nofun, ?_⟩
        rintro _ ⟨⟩
        exact skips

open Slots in
theorem scan_some (chain : s.slots.Chain p l) (enough : l.length < fuel) :
    ∃ q, scan s ire fuel p = some q := by
  induction l generalizing p fuel with
  | nil =>
    obtain ⟨fuel, rfl⟩ := Nat.exists_eq_add_of_lt enough
    exact ⟨p, by rw [scan, chain_nil.1 chain]⟩
  | cons i l ih =>
    obtain ⟨fuel, rfl⟩ := Nat.exists_eq_add_of_lt enough
    obtain ⟨link_eq, -, chain⟩ := chain_cons.1 chain
    rw [scan, link_eq]
    dsimp only
    split_ifs
    · exact ih chain (by rw [length_cons]; omega)
    · exact ⟨p, rfl⟩

/-- The second loop meets an entry with the address of the new one. -/
inductive Meets (s : State) (ire : Ire) : Slot Head ℕ → ℕ → Prop
  | here {p : Slot Head ℕ} {i : ℕ} : s.slots.link p = some i → ire.addr = (s.ire i).addr →
      Meets s ire p i
  | later {p : Slot Head ℕ} {i j : ℕ} : s.slots.link p = some i → ire.addr = (s.ire i).addr →
      ¬ Duplicate ire (s.ire i) → Meets s ire (.next i) j → Meets s ire p j

/-- What the second loop ends with. -/
inductive GroupEnd (s : State) (ire : Ire) (p : Slot Head ℕ) (l : List ℕ) : Slot Head ℕ ⊕ ℕ → Prop
  | place {run rest : List ℕ} : l = run ++ rest → (∀ i ∈ run, Meets s ire p i) →
      (∀ i, rest.head? = some i → ire.addr ≠ (s.ire i).addr) →
        GroupEnd s ire p l (.inl (Slots.behind p run))
  | old {i : ℕ} : i ∈ l → Meets s ire p i → Duplicate ire (s.ire i) → GroupEnd s ire p l (.inr i)

open Slots in
theorem scanGroup_split {r : Slot Head ℕ ⊕ ℕ} (chain : s.slots.Chain p l)
    (scanned : scanGroup s ire fuel p = some r) :
    GroupEnd s ire p l r := by
  induction l generalizing p fuel with
  | nil =>
    cases fuel with
    | zero => exact nomatch scanned
    | succ fuel =>
      rw [scanGroup, chain_nil.1 chain] at scanned
      obtain rfl := some.inj scanned
      exact @GroupEnd.place _ _ _ _ [] _ rfl (fun _ => nofun) fun _ => nofun
  | cons i l ih =>
    cases fuel with
    | zero => exact nomatch scanned
    | succ fuel =>
      obtain ⟨link_eq, -, chain⟩ := chain_cons.1 chain
      rw [scanGroup, link_eq] at scanned
      dsimp only at scanned
      split_ifs at scanned with same duplicate
      · obtain rfl := some.inj scanned
        exact .old mem_cons_self (.here link_eq same) duplicate
      · cases ih chain scanned with
        | @place run rest split met stopped =>
          subst split
          refine @GroupEnd.place _ _ _ _ (i :: run) _ rfl
            (forall_mem_cons.2 ⟨.here link_eq same, fun j mem => ?_⟩) stopped
          exact .later link_eq same duplicate (met j mem)
        | old mem met found =>
          exact .old (mem_cons_of_mem i mem) (.later link_eq same duplicate met) found
      · obtain rfl := some.inj scanned
        refine @GroupEnd.place _ _ _ _ [] _ rfl (fun _ => nofun) ?_
        rintro _ ⟨⟩
        exact same

open Slots in
theorem scanGroup_some (chain : s.slots.Chain p l) (enough : l.length < fuel) :
    ∃ r, scanGroup s ire fuel p = some r := by
  induction l generalizing p fuel with
  | nil =>
    obtain ⟨fuel, rfl⟩ := Nat.exists_eq_add_of_lt enough
    exact ⟨.inl p, by rw [scanGroup, chain_nil.1 chain]⟩
  | cons i l ih =>
    obtain ⟨fuel, rfl⟩ := Nat.exists_eq_add_of_lt enough
    obtain ⟨link_eq, -, chain⟩ := chain_cons.1 chain
    rw [scanGroup, link_eq]
    dsimp only
    split_ifs
    · exact ⟨.inr i, rfl⟩
    · exact ih chain (by rw [length_cons]; omega)
    · exact ⟨.inl p, rfl⟩

theorem Meets.addr_eq {i : ℕ} (meets : Meets s ire p i) : ire.addr = (s.ire i).addr := by
  induction meets with
  | here _ same => exact same
  | later _ _ _ _ ih => exact ih

end Sol25.Route
