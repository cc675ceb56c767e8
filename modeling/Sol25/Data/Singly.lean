import Mathlib.Algebra.Order.Ring.Int
import Mathlib.Data.List.Basic

/-!
# Singly linked lists

Nodes of any type that point to the next one.  A stretch of nodes leads from one pointer to another;
an update of a node outside of it does not touch it.
-/

namespace Sol25

open List Function

variable {α : Type*}

/-- Following `next` from `p` visits the nodes `l` and arrives at `q`. -/
def Links (next : α → Option α) : Option α → List α → Option α → Prop
  | p, [], q => p = q
  | p, a :: l, q => p = some a ∧ Links next (next a) l q

namespace Links

variable {next next' : α → Option α} {p q r : Option α} {l l₁ l₂ : List α} {a b : α}

theorem congr (links : Links next p l q) (same : ∀ a ∈ l, next' a = next a) :
    Links next' p l q := by
  induction l generalizing p with
  | nil => exact links
  | cons a l ih =>
    refine ⟨links.1, ?_⟩
    rw [same a mem_cons_self]
    exact ih links.2 fun b mem => same b (mem_cons_of_mem a mem)

theorem append_iff : Links next p (l₁ ++ l₂) q ↔ ∃ r, Links next p l₁ r ∧ Links next r l₂ q := by
  induction l₁ generalizing p with
  | nil => simp [Links]
  | cons a l₁ ih =>
    simp only [cons_append, Links, ih]
    constructor
    · rintro ⟨rfl, r, first, second⟩
      exact ⟨r, ⟨rfl, first⟩, second⟩
    · rintro ⟨r, ⟨rfl, first⟩, second⟩
      exact ⟨rfl, r, first, second⟩

theorem append (first : Links next p l₁ r) (second : Links next r l₂ q) :
    Links next p (l₁ ++ l₂) q :=
  append_iff.2 ⟨r, first, second⟩

/-- The list in front of a pointer, and the node there. -/
theorem start_eq (links : Links next p l none) : p = l.head? := by
  cases l with
  | nil => exact links
  | cons a l => exact links.1

/-- Every node points to the one after it. -/
theorem next_eq (links : Links next p (l₁ ++ a :: l₂) none) : next a = l₂.head? := by
  obtain ⟨r, -, -, rest⟩ := append_iff.1 links
  exact rest.start_eq

/-- The nodes are determined by the pointer to the first one. -/
theorem unique (first : Links next p l₁ none) (second : Links next p l₂ none) : l₁ = l₂ := by
  induction l₁ generalizing p l₂ with
  | nil =>
    cases l₂ with
    | nil => rfl
    | cons b l₂ => exact absurd (first.symm.trans second.1) (by simp)
  | cons a l₁ ih =>
    cases l₂ with
    | nil => exact absurd (second.symm.trans first.1) (by simp)
    | cons b l₂ =>
      obtain rfl : a = b := Option.some.inj (first.1.symm.trans second.1)
      rw [ih first.2 second.2]

/-- A list is cut off behind its first `k` nodes: the last of these ends it. -/
theorem take {k : ℕ} (links : Links next p l none) (some_left : 0 < k)
    (same : ∀ i a, i + 1 < k → l[i]? = some a → next' a = next a)
    (stop : ∀ a, l[k - 1]? = some a → next' a = none) : Links next' p (l.take k) none := by
  induction l generalizing p k with
  | nil =>
    rw [take_nil]
    exact links
  | cons a l ih =>
    obtain ⟨k, rfl⟩ : ∃ n, k = n + 1 := ⟨k - 1, by omega⟩
    refine ⟨links.1, ?_⟩
    cases k with
    | zero =>
      rw [stop a rfl]
      rfl
    | succ k =>
      rw [same 0 a (by omega) rfl]
      exact ih links.2 (Nat.succ_pos k) (fun i b lt at_i => same (i + 1) b (by omega) at_i) stop

variable [DecidableEq α]

theorem update (links : Links next p l q) (outside : a ∉ l) :
    Links (update next a r) p l q := by
  refine links.congr fun b mem => update_of_ne ?_ _ _
  rintro rfl
  exact outside mem

/-- A new node in front. -/
theorem push (links : Links next p l q) (outside : a ∉ l) :
    Links (Function.update next a p) (some a) (a :: l) q := by
  refine ⟨rfl, ?_⟩
  rw [update_self]
  exact links.update outside

/-- The last node of a stretch is pointed somewhere else. -/
theorem redirect (links : Links next p (l ++ [a]) q) (outside : a ∉ l) :
    Links (Function.update next a r) p (l ++ [a]) r := by
  obtain ⟨_, front, rfl, -⟩ := append_iff.1 links
  refine (front.update outside).append ⟨rfl, ?_⟩
  rw [Function.update_self]
  rfl

/-- A node is left out by pointing the one before it past it. -/
theorem unlink (links : Links next p (l₁ ++ a :: b :: l₂) none)
    (distinct : (l₁ ++ a :: b :: l₂).Nodup) :
    Links (Function.update next a (next b)) p (l₁ ++ a :: l₂) none := by
  obtain ⟨_, front, rfl, -, rest⟩ := append_iff.1 links
  rw [nodup_append, nodup_cons, nodup_cons, mem_cons, not_or] at distinct
  obtain ⟨-, ⟨⟨-, a_notMem⟩, b_notMem, -⟩, apart⟩ := distinct
  have outside : a ∉ l₁ := fun mem => apart a mem a mem_cons_self rfl
  refine (front.update outside).append ⟨rfl, ?_⟩
  rw [Function.update_self]
  exact rest.update a_notMem

/-- A new node behind another one. -/
theorem insert (links : Links next p (l₁ ++ a :: l₂) q) (distinct : (l₁ ++ a :: l₂).Nodup)
    (fresh : b ∉ l₁ ++ a :: l₂) :
    Links (Function.update (Function.update next b (next a)) a (some b)) p
      (l₁ ++ a :: b :: l₂) q := by
  obtain ⟨_, front, rfl, rest⟩ := append_iff.1 links
  rw [nodup_append, nodup_cons] at distinct
  obtain ⟨-, ⟨a_notMem, -⟩, apart⟩ := distinct
  have outside : a ∉ l₁ := fun mem => apart a mem a mem_cons_self rfl
  rw [mem_append, mem_cons, not_or, not_or] at fresh
  obtain ⟨fresh_front, ne, fresh_rest⟩ := fresh
  refine ((front.update fresh_front).update outside).append ⟨rfl, ?_⟩
  rw [Function.update_self]
  refine ⟨rfl, ?_⟩
  rw [Function.update_of_ne ne, Function.update_self]
  exact (rest.update fresh_rest).update a_notMem

end Links

end Sol25
