import Mathlib.Algebra.BigOperators.Group.List.Basic
import Mathlib.Algebra.Order.Group.Nat
import Mathlib.Algebra.Order.Ring.Int

/-!
# Tables of numbered records

Records are named by the place they were put in.  A new record takes a new place, and a record that
is given back leaves its place empty for good.
-/

namespace Sol25

open Function List Option

/-- Records named by their places. -/
structure Table (α : Type*) where
  entries : List (Option α)
  deriving DecidableEq, Repr

namespace Table

variable {α : Type*} {t : Table α} {i j : ℕ} {x y z : α}

/-- A table without records. -/
def empty : Table α := ⟨[]⟩

def next (t : Table α) : ℕ := t.entries.length

/-- The record of a name. -/
def get (t : Table α) (i : ℕ) : Option α := t.entries[i]?.join

/-- Another record, or none, in a place. -/
def put (t : Table α) (i : ℕ) (x : Option α) : Table α := ⟨t.entries.set i x⟩

/-- A new record. -/
def add (t : Table α) (x : α) : Table α := ⟨t.entries ++ [some x]⟩

def records (t : Table α) : List α := t.entries.filterMap fun entry => entry

/-- The sum of a weight over the records. -/
def total (t : Table α) (w : α → ℕ) : ℕ := (t.records.map w).sum

/-- The first record with a property. -/
def locate (t : Table α) (p : α → Bool) : Option ℕ := t.entries.findIdx? fun entry => entry.any p

theorem get_eq_some : t.get i = some x ↔ t.entries[i]? = some (some x) := by
  rw [get]
  cases at_i : t.entries[i]? with
  | none => simp
  | some entry => simp

theorem lt_next (at_i : t.get i = some x) : i < t.next := by
  rw [get_eq_some] at at_i
  exact (List.getElem?_eq_some_iff.1 at_i).1

@[simp]
theorem get_put_self (at_i : t.get i = some y) (entry : Option α) :
    (t.put i entry).get i = entry := by
  have inside : i < t.entries.length := lt_next at_i
  simp [get, put, inside]

@[simp]
theorem get_put_ne (ne : j ≠ i) (entry : Option α) : (t.put i entry).get j = t.get j := by
  simp [get, put, getElem?_set_ne ne.symm]

@[simp]
theorem get_add_self : (t.add x).get t.next = some x := by
  simp [get, add, next]

theorem get_add_ne (ne : j ≠ t.next) : (t.add x).get j = t.get j := by
  rw [get, get, add]
  rcases Nat.lt_or_ge j t.entries.length with inside | outside
  · rw [getElem?_append_left inside]
  · have beyond : t.entries.length < j := lt_of_le_of_ne outside (Ne.symm ne)
    rw [getElem?_eq_none (by rw [length_append]; exact beyond), getElem?_eq_none outside]

theorem get_put_cases {entry : Option α} (at_j : (t.put i entry).get j = some x) :
    (j = i ∧ entry = some x) ∨ (j ≠ i ∧ t.get j = some x) := by
  by_cases same : j = i
  · subst same
    refine Or.inl ⟨rfl, ?_⟩
    rw [get_eq_some, put] at at_j
    obtain ⟨inside, found⟩ := List.getElem?_eq_some_iff.1 at_j
    rw [getElem_set_self] at found
    exact found
  · exact Or.inr ⟨same, by rwa [get_put_ne same] at at_j⟩

theorem get_add_cases (at_j : (t.add y).get j = some x) :
    (j = t.next ∧ y = x) ∨ (j ≠ t.next ∧ t.get j = some x) := by
  by_cases same : j = t.next
  · subst same
    rw [get_add_self] at at_j
    exact Or.inl ⟨rfl, some.inj at_j⟩
  · exact Or.inr ⟨same, by rwa [get_add_ne same] at at_j⟩

theorem put_eq_update (at_i : t.get i = some y) (entry : Option α) :
    (t.put i entry).get = update t.get i entry := by
  funext j
  by_cases same : j = i
  · rw [same, get_put_self at_i, update_self]
  · rw [get_put_ne same, update_of_ne same]

theorem add_eq_update : (t.add x).get = update t.get t.next (some x) := by
  funext j
  by_cases same : j = t.next
  · rw [same, get_add_self, update_self]
  · rw [get_add_ne same, update_of_ne same]

theorem put_self (at_i : t.get i = some y) : t.put i (some y) = t := by
  rw [get_eq_some] at at_i
  obtain ⟨inside, found⟩ := List.getElem?_eq_some_iff.1 at_i
  rw [put, ← found, set_getElem_self]

theorem put_put (entry entry' : Option α) : (t.put i entry).put i entry' = t.put i entry' := by
  rw [put, put, set_set, put]

theorem get_next : t.get t.next = none := by
  rw [get, next, getElem?_eq_none le_rfl, join_none]

/-! ### The records -/

theorem mem_records : x ∈ t.records ↔ ∃ i, t.get i = some x := by
  rw [records, mem_filterMap]
  simp only [exists_eq_right, mem_iff_getElem?, get_eq_some]

@[simp]
theorem records_add : (t.add x).records = t.records ++ [x] := by
  simp [records, add]

/-- The record of a place, the others, and what becomes of the place. -/
theorem records_put (at_i : t.get i = some y) :
    ∃ rest, t.records.Perm (y :: rest) ∧ ∀ entry,
      (t.put i entry).records.Perm (entry.toList ++ rest) := by
  rw [get_eq_some] at at_i
  obtain ⟨inside, found⟩ := List.getElem?_eq_some_iff.1 at_i
  refine ⟨((t.entries.take i ++ t.entries.drop (i + 1)).filterMap fun entry => entry), ?_, ?_⟩
  · have split : t.entries = t.entries.take i ++ some y :: t.entries.drop (i + 1) := by
      rw [← found, ← drop_eq_getElem_cons inside, take_append_drop]
    have records_eq : t.records =
        (t.entries.take i ++ some y :: t.entries.drop (i + 1)).filterMap (fun entry => entry) := by
      rw [← split, records]
    rw [records_eq, filterMap_append, filterMap_append, filterMap_cons]
    exact perm_middle
  · intro entry
    rw [records, put, set_eq_take_append_cons_drop, if_pos inside, filterMap_append,
      filterMap_append, filterMap_cons]
    cases entry with
    | none => exact List.Perm.refl _
    | some x => exact perm_middle

/-- One of two records takes the place of both. -/
theorem records_put_two (at_i : t.get i = some y) (at_j : t.get j = some z) (ne : i ≠ j) :
    ∃ rest, t.records.Perm (y :: z :: rest) ∧
      ∀ entry, ((t.put j none).put i entry).records.Perm (entry.toList ++ rest) := by
  obtain ⟨others, records_eq, put_eq⟩ := records_put at_j
  have at_i' : (t.put j none).get i = some y := by rwa [get_put_ne ne]
  obtain ⟨rest, others_eq, put_eq'⟩ := records_put at_i'
  refine ⟨rest, ?_, put_eq'⟩
  have others_perm : others.Perm (y :: rest) := (put_eq none).symm.trans others_eq
  exact records_eq.trans ((others_perm.cons z).trans (List.Perm.swap y z rest))

@[simp]
theorem total_add (w : α → ℕ) : (t.add x).total w = t.total w + w x := by
  rw [total, total, records_add, map_append, sum_append, map_singleton, sum_singleton]

theorem total_put (at_i : t.get i = some y) (entry : Option α) (w : α → ℕ) :
    (t.put i entry).total w + w y = t.total w + entry.elim 0 w := by
  obtain ⟨rest, records_eq, put_eq⟩ := records_put at_i
  have before := (records_eq.map w).sum_eq
  have after := ((put_eq entry).map w).sum_eq
  rw [total, total, before, after, map_cons, sum_cons, map_append, sum_append]
  cases entry with
  | none =>
    simp only [Option.toList, map_nil, sum_nil, Option.elim]
    omega
  | some x =>
    simp only [Option.toList, map_cons, map_nil, sum_cons, sum_nil, Option.elim]
    omega

/-- The total depends on what the records of each place weigh. -/
theorem total_congr {t' : Table α} {w : α → ℕ}
    (same : ∀ i, (t.get i).elim 0 w = (t'.get i).elim 0 w) :
    t.total w = t'.total w := by
  have sum_eq : ∀ l : List (Option α), ((l.filterMap fun entry => entry).map w).sum =
      (l.map fun entry => entry.elim 0 w).sum := by
    intro l
    induction l with
    | nil => rfl
    | cons entry rest ih =>
      cases entry with
      | none => simpa using ih
      | some x => simpa using ih
  obtain ⟨l⟩ := t
  obtain ⟨l'⟩ := t'
  simp only [total, records, sum_eq]
  simp only [get] at same
  induction l generalizing l' with
  | nil =>
    induction l' with
    | nil => rfl
    | cons entry rest ih =>
      have head_eq := same 0
      have rest_eq := ih fun i => same (i + 1)
      simp only [getElem?_nil, getElem?_cons_zero, join_none, join_some, Option.elim] at head_eq
      simp only [map_nil, sum_nil, map_cons, sum_cons] at rest_eq ⊢
      rw [← rest_eq, Nat.add_zero]
      exact head_eq
  | cons entry rest ih =>
    cases l' with
    | nil =>
      have head_eq := same 0
      have rest_eq := ih [] fun i => same (i + 1)
      simp only [getElem?_nil, getElem?_cons_zero, join_none, join_some, Option.elim] at head_eq
      simp only [map_nil, sum_nil, map_cons, sum_cons] at rest_eq ⊢
      rw [rest_eq, Nat.add_zero]
      exact head_eq
    | cons entry' rest' =>
      have head_eq := same 0
      have rest_eq := ih rest' fun i => same (i + 1)
      simp only [getElem?_cons_zero, join_some] at head_eq
      simp only [map_cons, sum_cons]
      rw [rest_eq, head_eq]

/-- A search does not notice a record that is replaced by a similar one. -/
theorem locate_put {p : α → Bool} (at_i : t.get i = some y) (same : p x = p y) :
    (t.put i (some x)).locate p = t.locate p := by
  rw [get_eq_some] at at_i
  have inside := (List.getElem?_eq_some_iff.1 at_i).1
  have map_eq : (t.entries.set i (some x)).map
      (fun entry => entry.any p) = t.entries.map fun entry => entry.any p := by
    refine ext_getElem? fun k => ?_
    rw [getElem?_map, getElem?_map]
    by_cases same_k : k = i
    · rw [same_k, getElem?_set_self inside, at_i]
      exact congrArg some same
    · rw [getElem?_set_ne (Ne.symm same_k)]
  have find_map : ∀ l : List (Option α), l.findIdx? (fun entry => entry.any p) =
      (l.map fun entry => entry.any p).findIdx? id := by
    intro l
    rw [findIdx?_map]
    rfl
  rw [locate, locate, put, find_map, find_map, map_eq]

theorem get_of_locate {p : α → Bool} (found : t.locate p = some i) :
    ∃ x, t.get i = some x ∧ p x = true := by
  rw [locate, findIdx?_eq_some_iff_getElem] at found
  obtain ⟨inside, holds, -⟩ := found
  obtain ⟨x, entry_eq, x_holds⟩ := (Option.any_eq_true _ _).1 holds
  exact ⟨x, get_eq_some.2 (List.getElem?_eq_some_iff.2 ⟨inside, entry_eq⟩), x_holds⟩

end Table

end Sol25
