import Mathlib.Algebra.BigOperators.Intervals
import Sol25.Data.Singly
import Sol25.Disp.Bits

/-!
# One dispatch queue

A queue holds a list of threads at each level.  The counts, the map of active levels and the two
summary priorities follow from the lists; a thread that is put on or taken off changes them
accordingly.
-/

namespace Sol25.Disp

open Finset Function List Bool

variable {thread thread' : ℕ → Thread} {dp dp' : DispT} {dq dq' : Dispq} {l : ℕ → List ℕ}
  {l' : List ℕ}
  {t tpri : ℕ} {bound : Option ℕ}

/-- The list of threads at one level. -/
structure Level (thread : ℕ → Thread) (dq : Dispq) (l : List ℕ) : Prop where
  links : Links (fun u => (thread u).link) dq.first l none
  last_eq : dq.last = l.getLast?
  sruncnt_eq : dq.sruncnt = l.length

theorem Level.congr (level : Level thread dq l')
    (same : ∀ u ∈ l', (thread' u).link = (thread u).link) :
    Level thread' dq l' :=
  ⟨level.links.congr same, level.last_eq, level.sruncnt_eq⟩

/-- A queue with the lists of threads at its levels. -/
structure Held (thread : ℕ → Thread) (dp : DispT) (l : ℕ → List ℕ) : Prop where
  q_length : dp.q.length = dp.npri
  map_length : dp.qactmap.length = dp.npri / 32 + 1
  level : ∀ i dq, dp.q[i]? = some dq → Level thread dq (l i)
  outside : ∀ i, dp.npri ≤ i → l i = []
  /-- The bit of a level is on if and only if there is a thread. -/
  active : ∀ i, bitAt dp.qactmap i = true ↔ l i ≠ []
  nrunnable : dp.nrunnable = ∑ i ∈ range dp.npri, (l i).length
  maxrunpri : IsHighest (fun i => l i ≠ []) dp.maxrunpri
  unbound : ∀ i, ∀ u ∈ l i, (thread u).boundCpu = none → (i : ℤ) ≤ dp.maxUnboundPri
  unbound_le : dp.maxUnboundPri ≤ dp.maxrunpri
  neg_one_le : -1 ≤ dp.maxUnboundPri

theorem sum_update {n : ℕ} (lt : tpri < n) :
    ∑ i ∈ Finset.range n, (update l tpri l' i).length + (l tpri).length =
    ∑ i ∈ Finset.range n, (l i).length + l'.length := by
  have mem : tpri ∈ Finset.range n := Finset.mem_range.2 lt
  rw [← add_sum_erase _ _ mem, ← add_sum_erase _ (fun i => (l i).length) mem, update_self]
  have same : ∑ i ∈ (Finset.range n).erase tpri, (update l tpri l' i).length =
      ∑ i ∈ (Finset.range n).erase tpri, (l i).length :=
    sum_congr rfl fun i mem_i => by rw [update_of_ne (mem_erase.1 mem_i).1]
  rw [same]
  omega

namespace Held

variable (held : Held thread dp l)
include held

theorem getElem? (at_i : dp.q[tpri]? = some dq) : tpri < dp.npri := by
  rw [← held.q_length]
  exact (List.getElem?_eq_some_iff.1 at_i).1

theorem inside (lt : tpri < dp.npri) : tpri / 32 < dp.qactmap.length := by
  rw [held.map_length]
  exact Nat.lt_succ_of_le (Nat.div_le_div_right lt.le)

theorem sum_pos (some_at : l tpri ≠ []) : 0 < dp.nrunnable := by
  have lt : tpri < dp.npri := by
    by_contra beyond
    exact some_at (held.outside tpri (not_lt.1 beyond))
  have pos := length_pos_iff.2 some_at
  rw [held.nrunnable, ← add_sum_erase _ _ (mem_range.2 lt)]
  omega

/-- The lists do not change, and neither do the links and bindings of the threads on them. -/
theorem congr (same : ∀ i, ∀ u ∈ l i, (thread' u).link = (thread u).link ∧
    (thread' u).boundCpu = (thread u).boundCpu) : Held thread' dp l :=
  { held with
    level := fun i dq at_i => (held.level i dq at_i).congr fun u mem => (same i u mem).1
    unbound := fun i u mem free => held.unbound i u mem ((same i u mem).2 ▸ free) }

end Held

/-! ### Putting a thread on -/

/-- How a queue changes when a thread is put on. -/
structure Put (dp dp' : DispT) (tpri : ℕ) (bound : Option ℕ) (dq' : Dispq) : Prop where
  npri_eq : dp'.npri = dp.npri
  q_eq : dp'.q = dp.q.set tpri dq'
  map_length : dp'.qactmap.length = dp.qactmap.length
  bits : ∀ i, bitAt dp'.qactmap i = (decide (i = tpri) || bitAt dp.qactmap i)
  nrunnable_eq : dp'.nrunnable = dp.nrunnable + 1
  maxrunpri_eq : dp'.maxrunpri = max dp.maxrunpri tpri
  unbound : bound = none → (tpri : ℤ) ≤ dp'.maxUnboundPri
  mono : dp.maxUnboundPri ≤ dp'.maxUnboundPri
  unbound_le : dp'.maxUnboundPri ≤ max dp.maxUnboundPri tpri

theorem getElem?_set_level {q : List Dispq} {i : ℕ} (at_i : (q.set tpri dq')[i]? = some dq) :
    (i = tpri ∧ dq = dq') ∨ (i ≠ tpri ∧ q[i]? = some dq) := by
  rw [getElem?_set] at at_i
  split_ifs at at_i with eq lt
  · exact .inl ⟨eq.symm, (Option.some.inj at_i).symm⟩
  · exact .inr ⟨fun same => eq same.symm, at_i⟩

theorem Held.put (held : Held thread dp l) (put : Put dp dp' tpri bound dq') (lt : tpri < dp.npri)
    (level : Level thread' dq' l') (members : ∀ u, u ∈ l' ↔ u = t ∨ u ∈ l tpri)
    (longer : l'.length = (l tpri).length + 1)
    (others : ∀ i, i ≠ tpri → ∀ u ∈ l i, (thread' u).link = (thread u).link)
    (bounds : ∀ i, ∀ u ∈ l i, (thread' u).boundCpu = (thread u).boundCpu)
    (bound_t : (thread' t).boundCpu = bound) : Held thread' dp' (update l tpri l') := by
  have some_at : l' ≠ [] := ne_nil_of_length_pos (by omega)
  have active : ∀ i, update l tpri l' i ≠ [] ↔ i = tpri ∨ l i ≠ [] := fun i => by
    by_cases eq : i = tpri
    · subst eq
      simp [some_at]
    · rw [update_of_ne eq]
      simp [eq]
  refine ⟨?_, ?_, fun i dq at_i => ?_, fun i beyond => ?_, fun i => ?_, ?_, ?_,
    fun i u mem free => ?_, ?_, ?_⟩
  · rw [put.q_eq, put.npri_eq, length_set, held.q_length]
  · rw [put.map_length, put.npri_eq, held.map_length]
  · rw [put.q_eq] at at_i
    rcases getElem?_set_level at_i with ⟨rfl, rfl⟩ | ⟨ne, at_i⟩
    · rwa [update_self]
    · rw [update_of_ne ne]
      exact (held.level i dq at_i).congr (others i ne)
  · rw [put.npri_eq] at beyond
    rw [update_of_ne (by omega)]
    exact held.outside i beyond
  · rw [put.bits, active, or_eq_true, decide_eq_true_iff, held.active]
  · have sum := @sum_update l l' tpri dp.npri lt
    rw [put.nrunnable_eq, put.npri_eq, held.nrunnable]
    omega
  · rw [put.maxrunpri_eq]
    exact (held.maxrunpri.insert tpri).congr active
  · have mono := put.mono
    by_cases eq : i = tpri
    · subst eq
      rw [update_self, members] at mem
      rcases mem with rfl | mem
      · exact put.unbound (bound_t ▸ free)
      · exact (held.unbound i u mem (bounds i u mem ▸ free)).trans mono
    · rw [update_of_ne eq] at mem
      exact (held.unbound i u mem (bounds i u mem ▸ free)).trans mono
  · rw [put.maxrunpri_eq]
    have le := put.unbound_le
    have le' := held.unbound_le
    omega
  · exact held.neg_one_le.trans put.mono

/-! ### Taking a thread off -/

/-- How a queue changes when a thread is taken off. -/
structure Taken (dp dp' : DispT) (tpri : ℕ) (dq' : Dispq) : Prop where
  npri_eq : dp'.npri = dp.npri
  q_eq : dp'.q = dp.q.set tpri dq'
  map_length : dp'.qactmap.length = dp.qactmap.length
  bits : ∀ i, bitAt dp'.qactmap i =
    (bitAt dp.qactmap i && !(decide (i = tpri) && decide (dq'.sruncnt = 0)))
  nrunnable_eq : dp.nrunnable = dp'.nrunnable + 1
  maxrunpri : IsHighest (fun i => bitAt dp'.qactmap i = true) dp'.maxrunpri
  unbound_eq : dp'.maxUnboundPri = min dp.maxUnboundPri dp'.maxrunpri

theorem Held.taken (held : Held thread dp l) (taken : Taken dp dp' tpri dq') (lt : tpri < dp.npri)
    (level : Level thread' dq' l') (members : ∀ u ∈ l', u ∈ l tpri)
    (shorter : (l tpri).length = l'.length + 1)
    (others : ∀ i, i ≠ tpri → ∀ u ∈ l i, (thread' u).link = (thread u).link)
    (bounds : ∀ i, ∀ u ∈ update l tpri l' i, (thread' u).boundCpu = (thread u).boundCpu) :
    Held thread' dp' (update l tpri l') := by
  have active : ∀ i, bitAt dp'.qactmap i = true ↔ update l tpri l' i ≠ [] := fun i => by
    rw [taken.bits, and_eq_true, held.active]
    by_cases eq : i = tpri
    · subst eq
      have some_at : l i ≠ [] := ne_nil_of_length_pos (by omega)
      rw [update_self, level.sruncnt_eq]
      simp [some_at]
    · rw [update_of_ne eq]
      simp [eq]
  have maxrunpri : IsHighest (fun i => update l tpri l' i ≠ []) dp'.maxrunpri :=
    taken.maxrunpri.congr fun i => (active i).symm
  refine ⟨?_, ?_, fun i dq at_i => ?_, fun i beyond => ?_, active, ?_, maxrunpri,
    fun i u mem free => ?_, ?_, ?_⟩
  · rw [taken.q_eq, taken.npri_eq, length_set, held.q_length]
  · rw [taken.map_length, taken.npri_eq, held.map_length]
  · rw [taken.q_eq] at at_i
    rcases getElem?_set_level at_i with ⟨rfl, rfl⟩ | ⟨ne, at_i⟩
    · rwa [update_self]
    · rw [update_of_ne ne]
      exact (held.level i dq at_i).congr (others i ne)
  · rw [taken.npri_eq] at beyond
    rw [update_of_ne (by omega)]
    exact held.outside i beyond
  · have sum := @sum_update l l' tpri dp.npri lt
    have before := held.nrunnable
    have after := taken.nrunnable_eq
    rw [taken.npri_eq]
    omega
  · have le_unbound : (i : ℤ) ≤ dp.maxUnboundPri := by
      rw [bounds i u mem] at free
      by_cases eq : i = tpri
      · subst eq
        rw [update_self] at mem
        exact held.unbound i u (members u mem) free
      · rw [update_of_ne eq] at mem
        exact held.unbound i u mem free
    have le_max := maxrunpri.le (ne_nil_of_mem mem)
    rw [taken.unbound_eq]
    exact le_min le_unbound le_max
  · rw [taken.unbound_eq]
    exact min_le_right _ _
  · rw [taken.unbound_eq]
    exact le_min held.neg_one_le maxrunpri.neg_one_le

/-! ### The summary of a queue -/

theorem length_btOff (map : List (BitVec 32)) (i : ℕ) : (btOff map i).length = map.length :=
  length_modify ..

theorem length_btSet (map : List (BitVec 32)) (i : ℕ) : (btSet map i).length = map.length :=
  length_modify ..

section

variable (held : Held thread dp l) (lt : tpri < dp.npri)

include held lt

theorem Held.bitAt_btSet (i : ℕ) :
    bitAt (btSet dp.qactmap tpri) i = (decide (i = tpri) || bitAt dp.qactmap i) :=
  bitAt_or (by decide) (held.inside lt) i

theorem Held.bitAt_btOff (i : ℕ) :
    bitAt (btOff dp.qactmap tpri) i = (!decide (i = tpri) && bitAt dp.qactmap i) :=
  bitAt_and_not (by decide) (held.inside lt) i

theorem Held.highest_btOff (max_eq : dp.maxrunpri = tpri) :
    IsHighest (fun i => bitAt (btOff dp.qactmap tpri) i = true)
      (btGethighbit (btOff dp.qactmap tpri) (tpri / 32)) := by
  refine (btGethighbit_highest _ _).congr fun i => ⟨fun set => ⟨?_, set⟩, And.right⟩
  rw [held.bitAt_btOff lt, and_eq_true, held.active] at set
  have le := held.maxrunpri.le set.2
  omega

theorem Held.no_other (some_at : l tpri ≠ []) (one : dp.nrunnable = 1) {i : ℕ} (ne : i ≠ tpri) :
    l i = [] := by
  by_contra some_i
  have i_lt : i < dp.npri := by
    by_contra beyond
    exact some_i (held.outside i (not_lt.1 beyond))
  have sum := held.nrunnable
  rw [← add_sum_erase _ _ (mem_range.2 lt),
    ← add_sum_erase _ _ (mem_erase.2 ⟨ne, mem_range.2 i_lt⟩)] at sum
  have pos := length_pos_iff.2 some_at
  have pos_i := length_pos_iff.2 some_i
  omega

theorem Held.highest_of_clear (some_at : l tpri ≠ []) (one : dp.nrunnable = 1) :
    IsHighest (fun i => bitAt (btOff dp.qactmap tpri) i = true) (-1) := by
  refine .inl ⟨rfl, fun i (set : bitAt (btOff dp.qactmap tpri) i = true) => ?_⟩
  rw [held.bitAt_btOff lt, and_eq_true, held.active, not_eq_true',
    decide_eq_false_iff_not] at set
  exact set.2 (held.no_other lt some_at one set.1)

end

theorem min_neg_one {a : ℤ} (le : -1 ≤ a) : (-1 : ℤ) = min a (-1) := by omega

theorem ite_lt_eq_min {a b : ℤ} : (if b < a then b else a) = min a b := by
  split_ifs <;> omega

/-- `dispdeq` changes the summary of a queue as it should. -/
theorem Held.dispdeq_taken (held : Held thread dp l) (at_tpri : dp.q[tpri]? = some dq)
    (some_at : l tpri ≠ []) (dp' : DispT)
    (dp'_eq : dp' = { dp with nrunnable := dp.nrunnable - 1, q := dp.q.set tpri dq' })
    (count : dq'.sruncnt = dq.sruncnt - 1) :
    Taken dp (if dq.sruncnt - 1 = 0 then emptied dp' tpri else dp') tpri dq' := by
  have lt := held.getElem? at_tpri
  have pos := held.sum_pos some_at
  have level := held.level tpri dq at_tpri
  have unbound_le := held.unbound_le
  by_cases zero : dq.sruncnt - 1 = 0
  · rw [if_pos zero, emptied]
    have bits : ∀ i, bitAt (btOff dp.qactmap tpri) i =
        (bitAt dp.qactmap i && !(decide (i = tpri) && decide (dq'.sruncnt = 0))) := fun i => by
      rw [held.bitAt_btOff lt, count, decide_eq_true zero, Bool.and_true, Bool.and_comm]
    have map_eq : dp'.qactmap = dp.qactmap := by rw [dp'_eq]
    have max_eq : dp'.maxrunpri = dp.maxrunpri := by rw [dp'_eq]
    have unbound_eq : dp'.maxUnboundPri = dp.maxUnboundPri := by rw [dp'_eq]
    have count_eq : dp'.nrunnable = dp.nrunnable - 1 := by rw [dp'_eq]
    have q_eq : dp'.q = dp.q.set tpri dq' := by rw [dp'_eq]
    have npri_eq : dp'.npri = dp.npri := by rw [dp'_eq]
    have fewer : dp.nrunnable = dp'.nrunnable + 1 := by omega
    rw [map_eq, max_eq, unbound_eq]
    dsimp only
    by_cases none : dp'.nrunnable = 0
    · rw [if_pos none]
      exact ⟨npri_eq, q_eq, length_btOff _ _, bits, fewer,
        held.highest_of_clear lt some_at (by omega),
        min_neg_one held.neg_one_le⟩
    rw [if_neg none]
    by_cases top : (tpri : ℤ) = dp.maxrunpri
    · rw [if_pos top]
      refine ⟨npri_eq, q_eq, length_btOff _ _, bits, fewer, held.highest_btOff lt top.symm, ?_⟩
      exact ite_lt_eq_min
    · rw [if_neg top]
      refine ⟨npri_eq, q_eq, length_btOff _ _, bits, fewer, ?_, ?_⟩
      · change IsHighest _ dp.maxrunpri
        rcases held.maxrunpri with ⟨eq, none_at⟩ | ⟨k, eq, holds, above⟩
        · exact absurd (none_at tpri) (not_not.2 some_at)
        · refine .inr ⟨k, eq, ?_, fun i i_lt => ?_⟩
          · have ne : k ≠ tpri := fun same => top (by rw [eq, same])
            change bitAt (btOff dp.qactmap tpri) k = true
            rw [held.bitAt_btOff lt, decide_eq_false ne, Bool.not_false, Bool.true_and, held.active]
            exact holds
          · change ¬ bitAt (btOff dp.qactmap tpri) i = true
            rw [held.bitAt_btOff lt, and_eq_true, held.active]
            exact fun set => above i i_lt set.2
      · exact (min_eq_left unbound_le).symm
  · rw [if_neg zero, dp'_eq]
    refine ⟨rfl, rfl, rfl, fun i => ?_, by dsimp only; omega, ?_, (min_eq_left unbound_le).symm⟩
    · rw [count, decide_eq_false zero, Bool.and_false, Bool.not_false, Bool.and_true]
    · exact held.maxrunpri.congr held.active

/-- So does `disp`, for the first thread of the highest level. -/
theorem Held.disp_taken (held : Held thread dp l) (at_tpri : dp.q[tpri]? = some dq)
    (top : dp.maxrunpri = tpri)
    (count : dq'.sruncnt = 0) (dp' : DispT)
    (dp'_eq : dp' = { dp with
      nrunnable := dp.nrunnable - 1
      q := dp.q.set tpri dq'
      qactmap := btOff dp.qactmap tpri
      maxrunpri := if dp.nrunnable - 1 = 0 then -1 else
        btGethighbit (btOff dp.qactmap tpri) (tpri / 32)
      maxUnboundPri := if dp.nrunnable - 1 = 0 then -1
        else
          if (if dp.nrunnable - 1 = 0 then -1 else
            btGethighbit (btOff dp.qactmap tpri) (tpri / 32)) < dp.maxUnboundPri then
            if dp.nrunnable - 1 = 0 then -1 else btGethighbit (btOff dp.qactmap tpri) (tpri / 32)
          else dp.maxUnboundPri }) : Taken dp dp' tpri dq' := by
  have lt := held.getElem? at_tpri
  have some_at : l tpri ≠ [] := (top ▸ held.maxrunpri).holds
  have pos := held.sum_pos some_at
  rw [dp'_eq]
  refine ⟨rfl, rfl, length_btOff _ _, fun i => ?_, by dsimp only; omega, ?_, ?_⟩
  · rw [held.bitAt_btOff lt, count, decide_eq_true rfl, Bool.and_true, Bool.and_comm]
  · dsimp only
    split_ifs with none
    · exact held.highest_of_clear lt some_at (by omega)
    · exact held.highest_btOff lt top
  · dsimp only
    split_ifs with none lower
    · exact min_neg_one held.neg_one_le
    · omega
    · omega

end Sol25.Disp
