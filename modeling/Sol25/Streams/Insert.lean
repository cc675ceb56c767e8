import Sol25.Streams.Flush

/-!
# Inserting messages

`insq` puts a message in front of another one or at the end of the queue, if the bands stay in order
as far as it looks.  The ends of the band of the message are moved without a look at the messages
behind it.
-/

namespace Sol25.Streams
namespace Queue

open List Option Function Bool Nat

variable {q q' : Queue} {cells front back todo : List ℕ} {x mp grant : ℕ} {emp : Option ℕ}
  {calls : List Call}
  {pri : Fin 256}

/-- A high priority message is forced into band 0. -/
def forceBand (q : Queue) (mp : ℕ) : Queue :=
  let m := q.msg mp
  if queclass m = qpctl then { q with msg := update q.msg mp { m with band := 0 } } else q

/-- The place is not in the order of the bands. -/
def badord (q : Queue) (emp : Option ℕ) (mp : ℕ) : Bool :=
  let m := q.msg mp
  match emp with
  | some emp =>
    let behind (test : Msg → Bool) := (q.links.prev emp).any fun prev =>
      decide ((q.msg prev).type.val < qpctl) && test (q.msg prev)
    (decide (queclass m = qpctl) && behind fun _ => true) ||
      (decide (queclass m = qnorm) && decide (m.band < (q.msg emp).band)) ||
      behind fun prev => decide (prev.band < m.band)
  | none =>
    q.links.last.any fun tmp => decide (queclass m = qnorm) && decide ((q.msg tmp).band < m.band)

/-- The ends of the band when a message has been put in front of `emp`. -/
def insqEnds (q : Queue) (emp : Option ℕ) (mp : ℕ) (qb : Qband) : Qband :=
  if qb.first = none then { qb with first := some mp, last := some mp }
  else if qb.first = emp then { qb with first := some mp }
  else if emp.any fun next => decide ((q.msg next).band ≠ (q.msg mp).band) then
    { qb with last := some mp }
  else qb

/-- The neighbours of a message in front of `emp`. -/
def insqPlace (q : Queue) : Option ℕ → Option ℕ × Option ℕ
  | some emp => (q.links.prev emp, some emp)
  | none => (q.links.last, none)

/-- `insq`, with memory for `grant` more bands.  It returns whether the message was accepted. -/
def insq (grant : ℕ) (q : Queue) (emp : Option ℕ) (mp : ℕ) : Bool × Queue × List Call :=
  let q := q.forceBand mp
  if q.badord emp mp then (false, q, [])
  else
    let more := (q.msg mp).band.val - q.nband
    let q := { q with bands := q.bands ++ List.replicate (min more grant) q.allocband }
    if grant < more then (false, q, [])
    else
      (true, q.enlist mp (q.insqPlace emp) (q.insqEnds emp mp), if !q.noenb && q.wantr then
        [.qenable] else [])

/-- The message is not of high priority. -/
def Normal (q : Queue) (x : ℕ) : Prop := ¬ qpctl ≤ (q.msg x).type.val

/-- The ends and the counts of the bands are exact, and the bands of the messages that are not of
high priority never rise. -/
structure Exact (q : Queue) (cells : List ℕ) : Prop extends Booked q cells where
  falls : cells.Pairwise fun x y => q.Normal x → q.Normal y → (q.msg y).band ≤ (q.msg x).band

/-! ### Accepted messages -/

theorem forceBand_eq_checkBand
    (more : (((q.forceBand mp).msg mp).band.val - (q.forceBand mp).nband) ≤ grant) :
    { q.forceBand mp with
      bands := (q.forceBand mp).bands ++
        List.replicate (min (((q.forceBand mp).msg mp).band.val - (q.forceBand mp).nband) grant)
          (q.forceBand mp).allocband } = q.checkBand mp := by
  rw [Nat.min_eq_left more, forceBand, checkBand]
  dsimp only
  by_cases pctl : queclass (q.msg mp) = qpctl
  · rw [if_pos pctl, if_pos pctl]
    dsimp only
    rw [update_self]
    simp
  · rw [if_neg pctl, if_neg pctl]

/-- What an accepted message leaves behind. -/
theorem insq_accepted (accepted : q.insq grant emp mp = (true, q', calls)) :
    (q.forceBand mp).badord emp mp = false ∧
      q' = (q.checkBand mp).enlist mp (q.insqPlace emp) ((q.checkBand mp).insqEnds emp mp) := by
  rw [insq] at accepted
  dsimp only at accepted
  by_cases bad : (q.forceBand mp).badord emp mp = true
  · rw [if_pos bad] at accepted
    exact nomatch accepted
  rw [if_neg bad] at accepted
  by_cases short : grant < ((q.forceBand mp).msg mp).band.val - (q.forceBand mp).nband
  · rw [if_pos short] at accepted
    exact nomatch accepted
  rw [if_neg short] at accepted
  obtain ⟨-, rest⟩ := Prod.mk.inj accepted
  obtain ⟨eq, -⟩ := Prod.mk.inj rest
  rw [forceBand_eq_checkBand (Nat.le_of_not_lt short)] at eq
  have place : (q.checkBand mp).insqPlace emp = q.insqPlace emp := by
    cases emp <;> simp [insqPlace]
  rw [place] at eq
  exact ⟨eq_false_iff.2 bad, eq.symm⟩

/-! ### Flushing a band -/

/-- The message is not of the band that is flushed. -/
def spared (q : Queue) (pri : Fin 256) (x : ℕ) : Bool := decide ((q.msg x).band ≠ pri)

/-- A message of a band other than 0 is taken off. -/
theorem rmvq_linked (linked : q.links.Holds (front ++ x :: back)) (named : (q.msg x).band ≠ 0)
    (banded : (q.msg x).band.val ≤ q.nband) : ∃ q' calls, q.rmvq x = some (q', calls) ∧
      q'.links.Holds (front ++ back) ∧ q'.msg = q.msg ∧ q'.nband = q.nband := by
  obtain ⟨prev, next⟩ := linked.neighbours
  have positive : 0 < (q.msg x).band.val := Nat.pos_of_ne_zero fun same => named (Fin.ext same)
  obtain ⟨qb, is_band⟩ : ∃ qb, q.bands[(q.msg x).band.val - 1]? = some qb := by
    rw [nband] at banded
    exact ⟨_, getElem?_eq_getElem (by omega)⟩
  rw [rmvq]
  dsimp only
  rw [if_neg named, is_band]
  refine ⟨_, _, rfl, ?_⟩
  obtain ⟨msg, -, links, nband_eq⟩ := handoff_fields
    ({ q with links := q.links.unlink (q.links.prev x) x (q.links.next x) }.setBand
        (q.msg x).band.val fun old =>
      { first := if old.first = some x then q.within (q.msg x).band (q.links.next x) else old.first
        last := if old.last = some x then q.within (q.msg x).band (q.links.prev x) else old.last
        flow := qb.flow.sub (q.msg x).size }) (q.msg x).band.val qb.wants false
          (qb.flow.sub (q.msg x).size).low
  refine ⟨?_, msg, nband_eq.trans (nband_setBand ..)⟩
  have unlinked := linked.unlink
  rw [← prev, ← next] at unlinked
  exact (congrArg (fun links => Doubly.Holds links (front ++ back)) links).mpr unlinked

theorem flushOne_linked (linked : q.links.Holds (front ++ x :: back)) (nonzero : pri ≠ 0)
    (banded : (q.msg x).band.val ≤ q.nband) :
    ∃ q' calls, q.flushOne pri true x = some (q', calls) ∧
      q'.links.Holds (front ++ [x].filter (q.spared pri) ++ back) ∧ q'.msg = q.msg ∧
        q'.nband = q.nband := by
  rw [flushOne]
  by_cases flushed : (q.msg x).band = pri
  · obtain ⟨q', calls, removes, linked', msg, nband_eq⟩ :=
      rmvq_linked linked (flushed ▸ nonzero) banded
    refine ⟨q', calls, ?_, ?_, msg, nband_eq⟩
    · rw [if_pos ⟨flushed, rfl⟩, removes]
    · rw [filter_cons_of_neg (by simp [spared, flushed])]
      simpa using linked'
  · refine ⟨q, [], ?_, ?_, rfl, rfl⟩
    · rw [if_neg fun both => flushed both.1]
    · rw [filter_cons_of_pos (by simp [spared, flushed])]
      simpa using linked

/-- The loop of `flushband` from one message up to another. -/
theorem flushLoop_linked (linked : q.links.Holds (front ++ todo ++ back)) (nonempty : todo ≠ [])
    (nonzero : pri ≠ 0) (banded : ∀ x ∈ todo, (q.msg x).band.val ≤ q.nband) {fuel : ℕ}
    (enough : todo.length ≤ fuel) :
    ∃ q' calls, flushLoop pri true todo.getLast? fuel q todo.head? = some (q', calls) ∧
      q'.links.Holds (front ++ todo.filter (q.spared pri) ++ back) := by
  induction todo generalizing q front fuel with
  | nil => exact absurd rfl nonempty
  | cons x rest ih =>
    obtain ⟨fuel, rfl⟩ := exists_eq_succ_of_ne_zero (Nat.ne_zero_of_lt enough)
    have around : q.links.Holds (front ++ x :: (rest ++ back)) := by simpa using linked
    obtain ⟨q₁, calls₁, flushes, linked₁, msg, nband_eq⟩ :=
      flushOne_linked around nonzero (banded x mem_cons_self)
    cases rest with
    | nil =>
      refine ⟨q₁, calls₁, (flushLoop_stop fuel q (some x)).trans flushes, ?_⟩
      simpa using linked₁
    | cons y ys =>
      have next := around.neighbours.2
      have distinct := (nodup_cons.1 (nodup_append.1 around.nodup).2.1).1
      have ne : some x ≠ (x :: y :: ys).getLast? := by
        rw [getLast?_cons_cons]
        intro same
        exact distinct (mem_append_left _ (mem_of_getLast? same.symm))
      have linked₁' : q₁.links.Holds
          ((front ++ [x].filter (q.spared pri)) ++ (y :: ys) ++ back) := by
        simpa using linked₁
      obtain ⟨q₂, calls₂, loops, linked₂⟩ := ih linked₁' (cons_ne_nil y ys) (fun z member => by
          rw [msg, nband_eq]
          exact banded z (mem_cons_of_mem x member)) (le_of_succ_le_succ enough)
      refine ⟨q₂, calls₁ ++ calls₂, ?_, ?_⟩
      · rw [head?_cons, flushLoop_step ne, flushes]
        dsimp only
        rw [next, cons_append, head?_cons, getLast?_cons_cons]
        rw [head?_cons] at loops
        rw [loops]
        rfl
      · have same : q₁.spared pri = q.spared pri := by
          funext z
          rw [spared, spared, msg]
        rw [same] at linked₂
        have split : (x :: y :: ys).filter (q.spared pri) =
            [x].filter (q.spared pri) ++ (y :: ys).filter (q.spared pri) := by
          rw [← filter_append, singleton_append]
        rw [split]
        simpa using linked₂

theorem filter_ends {α : Type*} {p : α → Bool} {l rest : List α} {x : α}
    (found : l.filter p = x :: rest) :
    (∃ front back, l = front ++ x :: back ∧ rest = [] ∧ front.filter p = [] ∧ back.filter p = []) ∨
      ∃ front middle z back, l = front ++ (x :: middle ++ [z]) ++ back ∧ rest.getLast? = some z ∧
        front.filter p = [] ∧ back.filter p = [] := by
  obtain ⟨front, behind, rfl, none_in_front, -, rest_eq⟩ := filter_eq_cons_iff.1 found
  have front_nil : front.filter p = [] := filter_eq_nil_iff.2 none_in_front
  rcases eq_nil_or_concat rest with rfl | ⟨before, z, rfl⟩
  · exact .inl ⟨front, behind, rfl, rfl, front_nil, rest_eq⟩
  · rw [concat_eq_append] at rest_eq ⊢
    obtain ⟨first, second, rfl, -, second_eq⟩ := filter_eq_append_iff.1 rest_eq
    obtain ⟨middle, back, rfl, -, -, back_nil⟩ := filter_eq_cons_iff.1 second_eq
    exact .inr ⟨front, first ++ middle, z, back, by simp, by simp, front_nil, back_nil⟩

theorem filter_spared (nil : cells.filter (q.inBand pri.val) = []) :
    cells.filter (q.spared pri) = cells := by
  refine filter_eq_self.2 fun x member => ?_
  have outside := filter_eq_nil_iff.1 nil x member
  rw [inBand, decide_eq_true_eq] at outside
  rw [spared, decide_eq_true_eq]
  exact fun same => outside (congrArg Fin.val same)

/-- Where the ends of the band are exact, `flushband` with `FLUSHALL` takes all of its messages
off. -/
theorem Booked.flushband (booked : Booked q cells) (nonzero : pri ≠ 0) :
    ∃ q' calls, q.flushband pri true = some (q', calls) ∧
      q'.links.Holds (cells.filter (q.spared pri)) := by
  have positive : 0 < pri.val := Nat.pos_of_ne_zero fun same => nonzero (Fin.ext same)
  have index : pri.val - 1 + 1 = pri.val := by omega
  have length_le : cells.length ≤ q.made := by
    have subset : cells ⊆ List.range q.made := fun x member => mem_range.2 (booked.made x member)
    simpa using (booked.linked.nodup.subperm subset).length_le
  by_cases missing : q.nband < pri.val
  · have nil : cells.filter (q.inBand pri.val) = [] := by
      rw [filter_eq_nil_iff]
      intro x member inside
      have small := booked.banded x member
      rw [inBand, decide_eq_true_eq] at inside
      omega
    refine ⟨q, [], ?_, ?_⟩
    · rw [Queue.flushband, if_pos missing]
    · rw [filter_spared nil]
      exact booked.linked
  obtain ⟨qb, is_band⟩ : ∃ qb, q.bands[pri.val - 1]? = some qb := by
    rw [nband] at missing
    exact ⟨_, getElem?_eq_getElem (by omega)⟩
  have first := booked.first _ _ is_band
  have last := booked.last _ _ is_band
  rw [index, members] at first last
  rw [Queue.flushband, if_neg missing, if_neg nonzero, is_band]
  dsimp only
  cases found : cells.filter (q.inBand pri.val) with
  | nil =>
    rw [found, head?_nil] at first
    rw [first, filter_spared found]
    exact ⟨q, [], rfl, booked.linked⟩
  | cons x rest =>
    rw [found, head?_cons] at first
    rw [found] at last
    rw [first]
    dsimp only
    rcases filter_ends found with ⟨front, back, rfl, rfl, front_nil, back_nil⟩ |
      ⟨front, middle, z, back, rfl, rest_last, front_nil, back_nil⟩
    · have next := booked.linked.neighbours.2
      have distinct := (nodup_cons.1 (nodup_append.1 booked.linked.nodup).2.1).1
      obtain ⟨q', calls, flushes, linked', msg, -⟩ :=
        flushOne_linked booked.linked nonzero (booked.banded x (by simp))
      rw [getLast?_singleton] at last
      have ne : some x ≠ back.head? := fun same => distinct (mem_of_head? same.symm)
      obtain ⟨fuel, made_eq⟩ : ∃ fuel, q.made + 1 = fuel + 2 := by
        rw [length_append, length_cons] at length_le
        exact ⟨q.made - 1, by omega⟩
      have result : (front ++ x :: back).filter (q.spared pri) =
          front ++ [x].filter (q.spared pri) ++ back := by
        rw [← singleton_append, filter_append, filter_append,
          filter_spared front_nil, filter_spared back_nil, append_assoc]
      rw [if_pos last, made_eq, next, flushLoop_step ne, flushes, next, result]
      dsimp only
      rw [flushLoop_stop]
      cases head : back.head? with
      | none => exact ⟨q', _, rfl, linked'⟩
      | some y =>
        have outside := filter_eq_nil_iff.1 back_nil y (mem_of_head? head)
        have unflushed : ¬ ((q'.msg y).band = pri ∧ (true || datamsg (q'.msg y).type) = true) := by
          rw [msg]
          rintro ⟨same, -⟩
          exact outside (decide_eq_true (congrArg Fin.val same))
        have unchanged : q'.flushOne pri true y = some (q', []) := if_neg unflushed
        dsimp only
        rw [unchanged]
        exact ⟨q', _, rfl, linked'⟩
    · have ends : rest ≠ [] := fun nil => by simp [nil] at rest_last
      have last : qb.last = (x :: middle ++ [z]).getLast? := by
        obtain ⟨y, ys, rfl⟩ := exists_cons_of_ne_nil ends
        rw [last, getLast?_cons_cons, rest_last, getLast?_concat]
      have distinct : x ≠ z := by
        rintro rfl
        have nodup := (nodup_append.1 (nodup_append.1 booked.linked.nodup).1).2.1
        rw [cons_append, nodup_cons] at nodup
        exact nodup.1 (by simp)
      have ne : qb.last ≠ some x := by
        rw [last, getLast?_concat]
        exact fun same => distinct (some.inj same).symm
      have banded : ∀ y ∈ x :: middle ++ [z], (q.msg y).band.val ≤ q.nband := fun y member =>
        booked.banded y (mem_append_left _ (mem_append_right _ member))
      have enough : (x :: middle ++ [z]).length ≤ q.made + 1 := by
        rw [length_append, length_append] at length_le
        omega
      obtain ⟨q', calls, loops, linked'⟩ :=
        flushLoop_linked booked.linked (by simp) nonzero banded enough
      refine ⟨q', calls, ?_, ?_⟩
      · rw [if_neg ne, last]
        exact loops
      · rw [filter_append, filter_append, filter_spared front_nil, filter_spared back_nil]
        exact linked'

/-! ### The order and the ends after an insertion -/

/-- What is expected of the queue when `insq` has put a message on it: the bookkeeping is exact, and
a flush of a band takes all of its messages off. -/
structure InsqLaw (q : Queue) (cells : List ℕ) : Prop where
  exact : q.Exact cells
  flush : ∀ pri : Fin 256, pri ≠ 0 → ∃ q' calls, q.flushband pri true = some (q', calls) ∧
    q'.links.Holds (cells.filter (q.spared pri))

/-- A message of high priority, or one for which the place is right.  Next to a message of high
priority, none on the other side of that breaks the order of the bands.  Unless its band is empty,
it is in front of a message of the band, or of another one behind which there is no message of the
band. -/
def InsqProper (q : Queue) (front back : List ℕ) (mp : ℕ) : Prop :=
  q.Normal mp →
    (∀ prev, front.getLast? = some prev → ¬ q.Normal prev →
      ∀ x ∈ front, q.Normal x → (q.msg mp).band ≤ (q.msg x).band) ∧
    (∀ emp, back.head? = some emp → ¬ q.Normal emp →
      ∀ x ∈ back, q.Normal x → (q.msg x).band ≤ (q.msg mp).band) ∧
    ((q.msg mp).band ≠ 0 →
      q.members (q.msg mp).band.val (front ++ back) = [] ∨
      (∃ emp, back.head? = some emp ∧ (q.msg emp).band = (q.msg mp).band) ∨
      back ≠ [] ∧ q.members (q.msg mp).band.val back = [])

/-- The neighbours of an accepted message are in order with it, if they are not of high priority. -/
theorem badord_false (exact : q.Exact (front ++ back)) (normal : q.Normal mp)
    (good : (q.forceBand mp).badord back.head? mp = false) :
    (∀ prev, front.getLast? = some prev → q.Normal prev → (q.msg mp).band ≤ (q.msg prev).band) ∧
      ∀ emp, back.head? = some emp → q.Normal emp → (q.msg emp).band ≤ (q.msg mp).band := by
  have class_eq : queclass (q.msg mp) = qnorm := queclass_normal normal
  have same : q.forceBand mp = q := by
    rw [forceBand, class_eq]
    exact if_neg (by decide)
  rw [same] at good
  cases back with
  | nil =>
    refine ⟨fun prev is_last _ => ?_, fun emp head => nomatch head⟩
    have linked := exact.linked
    rw [append_nil] at linked
    have last : q.links.last = some prev := linked.last.trans is_last
    rw [head?_nil, badord, last] at good
    simpa [class_eq] using good
  | cons emp back =>
    have prev_eq := exact.linked.neighbours.1
    have ne : qnorm ≠ qpctl := by decide
    rw [head?_cons, badord] at good
    dsimp only at good
    rw [or_eq_false_iff, or_eq_false_iff, class_eq] at good
    obtain ⟨⟨-, at_emp⟩, at_prev⟩ := good
    refine ⟨fun prev is_last prev_normal => ?_, fun y head _ => ?_⟩
    · have below : (q.msg prev).type.val < qpctl := Nat.lt_of_not_le prev_normal
      rw [prev_eq, is_last] at at_prev
      simpa [below] using at_prev
    · obtain rfl := some.inj head
      simpa using at_emp

/-- What stands behind or in front of a message follows from its neighbours. -/
theorem Exact.above (exact : q.Exact (front ++ back)) {band : Fin 256}
    (near : ∀ prev, front.getLast? = some prev → q.Normal prev → band ≤ (q.msg prev).band)
    (far : ∀ prev, front.getLast? = some prev → ¬ q.Normal prev →
      ∀ x ∈ front, q.Normal x → band ≤ (q.msg x).band) :
    ∀ x ∈ front, q.Normal x → band ≤ (q.msg x).band := by
  intro x member normal
  obtain ⟨before, prev, rfl⟩ : ∃ before prev, front = before ++ [prev] := by
    rcases eq_nil_or_concat front with rfl | ⟨before, prev, rfl⟩
    · exact absurd member not_mem_nil
    · exact ⟨before, prev, concat_eq_append ..⟩
  have is_last : (before ++ [prev]).getLast? = some prev := getLast?_concat ..
  by_cases prev_normal : q.Normal prev
  · have ordered := near prev is_last prev_normal
    rcases mem_append.1 member with earlier | same
    · have falls := (pairwise_append.1 (pairwise_append.1 exact.falls).1).2.2
      exact Nat.le_trans ordered
        (falls x earlier prev (mem_singleton_self prev) normal prev_normal)
    · rwa [mem_singleton.1 same]
  · exact far prev is_last prev_normal x member normal

theorem Exact.below (exact : q.Exact (front ++ back)) {band : Fin 256}
    (near : ∀ emp, back.head? = some emp → q.Normal emp → (q.msg emp).band ≤ band)
    (far : ∀ emp, back.head? = some emp → ¬ q.Normal emp →
      ∀ x ∈ back, q.Normal x → (q.msg x).band ≤ band) :
    ∀ x ∈ back, q.Normal x → (q.msg x).band ≤ band := by
  intro x member normal
  cases back with
  | nil => exact absurd member not_mem_nil
  | cons emp behind =>
    by_cases emp_normal : q.Normal emp
    · have ordered := near emp rfl emp_normal
      rcases mem_cons.1 member with rfl | later
      · exact ordered
      · have falls := (pairwise_cons.1 (pairwise_append.1 exact.falls).2.1).1
        exact Nat.le_trans (falls x later emp_normal normal) ordered
    · exact far emp rfl emp_normal x member normal

/-- The ends of the band are right where the message is in place. -/
theorem insqEnds_spec {i : ℕ} {qb : Qband} (booked : Booked q (front ++ back))
    (is_band : q.bands[i]? = some qb) (here : i + 1 = (q.msg mp).band.val)
    (place : q.members (i + 1) (front ++ back) = [] ∨
      (∃ emp, back.head? = some emp ∧ (q.msg emp).band = (q.msg mp).band) ∨ back ≠ [] ∧
        q.members (i + 1) back = []) :
    (q.insqEnds back.head? mp qb).first = (q.members (i + 1) (front ++ mp :: back)).head? ∧
      (q.insqEnds back.head? mp qb).last = (q.members (i + 1) (front ++ mp :: back)).getLast? := by
  have first := booked.first i qb is_band
  have last := booked.last i qb is_band
  have inside : q.inBand (i + 1) mp = true := decide_eq_true here.symm
  have apart := (nodup_append.1 booked.linked.nodup).2.2
  rw [members_append, members_cons_pos inside]
  rw [members_append] at first last
  by_cases empty : q.members (i + 1) front ++ q.members (i + 1) back = []
  · obtain ⟨front_nil, back_nil⟩ := append_eq_nil_iff.1 empty
    rw [empty, head?_nil] at first
    rw [insqEnds, if_pos first, front_nil, back_nil]
    exact ⟨rfl, rfl⟩
  have some_first : qb.first ≠ none := by
    rw [first]
    exact fun none_first => empty (head?_eq_none_iff.1 none_first)
  rw [insqEnds, if_neg some_first]
  rcases place with nil | ⟨y, head, same⟩ | ⟨nonempty, back_nil⟩
  · rw [members_append] at nil
    exact absurd nil empty
  · obtain ⟨ys, rfl⟩ := head?_eq_some_iff.1 head
    have y_inside : q.inBand (i + 1) y = true := decide_eq_true (by rw [same, here])
    rw [members_cons_pos y_inside] at first last ⊢
    have last_eq : (q.members (i + 1) front ++ mp :: y :: q.members (i + 1) ys).getLast? =
        qb.last := by
      rw [last, getLast?_append_cons, getLast?_append_cons, getLast?_cons_cons]
    cases front_eq : q.members (i + 1) front with
    | nil =>
      rw [front_eq] at first last_eq
      have at_emp : qb.first = (y :: ys).head? := first
      rw [if_pos at_emp]
      exact ⟨rfl, last_eq.symm⟩
    | cons z zs =>
      rw [front_eq] at first last_eq
      have z_mem : z ∈ front := mem_of_mem_filter (front_eq ▸ mem_cons_self)
      have not_emp : qb.first ≠ (y :: ys).head? := by
        rw [first]
        exact fun eq => apart z z_mem y mem_cons_self (some.inj eq)
      have same_band :
          ¬ (((y :: ys).head?.any fun next => decide ((q.msg next).band ≠ (q.msg mp).band)) =
              true) := by
        simp [same]
      rw [if_neg not_emp, if_neg same_band]
      exact ⟨first, last_eq.symm⟩
  · obtain ⟨y, ys, rfl⟩ := exists_cons_of_ne_nil nonempty
    rw [back_nil, append_nil] at first empty
    have y_outside := filter_eq_nil_iff.1 back_nil y mem_cons_self
    obtain ⟨z, zs, front_eq⟩ := exists_cons_of_ne_nil empty
    rw [front_eq] at first
    have z_mem : z ∈ front := mem_of_mem_filter (front_eq ▸ mem_cons_self)
    have not_emp : qb.first ≠ (y :: ys).head? := by
      rw [first]
      exact fun eq => apart z z_mem y mem_cons_self (some.inj eq)
    have other_band :
        ((y :: ys).head?.any fun next => decide ((q.msg next).band ≠ (q.msg mp).band)) = true := by
      refine decide_eq_true fun same => y_outside ?_
      exact decide_eq_true (by rw [same, here])
    rw [if_neg not_emp, if_pos other_band, back_nil, front_eq]
    exact ⟨first, (getLast?_concat ..).symm⟩

/-- Elsewhere the last message of the band is not found. -/
theorem insqEnds_wrong {i : ℕ} {qb : Qband} (booked : Booked q (front ++ back))
    (is_band : q.bands[i]? = some qb) (here : i + 1 = (q.msg mp).band.val)
    (fresh : mp ∉ front ++ back)
    (last : (q.insqEnds back.head? mp qb).last =
      (q.members (i + 1) (front ++ mp :: back)).getLast?) :
    q.members (i + 1) (front ++ back) = [] ∨
      (∃ emp, back.head? = some emp ∧ (q.msg emp).band = (q.msg mp).band) ∨
      back ≠ [] ∧ q.members (i + 1) back = [] := by
  have first := booked.first i qb is_band
  have old_last := booked.last i qb is_band
  have inside : q.inBand (i + 1) mp = true := decide_eq_true here.symm
  by_cases empty : q.members (i + 1) (front ++ back) = []
  · exact .inl empty
  have some_first : qb.first ≠ none := by
    rw [first]
    exact fun none_first => empty (head?_eq_none_iff.1 none_first)
  rw [insqEnds, if_neg some_first] at last
  refine .inr ?_
  cases back with
  | nil =>
    have not_emp : qb.first ≠ [].head? := some_first
    have mem : mp ∈ q.members (i + 1) (front ++ []) := by
      refine mem_of_getLast? ?_
      rw [← old_last]
      rw [if_neg not_emp, if_neg (by simp)] at last
      rw [last, members_append, members_cons_pos inside]
      exact getLast?_concat ..
    exact absurd (mem_of_mem_filter mem) fresh
  | cons y ys =>
    by_cases same : (q.msg y).band = (q.msg mp).band
    · exact .inl ⟨y, rfl, same⟩
    refine .inr ⟨cons_ne_nil y ys, ?_⟩
    by_contra back_ne
    have not_emp : qb.first ≠ (y :: ys).head? := by
      rw [first]
      intro eq
      have y_mem : y ∈ q.members (i + 1) (front ++ y :: ys) := mem_of_head? eq
      have y_inside := (mem_filter.1 y_mem).2
      rw [inBand, decide_eq_true_eq] at y_inside
      exact same (Fin.ext (y_inside.trans here))
    have other_band :
        ((y :: ys).head?.any fun next => decide ((q.msg next).band ≠ (q.msg mp).band)) = true :=
      decide_eq_true same
    rw [if_neg not_emp, if_pos other_band, members_append, members_cons_pos inside,
      getLast?_append_cons] at last
    obtain ⟨z, zs, back_eq⟩ := exists_cons_of_ne_nil back_ne
    rw [back_eq, getLast?_cons_cons, ← back_eq] at last
    have mem : mp ∈ q.members (i + 1) (y :: ys) := mem_of_getLast? last.symm
    exact fresh (mem_append_right _ (mem_of_mem_filter mem))

theorem checkBand_normal (normal : q.Normal x) : (q.checkBand mp).msg x = q.msg x := by
  by_cases same : x = mp
  · subst same
    rw [checkBand_msg, if_neg normal]
  · exact msg_checkBand_ne same

theorem normal_checkBand : (q.checkBand mp).Normal x ↔ q.Normal x := by
  rw [Normal, Normal]
  by_cases same : x = mp
  · subst same
    rw [checkBand_msg]
    split <;> rfl
  · rw [msg_checkBand_ne same]

theorem insqPlace_eq (linked : q.links.Holds (front ++ back)) :
    q.insqPlace back.head? = (front.getLast?, back.head?) := by
  cases back with
  | nil =>
    rw [append_nil] at linked
    exact congrArg (·, none) linked.last
  | cons emp back => exact congrArg (·, some emp) linked.neighbours.1

/-- What putting a message onto a queue with enough bands makes of the others. -/
theorem normal_enlist_checkBand {place : Option ℕ × Option ℕ} {ends : Qband → Qband} {x : ℕ} :
    ((q.checkBand mp).enlist mp place ends).Normal x ↔ q.Normal x := by
  rw [Normal, msg_enlist]
  exact normal_checkBand

theorem band_enlist_checkBand {place : Option ℕ × Option ℕ} {ends : Qband → Qband} {x : ℕ}
    (normal : q.Normal x) :
    (((q.checkBand mp).enlist mp place ends).msg x).band = (q.msg x).band := by
  rw [msg_enlist, checkBand_normal normal]

theorem members_checkBand_of_notMem {b : ℕ} {l part : List ℕ} (fresh : mp ∉ l) (subset : part ⊆ l) :
    (q.checkBand mp).members b part = q.members b part :=
  members_congr (fun _ member => msg_checkBand_ne fun same => fresh (same.subst (subset member))) b

theorem insqProper_of_law (exact : q.Exact (front ++ back)) (fresh : mp ∉ front ++ back)
    (law : ((q.checkBand mp).enlist mp (front.getLast?, back.head?)
      ((q.checkBand mp).insqEnds back.head? mp)).InsqLaw (front ++ mp :: back)) :
    q.InsqProper front back mp := by
  intro normal
  have booked := exact.toBooked.checkBand fresh
  have in_back : back ⊆ front ++ back := fun x member => mem_append_right front member
  have in_ne : ∀ x ∈ back, x ≠ mp := fun x member same => fresh (same ▸ in_back member)
  have falls := law.exact.falls
  rw [pairwise_append, pairwise_cons] at falls
  obtain ⟨-, ⟨behind, -⟩, ahead⟩ := falls
  refine ⟨fun _ _ _ x member x_normal => ?_, fun _ _ _ x member x_normal => ?_, fun named => ?_⟩
  · have ordered := ahead x member mp mem_cons_self (normal_enlist_checkBand.2 x_normal)
      (normal_enlist_checkBand.2 normal)
    rwa [band_enlist_checkBand x_normal, band_enlist_checkBand normal] at ordered
  · have ordered := behind x member (normal_enlist_checkBand.2 normal)
      (normal_enlist_checkBand.2 x_normal)
    rwa [band_enlist_checkBand x_normal, band_enlist_checkBand normal] at ordered
  · have positive : 0 < (q.msg mp).band.val := Nat.pos_of_ne_zero fun same => named (Fin.ext same)
    have index : (q.msg mp).band.val - 1 + 1 = (q.msg mp).band.val := by omega
    have msg_eq : (q.checkBand mp).msg mp = q.msg mp := checkBand_normal normal
    have banded := q.checkBand_banded mp
    rw [msg_eq, nband] at banded
    obtain ⟨qb, is_band⟩ : ∃ qb, (q.checkBand mp).bands[(q.msg mp).band.val - 1]? = some qb :=
      ⟨_, getElem?_eq_getElem (by omega)⟩
    have here : (q.msg mp).band.val - 1 + 1 = ((q.checkBand mp).msg mp).band.val := by
      rw [msg_eq, index]
    have new_band : ((q.checkBand mp).enlist mp (front.getLast?, back.head?)
        ((q.checkBand mp).insqEnds back.head? mp)).bands[(q.msg mp).band.val - 1]? = _ :=
      (bands_enlist _).trans ((if_pos here).trans (congrArg (Option.map _) is_band))
    have last := law.exact.last _ _ new_band
    have unchanged : ∀ x ∈ front ++ mp :: back,
      ((q.checkBand mp).enlist mp (front.getLast?, back.head?)
        ((q.checkBand mp).insqEnds back.head? mp)).msg x = (q.checkBand mp).msg x :=
      fun x _ => congrFun msg_enlist x
    have place := insqEnds_wrong booked is_band here fresh
      (last.trans (congrArg List.getLast? (members_congr unchanged _)))
    rw [members_checkBand_of_notMem fresh (Subset.refl _),
      members_checkBand_of_notMem fresh in_back, index] at place
    rcases place with empty | ⟨emp, head, same⟩ | behind
    · exact .inl empty
    · rw [msg_eq, msg_checkBand_ne (in_ne emp (mem_of_head? head))] at same
      exact .inr (.inl ⟨emp, head, same⟩)
    · exact .inr (.inr behind)

theorem insqLaw_of_proper (exact : q.Exact (front ++ back)) (fresh : mp ∉ front ++ back)
    (made : mp < q.made) (good : (q.forceBand mp).badord back.head? mp = false)
    (proper : q.InsqProper front back mp) :
    ((q.checkBand mp).enlist mp (front.getLast?, back.head?)
      ((q.checkBand mp).insqEnds back.head? mp)).InsqLaw (front ++ mp :: back) := by
  have booked := exact.toBooked.checkBand fresh
  have in_back : back ⊆ front ++ back := fun x member => mem_append_right front member
  have in_ne : ∀ x ∈ back, x ≠ mp := fun x member same => fresh (same ▸ in_back member)
  have normal_of_band : ∀ i, i + 1 = ((q.checkBand mp).msg mp).band.val → q.Normal mp := by
    intro i here is_high
    rw [q.checkBand_high mp (by
      rw [checkBand_msg, if_pos is_high]
      exact is_high)] at here
    exact absurd here (succ_ne_zero i)
  have ends : ∀ i qb, i + 1 = ((q.checkBand mp).msg mp).band.val →
    (q.checkBand mp).bands[i]? = some qb →
      ((q.checkBand mp).insqEnds back.head? mp qb).first =
          ((q.checkBand mp).members (i + 1) (front ++ mp :: back)).head? ∧
        ((q.checkBand mp).insqEnds back.head? mp qb).last =
          ((q.checkBand mp).members (i + 1) (front ++ mp :: back)).getLast? := by
    intro i qb here is_band
    have normal := normal_of_band i here
    have msg_eq : (q.checkBand mp).msg mp = q.msg mp := checkBand_normal normal
    have index : i + 1 = (q.msg mp).band.val := by rw [here, msg_eq]
    have named : (q.msg mp).band ≠ 0 := by
      intro same
      rw [same] at index
      exact absurd index (succ_ne_zero i)
    refine insqEnds_spec booked is_band here ?_
    rw [members_checkBand_of_notMem fresh (Subset.refl _),
      members_checkBand_of_notMem fresh in_back, index]
    rcases (proper normal).2.2 named with empty | ⟨emp, head, same⟩ | behind
    · exact .inl empty
    · refine .inr (.inl ⟨emp, head, ?_⟩)
      rw [msg_eq, msg_checkBand_ne (in_ne emp (mem_of_head? head))]
      exact same
    · exact .inr (.inr behind)
  have booked' := booked.enlist fresh
    (by rwa [made_checkBand]) (q.checkBand_high mp) (q.checkBand_banded mp)
    (fun i qb here is_band => (ends i qb here is_band).1) fun i qb here is_band =>
      (ends i qb here is_band).2
  refine ⟨⟨booked', ?_⟩, fun pri nonzero => booked'.flushband nonzero⟩
  have above : ∀ x ∈ front, q.Normal x → q.Normal mp → (q.msg mp).band ≤ (q.msg x).band :=
    fun x member normal mp_normal =>
      exact.above (badord_false exact mp_normal good).1 (proper mp_normal).1 x member normal
  have below : ∀ x ∈ back, q.Normal mp → q.Normal x → (q.msg x).band ≤ (q.msg mp).band :=
    fun x member mp_normal normal =>
      exact.below (badord_false exact mp_normal good).2 (proper mp_normal).2.1 x member normal
  have falls := exact.falls
  rw [pairwise_append] at falls
  refine Pairwise.imp (R := fun x y => q.Normal x → q.Normal y →
    (q.msg y).band ≤ (q.msg x).band) ?_ ?_
  · intro x y ordered x_normal y_normal
    rw [normal_enlist_checkBand] at x_normal y_normal
    rw [band_enlist_checkBand x_normal, band_enlist_checkBand y_normal]
    exact ordered x_normal y_normal
  · rw [pairwise_append, pairwise_cons]
    refine ⟨falls.1, ⟨below, falls.2.1⟩, fun x in_x y in_y x_normal y_normal => ?_⟩
    rcases mem_cons.1 in_y with rfl | later
    · exact above x in_x x_normal y_normal
    · exact falls.2.2 x in_x y later x_normal y_normal

/-- A message that `insq` has accepted leaves the queue as it should be exactly if its place is
proper. -/
theorem insq_law_iff (exact : q.Exact (front ++ back)) (fresh : mp ∉ front ++ back)
    (made : mp < q.made) (accepted : q.insq grant back.head? mp = (true, q', calls)) :
    q'.InsqLaw (front ++ mp :: back) ↔ q.InsqProper front back mp := by
  obtain ⟨good, rfl⟩ := insq_accepted accepted
  rw [insqPlace_eq exact.linked]
  exact ⟨insqProper_of_law exact fresh, insqLaw_of_proper exact fresh made good⟩

/-- Two messages of band 1 are queued, and there is a third one. -/
def pair : Queue where
  msg _ := ⟨0, 1, [8], false⟩
  made := 3
  links := ⟨fun x => if x = 0 then some 1 else none, fun x => if x = 1 then some 0 else none,
    some 0, some 1⟩
  flow := .fresh 512 128
  bands := [⟨some 0, some 1, ⟨16, 512, 128, false, false⟩⟩]
  wantr := false
  wantwsync := false
  noenb := false

theorem pair_exact : pair.Exact [0, 1] := by
  refine ⟨⟨⟨by decide, by simp [Doubly.Seg, pair], rfl,
    rfl⟩, by decide, by decide, by decide, ?_, ?_, ?_⟩, ?_⟩
  · intro i qb is_band
    cases i with
    | zero =>
      obtain rfl := some.inj is_band
      decide
    | succ i => cases is_band
  · intro i qb is_band
    cases i with
    | zero =>
      obtain rfl := some.inj is_band
      decide
    | succ i => cases is_band
  · intro band f is_flow
    rcases band with _ | _ | band
    · obtain rfl := some.inj is_flow
      decide
    · obtain rfl := some.inj is_flow
      decide
    · cases is_flow
  · simp [Normal, pair]

theorem pair_normal (x : ℕ) : pair.Normal x := by simp [Normal, pair, qpctl]

/-- The third message goes before the second one. -/
theorem insq_law_pair :
    ∃ q' calls, pair.insq 0 (some 1) 2 = (true, q', calls) ∧ q'.InsqLaw [0, 2, 1] := by
  refine ⟨_, _, rfl,
    (@insq_law_iff pair _ [0] [1] 2 0 _ pair_exact (by decide) (by decide) rfl).2 ?_⟩
  intro _
  exact ⟨fun prev _ high => absurd (pair_normal prev) high,
    fun emp _ high => absurd (pair_normal emp) high,
    fun _ => .inr (.inl ⟨1, rfl, rfl⟩)⟩

/-- Behind the two messages the third one is not found by `flushband`. -/
theorem not_insq_law :
    ¬ ∀ (q : Queue) (front back : List ℕ) (mp grant : ℕ) (q' : Queue) (calls : List Call),
    q.Exact (front ++ back) → mp ∉ front ++ back → mp < q.made →
      q.insq grant back.head? mp = (true, q', calls) → q'.InsqLaw (front ++ mp :: back) := by
  intro always
  have law := always pair [0, 1] [] 2 0 _ _ pair_exact (by decide) (by decide) rfl
  have last := law.exact.last 0 _ rfl
  exact absurd last (by decide)

end Queue
end Sol25.Streams
