import Mathlib.Data.List.Perm.Basic
import Mathlib.Data.List.Nodup
import Sol25.Data.Singly
import Sol25.Disksort.Model

/-!
# One-way elevator

The queue of a disk is two runs of ascending cylinders, and all of the second one lies below the
first request. The inversion between two neighbours marks the place where the second run starts.
-/

namespace Sol25.Disksort

open Function List Option Nat

variable {dp dp' : Diskhd} {buf : ℕ → Buf} {arrived a b l pre back : List ℕ} {ap bp fuel x y : ℕ}
  {p : Option ℕ}

/-- The order within a run: by cylinder, then by arrival. -/
def InRun (dp : Diskhd) (arrived : List ℕ) (x y : ℕ) : Prop :=
  (dp.buf x).cylin < (dp.buf y).cylin ∨ (dp.buf x).cylin = (dp.buf y).cylin ∧ [x, y].Sublist arrived

theorem InRun.le (inRun : InRun dp arrived x y) : (dp.buf x).cylin ≤ (dp.buf y).cylin := by
  rcases inRun with lt | ⟨eq, -⟩
  · exact Nat.le_of_lt lt
  · exact Nat.le_of_eq eq

/-- The requests that have arrived are on the queue, in two runs. -/
structure Elevator (dp : Diskhd) (arrived a b : List ℕ) : Prop where
  links : Links (fun i => (dp.buf i).avForw) dp.actf (a ++ b) none
  last : a ++ b ≠ [] → dp.actl = (a ++ b).getLast?
  perm : (a ++ b).Perm arrived
  distinct : (a ++ b).Nodup
  first_run : a.Pairwise (InRun dp arrived)
  second_run : b.Pairwise (InRun dp arrived)
  /-- The second run lies below the first request. -/
  lower : ∀ x ∈ a.head?, ∀ y ∈ b, (dp.buf y).cylin < (dp.buf x).cylin
  nonempty : a = [] → b = []

/-! ### The searches -/

theorem secondList_spec (links : Links (fun i => (buf i).avForw) (buf ap).avForw b none)
    (some_left : b ≠ []) (sorted : b.Pairwise fun x y => (buf x).cylin ≤ (buf y).cylin)
    (enough : b.length < fuel) :
    ∃ front back, b = front ++ back ∧ secondList buf bp fuel ap = (ap :: front).getLast? ∧
      (∀ x ∈ front, (buf x).cylin ≤ (buf bp).cylin) ∧ ∀ x ∈ back,
        (buf bp).cylin < (buf x).cylin := by
  induction b generalizing ap fuel with
  | nil => exact absurd rfl some_left
  | cons next b ih =>
    obtain ⟨fuel, rfl⟩ := exists_eq_succ_of_ne_zero (Nat.ne_zero_of_lt enough)
    obtain ⟨forw, rest⟩ := links
    have rest : Links (fun i => (buf i).avForw) (buf next).avForw b none := rest
    obtain ⟨above, sorted⟩ := pairwise_cons.1 sorted
    rw [secondList, forw]
    simp only [bind_eq_bind, bind_some]
    by_cases here : (buf bp).cylin < (buf next).cylin
    · refine ⟨[], next :: b, rfl, if_pos here, fun x mem => (nomatch mem), fun x mem => ?_⟩
      rcases mem_cons.1 mem with rfl | mem
      · exact here
      · exact Nat.lt_of_lt_of_le here (above x mem)
    rw [if_neg here]
    cases b with
    | nil =>
      have stop : (buf next).avForw = none := rest
      refine ⟨[next], [], rfl, if_pos stop, fun x mem => ?_, fun x mem => (nomatch mem)⟩
      obtain rfl := mem_singleton.1 mem
      exact Nat.le_of_not_lt here
    | cons next' b =>
      have more : (buf next).avForw ≠ none := by
        rw [rest.1]
        exact nofun
      rw [if_neg more]
      obtain ⟨front, back, split, found, le, lt⟩ := ih rest (cons_ne_nil _ _) sorted
        (lt_of_succ_lt_succ enough)
      refine ⟨next :: front, back, by rw [split]; rfl, ?_, fun x mem => ?_, lt⟩
      · rw [found, getLast?_cons_cons]
      · rcases mem_cons.1 mem with rfl | mem
        · exact Nat.le_of_not_lt here
        · exact le x mem

theorem findInversion_spec (links : Links (fun i => (buf i).avForw) (buf ap).avForw (a ++ b) none)
    (sorted : (ap :: a).Pairwise fun x y => (buf x).cylin ≤ (buf y).cylin)
    (sorted' : b.Pairwise fun x y => (buf x).cylin ≤ (buf y).cylin)
    (lower : ∀ y ∈ b, (buf y).cylin < (buf ap).cylin) (enough : (a ++ b).length < fuel) :
    ∃ front back, b = front ++ back ∧ findInversion buf bp fuel ap = (ap :: (a ++ front)).getLast? ∧
      (∀ x ∈ front, (buf x).cylin ≤ (buf bp).cylin) ∧ ∀ x ∈ back,
        (buf bp).cylin < (buf x).cylin := by
  induction a generalizing ap fuel with
  | nil =>
    obtain ⟨fuel, rfl⟩ := exists_eq_succ_of_ne_zero (Nat.ne_zero_of_lt enough)
    rw [nil_append] at links enough
    cases b with
    | nil =>
      have stop : (buf ap).avForw = none := links
      refine ⟨[], [], rfl, ?_, fun x mem => (nomatch mem), fun x mem => (nomatch mem)⟩
      rw [findInversion, stop]
      rfl
    | cons next b =>
      obtain ⟨front, back, split, found, le, lt⟩ :=
        @secondList_spec buf (next :: b) ap bp (fuel + 1) links
        (cons_ne_nil _ _) sorted' enough
      refine ⟨front, back, split, ?_, le, lt⟩
      rw [findInversion, links.1]
      dsimp only
      rw [if_pos (lower next mem_cons_self), found]
      rfl
  | cons next a ih =>
    obtain ⟨fuel, rfl⟩ := exists_eq_succ_of_ne_zero (Nat.ne_zero_of_lt enough)
    obtain ⟨above, sorted⟩ := pairwise_cons.1 sorted
    have le_next := above next mem_cons_self
    obtain ⟨front, back, split, found, le, lt⟩ := ih links.2 sorted
      (fun y mem => Nat.lt_of_lt_of_le (lower y mem) le_next) (lt_of_succ_lt_succ enough)
    refine ⟨front, back, split, ?_, le, lt⟩
    rw [findInversion, links.1]
    dsimp only
    rw [if_neg (Nat.not_lt.2 le_next), found, cons_append, getLast?_cons_cons]

theorem firstList_spec (links : Links (fun i => (buf i).avForw) (buf ap).avForw (a ++ b) none)
    (sorted : (ap :: a).Pairwise fun x y => (buf x).cylin ≤ (buf y).cylin)
    (lower : ∀ y ∈ b, (buf y).cylin < (buf ap).cylin) (enough : (a ++ b).length < fuel) :
    ∃ front back, a = front ++ back ∧ firstList buf bp fuel ap = (ap :: front).getLast? ∧
      (∀ x ∈ front, (buf x).cylin ≤ (buf bp).cylin) ∧ ∀ x ∈ back,
        (buf bp).cylin < (buf x).cylin := by
  induction a generalizing ap fuel with
  | nil =>
    obtain ⟨fuel, rfl⟩ := exists_eq_succ_of_ne_zero (Nat.ne_zero_of_lt enough)
    refine ⟨[], [], rfl, ?_, fun x mem => (nomatch mem), fun x mem => (nomatch mem)⟩
    rw [firstList]
    cases b with
    | nil =>
      have stop : (buf ap).avForw = none := links
      rw [stop]
      rfl
    | cons next b =>
      rw [links.1]
      exact if_pos (.inl (lower next mem_cons_self))
  | cons next a ih =>
    obtain ⟨fuel, rfl⟩ := exists_eq_succ_of_ne_zero (Nat.ne_zero_of_lt enough)
    obtain ⟨above, sorted⟩ := pairwise_cons.1 sorted
    have le_next := above next mem_cons_self
    rw [firstList, links.1]
    dsimp only
    by_cases here : (buf bp).cylin < (buf next).cylin
    · refine ⟨[], next :: a, rfl, if_pos (.inr here), fun x mem => (nomatch mem), fun x mem => ?_⟩
      rcases mem_cons.1 mem with rfl | mem
      · exact here
      · exact Nat.lt_of_lt_of_le here ((pairwise_cons.1 sorted).1 x mem)
    · obtain ⟨front, back, split, found, le, lt⟩ := ih links.2 sorted
        (fun y mem => Nat.lt_of_lt_of_le (lower y mem) le_next) (lt_of_succ_lt_succ enough)
      have passed : ¬ ((buf next).cylin < (buf ap).cylin ∨ (buf bp).cylin < (buf next).cylin) :=
        not_or.2 ⟨Nat.not_lt.2 le_next, here⟩
      refine ⟨next :: front, back, by rw [split]; rfl, ?_, fun x mem => ?_, lt⟩
      · rw [if_neg passed, found, getLast?_cons_cons]
      · rcases mem_cons.1 mem with rfl | mem
        · exact Nat.le_of_not_lt here
        · exact le x mem

/-! ### More rounds -/

theorem secondList_mono {fuel' : ℕ} (le : fuel ≤ fuel')
    (found : secondList buf bp fuel x = some y) :
    secondList buf bp fuel' x = some y := by
  induction fuel generalizing x fuel' with
  | zero => exact nomatch found
  | succ fuel ih =>
    obtain ⟨fuel', rfl⟩ := exists_eq_succ_of_ne_zero (Nat.ne_zero_of_lt le)
    rw [secondList] at found ⊢
    obtain ⟨next, forw, found⟩ := bind_eq_some_iff.1 found
    refine bind_eq_some_iff.2 ⟨next, forw, ?_⟩
    split_ifs at found ⊢
    · exact found
    · exact found
    · exact ih (le_of_succ_le_succ le) found

theorem findInversion_mono {fuel' : ℕ} (le : fuel ≤ fuel')
    (found : findInversion buf bp fuel x = some y) :
    findInversion buf bp fuel' x = some y := by
  induction fuel generalizing x fuel' with
  | zero => exact nomatch found
  | succ fuel ih =>
    obtain ⟨fuel', rfl⟩ := exists_eq_succ_of_ne_zero (Nat.ne_zero_of_lt le)
    rw [findInversion] at found ⊢
    cases forw : (buf x).avForw with
    | none =>
      rw [forw] at found
      exact found
    | some next =>
      rw [forw] at found
      dsimp only at found ⊢
      split_ifs at found ⊢
      · exact secondList_mono le found
      · exact ih (le_of_succ_le_succ le) found

theorem firstList_mono {fuel' : ℕ} (le : fuel ≤ fuel') (found : firstList buf bp fuel x = some y) :
    firstList buf bp fuel' x = some y := by
  induction fuel generalizing x fuel' with
  | zero => exact nomatch found
  | succ fuel ih =>
    obtain ⟨fuel', rfl⟩ := exists_eq_succ_of_ne_zero (Nat.ne_zero_of_lt le)
    rw [firstList] at found ⊢
    cases forw : (buf x).avForw with
    | none =>
      rw [forw] at found
      exact found
    | some next =>
      rw [forw] at found
      dsimp only at found ⊢
      split_ifs at found ⊢
      · exact found
      · exact ih (le_of_succ_le_succ le) found

/-! ### One call -/

/-- Put a request behind another one. -/
def Diskhd.linkBehind (dp : Diskhd) (ap bp : ℕ) : Diskhd :=
  { (dp.setForw bp (dp.buf ap).avForw).setForw ap (some bp) with
    actl := if some ap = dp.actl then some bp else dp.actl }

theorem disksort_empty (empty : dp.actf = none) :
    disksort fuel dp bp = some { dp.setForw bp none with actf := some bp, actl := some bp } := by
  rw [disksort, empty]

theorem disksort_below (first : dp.actf = some x) (below : (dp.buf bp).cylin < (dp.buf x).cylin) :
    disksort fuel dp bp = (findInversion dp.buf bp fuel x).map fun ap => dp.linkBehind ap bp := by
  rw [disksort, first]
  dsimp only
  rw [if_pos below]
  cases findInversion dp.buf bp fuel x <;> rfl

theorem disksort_above (first : dp.actf = some x) (above : ¬ (dp.buf bp).cylin < (dp.buf x).cylin) :
    disksort fuel dp bp = (firstList dp.buf bp fuel x).map fun ap => dp.linkBehind ap bp := by
  rw [disksort, first]
  dsimp only
  rw [if_neg above]
  cases firstList dp.buf bp fuel x <;> rfl

theorem disksort_mono {fuel' : ℕ} (le : fuel ≤ fuel') (done : disksort fuel dp bp = some dp') :
    disksort fuel' dp bp = some dp' := by
  cases first : dp.actf with
  | none =>
    rw [disksort_empty first] at done ⊢
    exact done
  | some head =>
    by_cases below : (dp.buf bp).cylin < (dp.buf head).cylin
    · rw [disksort_below first below] at done ⊢
      obtain ⟨ap, found, linked⟩ := map_eq_some_iff.1 done
      exact map_eq_some_iff.2 ⟨ap, findInversion_mono le found, linked⟩
    · rw [disksort_above first below] at done ⊢
      obtain ⟨ap, found, linked⟩ := map_eq_some_iff.1 done
      exact map_eq_some_iff.2 ⟨ap, firstList_mono le found, linked⟩

theorem setForw_next :
    (fun i => ((dp.setForw bp p).buf i).avForw) = update (fun i => (dp.buf i).avForw) bp p := by
  funext i
  rw [Diskhd.setForw]
  dsimp only
  by_cases eq : i = bp
  · subst eq
    rw [update_self, update_self]
  · rw [update_of_ne eq, update_of_ne eq]

theorem setForw_cylin : ((dp.setForw bp p).buf x).cylin = (dp.buf x).cylin := by
  rw [Diskhd.setForw]
  dsimp only
  by_cases eq : x = bp
  · subst eq
    rw [update_self]
  · rw [update_of_ne eq]

theorem linkBehind_cylin : ((dp.linkBehind ap bp).buf x).cylin = (dp.buf x).cylin :=
  setForw_cylin.trans setForw_cylin

theorem linkBehind_next : (fun i => ((dp.linkBehind ap bp).buf i).avForw) =
    update (update (fun i => (dp.buf i).avForw) bp (dp.buf ap).avForw) ap (some bp) := by
  calc (fun i => ((dp.linkBehind ap bp).buf i).avForw)
      = update (fun i => ((dp.setForw bp (dp.buf ap).avForw).buf i).avForw) ap (some bp) :=
        setForw_next
    _ = _ := by rw [setForw_next]

theorem InRun.arrive (inRun : InRun dp arrived x y)
    (same : ∀ i, (dp'.buf i).cylin = (dp.buf i).cylin) :
    InRun dp' (arrived ++ [bp]) x y := by
  rw [InRun, same, same]
  refine inRun.imp_right fun ⟨eq, before⟩ => ⟨eq, before.trans (sublist_append_left _ _)⟩

/-- A new request may stand behind those that have arrived, up to its own cylinder. -/
theorem inRun_fresh (mem : x ∈ arrived) (le : (dp.buf x).cylin ≤ (dp.buf bp).cylin) :
    InRun dp (arrived ++ [bp]) x bp := by
  rcases Nat.lt_or_eq_of_le le with lt | eq
  · exact .inl lt
  · exact .inr ⟨eq, (singleton_sublist.2 mem).append (Sublist.refl [bp])⟩

/-- A run stays in order when a request is put in behind those up to its cylinder. -/
theorem run_insert (run : (pre ++ back).Pairwise (InRun dp arrived)) (mem : ∀ x ∈ pre, x ∈ arrived)
    (same : ∀ i, (dp'.buf i).cylin = (dp.buf i).cylin)
    (le : ∀ x ∈ pre, (dp.buf x).cylin ≤ (dp.buf bp).cylin)
    (lt : ∀ x ∈ back, (dp.buf bp).cylin < (dp.buf x).cylin) :
    (pre ++ bp :: back).Pairwise (InRun dp' (arrived ++ [bp])) := by
  have run' : (pre ++ back).Pairwise (InRun dp' (arrived ++ [bp])) :=
    run.imp fun inRun => inRun.arrive same
  rw [pairwise_append] at run' ⊢
  obtain ⟨first, second, across⟩ := run'
  refine ⟨first, pairwise_cons.2 ⟨fun y y_mem => .inl ?_, second⟩, fun x x_mem y y_mem => ?_⟩
  · rw [same, same]
    exact lt y y_mem
  · rcases mem_cons.1 y_mem with rfl | y_mem
    · refine inRun_fresh (mem x x_mem) ?_
      rw [same, same]
      exact le x x_mem
    · exact across x x_mem y y_mem

theorem Elevator.linkBehind {a' b' : List ℕ} (elevator : Elevator dp arrived a b)
    (fresh : bp ∉ arrived) (split : a ++ b = pre ++ back) (at_last : pre.getLast? = some ap)
    (split' : a' ++ b' = pre ++ bp :: back)
    (first_run : a'.Pairwise (InRun (dp.linkBehind ap bp) (arrived ++ [bp])))
    (second_run : b'.Pairwise (InRun (dp.linkBehind ap bp) (arrived ++ [bp])))
    (lower : ∀ x ∈ a'.head?, ∀ y ∈ b', (dp.buf y).cylin < (dp.buf x).cylin)
    (nonempty : a' = [] → b' = []) :
    Elevator (dp.linkBehind ap bp) (arrived ++ [bp]) a' b' := by
  have links := elevator.links
  have distinct := elevator.distinct
  have last := elevator.last
  have perm := elevator.perm
  rw [split] at links distinct last perm
  obtain ⟨pre, rfl⟩ := getLast?_eq_some_iff.1 at_last
  have fresh' : bp ∉ pre ++ [ap] ++ back := fun mem => fresh (perm.subset mem)
  refine ⟨?_, fun _ => ?_, ?_, ?_, first_run, second_run, fun x x_mem y y_mem => ?_, nonempty⟩
  · rw [split', linkBehind_next]
    rw [append_assoc] at links distinct fresh' ⊢
    exact links.insert distinct fresh'
  · rw [split', Diskhd.linkBehind]
    dsimp only
    rw [last (by simp)]
    cases back with
    | nil => simp
    | cons z back =>
      have ne : some ap ≠ (pre ++ [ap] ++ z :: back).getLast? := by
        rw [getLast?_append_cons]
        intro eq
        have mem : ap ∈ z :: back := mem_of_getLast? eq.symm
        exact (nodup_append.1 distinct).2.2 ap (by simp) ap mem rfl
      rw [if_neg ne, getLast?_append_cons, getLast?_append_cons, getLast?_cons_cons]
  · rw [split']
    exact (perm_middle.trans (perm.cons bp)).trans (perm_append_singleton bp arrived).symm
  · rw [split', nodup_middle, nodup_cons]
    exact ⟨fresh', distinct⟩
  · rw [linkBehind_cylin, linkBehind_cylin]
    exact lower x x_mem y y_mem

/-- A call of `disksort` ends, and puts the request into one of the runs. -/
theorem Elevator.disksort (elevator : Elevator dp arrived a b) (fresh : bp ∉ arrived)
    (enough : arrived.length < fuel) :
    ∃ dp' a' b', disksort fuel dp bp = some dp' ∧ Elevator dp' (arrived ++ [bp]) a' b' := by
  have length := elevator.perm.length_eq
  have mem_iff : ∀ x, x ∈ a ++ b ↔ x ∈ arrived := fun x => elevator.perm.mem_iff
  cases a with
  | nil =>
    obtain rfl := elevator.nonempty rfl
    have empty : dp.actf = none := elevator.links
    obtain rfl : arrived = [] := length_eq_zero_iff.1 length.symm
    refine ⟨_, [bp], [], disksort_empty empty, ?_, fun _ => rfl, List.Perm.refl _,
      nodup_singleton bp,
      pairwise_singleton _ bp, List.Pairwise.nil, fun x _ y mem => (nomatch mem), fun _ => rfl⟩
    refine ⟨rfl, ?_⟩
    rw [Diskhd.setForw]
    dsimp only
    rw [update_self]
    rfl
  | cons head a =>
    have first : dp.actf = some head := elevator.links.1
    have links : Links (fun i => (dp.buf i).avForw) (dp.buf head).avForw (a ++ b) none :=
      elevator.links.2
    have sorted := elevator.first_run.imp fun inRun => inRun.le
    have sorted' := elevator.second_run.imp fun inRun => inRun.le
    have lower : ∀ y ∈ b, (dp.buf y).cylin < (dp.buf head).cylin := elevator.lower head rfl
    have enough' : (a ++ b).length < fuel := by
      rw [cons_append, length_cons] at length
      omega
    by_cases below : (dp.buf bp).cylin < (dp.buf head).cylin
    · obtain ⟨front, back, rfl, found, le, lt⟩ :=
        @findInversion_spec dp.buf a b head bp fuel links sorted
        sorted' lower enough'
      have at_last := getLast?_eq_some_getLast (cons_ne_nil head (a ++ front))
      rw [at_last] at found
      refine ⟨_, head :: a,
        front ++ bp :: back, by rw [disksort_below first below, found, map_some], ?_⟩
      have front_mem : ∀ x ∈ front, x ∈ arrived := fun x mem => (mem_iff x).1 (by simp [mem])
      have split : head :: a ++ (front ++ back) = (head :: (a ++ front)) ++ back := by simp
      refine elevator.linkBehind fresh split at_last (by simp)
        (elevator.first_run.imp fun inRun => inRun.arrive fun _ => linkBehind_cylin)
        (run_insert elevator.second_run front_mem (fun _ => linkBehind_cylin) le lt) ?_ nofun
      intro x x_mem y y_mem
      obtain rfl := some.inj x_mem
      rcases mem_append.1 y_mem with y_mem | y_mem
      · exact lower y (mem_append_left _ y_mem)
      · rcases mem_cons.1 y_mem with rfl | y_mem
        · exact below
        · exact lower y (mem_append_right _ y_mem)
    · obtain ⟨front, back, rfl, found, le, lt⟩ :=
        @firstList_spec dp.buf a b head bp fuel links sorted
        lower enough'
      have at_last := getLast?_eq_some_getLast (cons_ne_nil head front)
      rw [at_last] at found
      refine ⟨_, head :: (front ++ bp :: back), b,
        by rw [disksort_above first below, found, map_some], ?_⟩
      have front_mem : ∀ x ∈ head :: front, x ∈ arrived := fun x mem => (mem_iff x).1 (by
        rcases mem_cons.1 mem with rfl | mem <;> simp [*])
      have le' : ∀ x ∈ head :: front, (dp.buf x).cylin ≤ (dp.buf bp).cylin := fun x mem => by
        rcases mem_cons.1 mem with rfl | mem
        · exact Nat.le_of_not_lt below
        · exact le x mem
      have run : (head :: front ++ back).Pairwise (InRun dp arrived) := elevator.first_run
      have split : head :: (front ++ back) ++ b = (head :: front) ++ (back ++ b) := by simp
      exact elevator.linkBehind fresh split at_last (by simp)
        (run_insert run front_mem (fun _ => linkBehind_cylin) le' lt)
        (elevator.second_run.imp fun inRun => inRun.arrive fun _ => linkBehind_cylin)
          elevator.lower nofun

/-- A request that is on the queue keeps its place when another one is taken off. -/
theorem InRun.leave (inRun : InRun dp arrived x y) (x_ne : x ≠ bp) (y_ne : y ≠ bp)
    (same : ∀ i, (dp'.buf i).cylin = (dp.buf i).cylin) : InRun dp' (arrived.erase bp) x y := by
  rw [InRun, same, same]
  refine inRun.imp_right fun ⟨eq, before⟩ => ⟨eq, ?_⟩
  have notMem : bp ∉ [x, y] := by simp [x_ne.symm, y_ne.symm]
  have erased := before.erase bp
  rwa [erase_of_not_mem notMem] at erased

/-- The driver takes the head of the first run; the second run takes over when nothing is left of
it. -/
theorem Elevator.remove (elevator : Elevator dp arrived a b) (first : dp.actf = some bp) :
    ∃ a' b', Elevator (dp.remove bp) (arrived.erase bp) a' b' := by
  cases a with
  | nil =>
    obtain rfl := elevator.nonempty rfl
    exact absurd (first.symm.trans elevator.links) nofun
  | cons head a =>
    obtain rfl : bp = head := some.inj (first.symm.trans elevator.links.1)
    have links : Links (fun i => (dp.buf i).avForw) (dp.buf bp).avForw (a ++ b) none :=
      elevator.links.2
    obtain ⟨notMem, distinct⟩ := nodup_cons.1 elevator.distinct
    have perm : (a ++ b).Perm (arrived.erase bp) := by
      have erased := elevator.perm.erase bp
      rwa [cons_append, erase_cons_head] at erased
    have last : a ++ b ≠ [] → (dp.remove bp).actl = (a ++ b).getLast? := by
      intro some_left
      have last : dp.actl = (bp :: (a ++ b)).getLast? := elevator.last (cons_ne_nil _ _)
      obtain ⟨z, l, split⟩ := exists_cons_of_ne_nil some_left
      rw [split, getLast?_cons_cons, ← split] at last
      exact last
    have leave : ∀ {l : List ℕ}, (∀ x ∈ l, x ∈ a ++ b) → l.Pairwise (InRun dp arrived) →
        l.Pairwise (InRun (dp.remove bp) (arrived.erase bp)) := by
      intro l sub run
      refine run.imp_of_mem fun {x y} x_mem y_mem inRun => inRun.leave ?_ ?_ fun _ => rfl
      · rintro rfl
        exact notMem (sub x x_mem)
      · rintro rfl
        exact notMem (sub y y_mem)
    have second_run := leave (fun x mem => mem_append_right a mem) elevator.second_run
    cases a with
    | nil =>
      refine ⟨b, [], ?_, ?_, ?_, ?_, second_run, List.Pairwise.nil, fun x _ y mem => (nomatch mem),
        fun _ => rfl⟩
      · rw [append_nil]
        exact links
      · rw [append_nil]
        exact last
      · rw [append_nil]
        exact perm
      · rw [append_nil]
        exact distinct
    | cons next a =>
      have run := pairwise_cons.1 elevator.first_run
      refine ⟨next :: a, b, links, last, perm, distinct,
        leave (fun x mem => mem_append_left b mem) run.2, second_run,
          fun x x_mem y y_mem => ?_, nofun⟩
      obtain rfl := some.inj x_mem
      exact Nat.lt_of_lt_of_le (elevator.lower bp rfl y y_mem) (run.1 next mem_cons_self).le

/-- A request that is not on the queue is used otherwise. -/
theorem Elevator.other {c : Buf} (elevator : Elevator dp arrived a b) (fresh : bp ∉ arrived) :
    Elevator { dp with buf := update dp.buf bp c } arrived a b := by
  have same : ∀ x ∈ a ++ b, update dp.buf bp c x = dp.buf x := by
    intro x mem
    refine update_of_ne ?_ _ _
    rintro rfl
    exact fresh (elevator.perm.subset mem)
  have run : ∀ {l : List ℕ}, (∀ x ∈ l, x ∈ a ++ b) → l.Pairwise (InRun dp arrived) →
      l.Pairwise (InRun { dp with buf := update dp.buf bp c } arrived) := by
    intro l sub run
    refine run.imp_of_mem fun {x y} x_mem y_mem inRun => ?_
    rw [InRun]
    dsimp only
    rw [same x (sub x x_mem), same y (sub y y_mem)]
    exact inRun
  have in_first : ∀ x ∈ a, x ∈ a ++ b := fun x mem => mem_append_left b mem
  have in_second : ∀ x ∈ b, x ∈ a ++ b := fun x mem => mem_append_right a mem
  refine ⟨elevator.links.congr fun x mem => congrArg Buf.avForw (same x mem), elevator.last,
    elevator.perm,
    elevator.distinct, run in_first elevator.first_run, run in_second elevator.second_run, ?_,
      elevator.nonempty⟩
  intro x x_mem y y_mem
  dsimp only
  rw [same x (in_first x (mem_of_head? x_mem)), same y (in_second y y_mem)]
  exact elevator.lower x x_mem y y_mem

/-! ### Runs -/

theorem Run.elevator (run : Run dp arrived) : ∃ a b, Elevator dp arrived a b := by
  induction run with
  | start empty =>
    exact ⟨[], [], empty, fun some_left => absurd rfl some_left, List.Perm.refl _, nodup_nil,
      List.Pairwise.nil, List.Pairwise.nil, fun x _ y mem => (nomatch mem), fun _ => rfl⟩
  | @insert dp dp' arrived fuel bp run fresh done ih =>
    obtain ⟨a, b, elevator⟩ := ih
    obtain ⟨dp'', a', b', done', elevator'⟩ := elevator.disksort fresh
      (Nat.lt_of_lt_of_le (lt_succ_self _) (Nat.le_max_right fuel (arrived.length + 1)))
    have eq := (disksort_mono (Nat.le_max_left fuel _) done).symm.trans done'
    obtain rfl := some.inj eq
    exact ⟨a', b', elevator'⟩
  | remove run first ih =>
    obtain ⟨a, b, elevator⟩ := ih
    exact elevator.remove first
  | other run fresh ih =>
    obtain ⟨a, b, elevator⟩ := ih
    exact ⟨a, b, elevator.other fresh⟩

/-- Whatever requests are handed to `disksort` and taken off by the driver, the queue holds those
that have not been taken off in two runs of ascending cylinders, requests for one cylinder of a run
in the order of their arrival, the second run below the head of the first one, and `b_actl` is the
last request; and every call ends. -/
theorem disksort_elevator (run : Run dp arrived) :
    (∃ a b, Elevator dp arrived a b) ∧ ∀ bp ∉ arrived, ∃ fuel dp',
      disksort fuel dp bp = some dp' := by
  obtain ⟨a, b, elevator⟩ := run.elevator
  refine ⟨⟨a, b, elevator⟩, fun bp fresh => ?_⟩
  obtain ⟨dp', -, -, done, -⟩ := elevator.disksort fresh (lt_succ_self _)
  exact ⟨_, dp', done⟩

/-- A request below the head starts the second run. -/
theorem disksort_elevator_two : ∃ dp, Run dp [7, 3] ∧ dp.actf = some 7 ∧ dp.actl = some 3 ∧
    (∃ a b, Elevator dp [7, 3] a b) ∧ ∀ bp ∉ [7, 3], ∃ fuel dp',
      Disksort.disksort fuel dp bp = some dp' := by
  have idle : Run ⟨fun i => ⟨none, i⟩, none, none⟩ [] := .start rfl
  have one : Run _ [7] := @Run.insert _ _ [] 0 7 idle (by decide) rfl
  have two : Run _ [7, 3] := @Run.insert _ _ [7] 1 3 one (by decide) rfl
  exact ⟨_, two, rfl, rfl, disksort_elevator two⟩

end Sol25.Disksort
