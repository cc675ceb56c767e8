import Mathlib.Data.List.Induction
import Sol25.Seglist.Order

/-!
# Linked lists of segments

`as_findseg` starts at the last segment it found or at an end of the list and goes forwards or
backwards, whatever is nearer.  All of its ways lead to the same segment.
-/

namespace Sol25.Seglist

open List Option

variable {s s' : State} {l front back pre mid post : List ℕ} {addr : ℕ}

def State.links (s : State) : Doubly ℕ :=
  ⟨fun a => (s.seg a).next, fun a => (s.seg a).prev, s.list, s.tail⟩

/-- The address space is a linked list of the segments. -/
structure Linked (s : State) (l : List ℕ) : Prop where
  lrep : s.lrep = .linkedlist
  ordered : Ordered s l
  nsegs : s.nsegs = l.length
  links : s.links.Holds l
  seglast : ∀ a, s.seglast = some a → a ∈ l
  hilevel : s.hilevel < nlevels

theorem Linked.with_seglast (linked : Linked s l) {seglast : Option ℕ}
    (inside : ∀ a, seglast = some a → a ∈ l) :
    Linked { s with seglast } l :=
  ⟨linked.lrep, ⟨linked.ordered.size, linked.ordered.order⟩, linked.nsegs, linked.links, inside,
    linked.hilevel⟩

/-! ### Searching -/

variable {b seg x : ℕ}

theorem forwardLoop_eq (linked : Linked s (pre ++ mid ++ b :: post))
    (below : ∀ a ∈ mid, s.eaddr a ≤ addr) (above : addr < s.eaddr b) {fuel : ℕ}
    (enough : mid.length < fuel) :
    forwardLoop s addr fuel (mid ++ b :: post).head? = some b := by
  induction mid generalizing pre fuel with
  | nil =>
    obtain ⟨fuel, rfl⟩ := Nat.exists_eq_succ_of_ne_zero (Nat.ne_zero_of_lt enough)
    rw [nil_append, head?_cons, forwardLoop, if_neg (Nat.not_le_of_lt above)]
  | cons a mid ih =>
    obtain ⟨fuel, rfl⟩ := Nat.exists_eq_succ_of_ne_zero (Nat.ne_zero_of_lt enough)
    have next : (s.seg a).next = (mid ++ b :: post).head? := by
      have split : pre ++ a :: mid ++ b :: post = pre ++ a :: (mid ++ b :: post) := by simp
      rw [split] at linked
      exact linked.links.neighbours.2
    rw [cons_append, head?_cons, forwardLoop, if_pos (below a mem_cons_self), next]
    refine @ih (pre ++ [a]) ?_ (fun c c_mem => below c (mem_cons_of_mem _ c_mem)) _ ?_
    · simpa using linked
    · simp only [length_cons] at enough
      omega

/-- The loop arrives at the last segment that begins at the address or below. -/
theorem reverseLoop_eq {a : ℕ} (linked : Linked s (pre ++ a :: mid ++ post))
    (low : (s.seg a).base ≤ addr) (high : ∀ b ∈ mid, addr < (s.seg b).base) {z : ℕ}
    (last : (a :: mid).getLast? = some z) (behind : Option ℕ) {fuel : ℕ}
    (enough : mid.length < fuel) :
    reverseLoop s addr fuel z behind = some (a, mid.head?.or behind) := by
  induction mid using List.reverseRecOn generalizing post z behind fuel with
  | nil =>
    obtain ⟨fuel, rfl⟩ := Nat.exists_eq_succ_of_ne_zero (Nat.ne_zero_of_lt enough)
    obtain rfl : a = z := by simpa using last
    rw [reverseLoop, if_neg (Nat.not_lt_of_le low)]
    rfl
  | append_singleton mid y ih =>
    obtain ⟨fuel, rfl⟩ := Nat.exists_eq_succ_of_ne_zero (Nat.ne_zero_of_lt enough)
    obtain rfl : y = z := by
      rw [← cons_append, getLast?_concat] at last
      exact some.inj last
    have prev : (s.seg y).prev = (pre ++ a :: mid).getLast? := by
      have split : pre ++ a :: (mid ++ [y]) ++ post = (pre ++ a :: mid) ++ y :: post := by simp
      rw [split] at linked
      exact linked.links.neighbours.1
    obtain ⟨below, is_below⟩ : ∃ below, (a :: mid).getLast? = some below :=
      ⟨_, getLast?_eq_some_getLast (cons_ne_nil a mid)⟩
    rw [getLast?_append, is_below, some_or] at prev
    rw [reverseLoop, if_pos (high y (by simp)), prev, bind_some,
      @ih (y :: post) (by simpa using linked)
        (fun b b_mem => high b (mem_append_left _ b_mem)) below is_below]
    · rw [head?_append]
      cases mid <;> rfl
    · simp only [length_append, length_singleton] at enough
      omega

/-- What a search returns and leaves behind. -/
structure FoundAt (s : State) (l : List ℕ) (addr : ℕ) (result : Option (Option ℕ × State))
    (front back : List ℕ) :
    Prop where
  split : l = front ++ back
  splits : Splits s addr front back
  nonempty : back ≠ []
  result : ∃ seglast, result = some (back.head?, { s with seglast }) ∧ ∀ a, seglast = some a → a ∈ l

theorem findForward_eq (linked : Linked s (pre ++ mid ++ b :: post))
    (splits : Splits s addr (pre ++ mid) (b :: post)) :
    FoundAt s (pre ++ mid ++ b :: post) addr (findForward s (mid ++ b :: post).head? addr)
      (pre ++ mid)
      (b :: post) := by
  refine ⟨rfl, splits, cons_ne_nil _ _, ?_⟩
  have enough : mid.length < s.nsegs := by
    rw [linked.nsegs]
    simp only [length_append, length_cons]
    omega
  rw [findForward,
    forwardLoop_eq linked (fun a a_mem => splits.below a (mem_append_right _ a_mem))
      (splits.above b mem_cons_self) enough,
    map_some]
  split_ifs
  · refine ⟨some b, rfl, ?_⟩
    rintro a ⟨⟩
    simp
  · exact ⟨s.seglast, rfl, linked.seglast⟩

/-- The last segment up to some place that begins at the address or below. -/
theorem exists_last_low (s : State) {addr : ℕ} {l : List ℕ}
    (low : ∃ a, l.head? = some a ∧ (s.seg a).base ≤ addr) :
    ∃ pre a mid, l = pre ++ a :: mid ∧ (s.seg a).base ≤ addr ∧ ∀ b ∈ mid,
      addr < (s.seg b).base := by
  induction l using List.reverseRecOn with
  | nil => simp at low
  | append_singleton l z ih =>
    by_cases low_z : (s.seg z).base ≤ addr
    · exact ⟨l, z, [], by simp, low_z, fun _ impossible => nomatch impossible⟩
    · obtain ⟨a, first, low_a⟩ := low
      rcases l with _ | ⟨b, l⟩
      · obtain rfl : z = a := by simpa using first
        exact absurd low_a low_z
      · obtain ⟨pre, c, mid, split, low_c, high⟩ := ih ⟨a, by simpa using first, low_a⟩
        refine ⟨pre, c, mid ++ [z], by rw [split]; simp, low_c, ?_⟩
        intro y y_mem
        rcases mem_append.1 y_mem with y_mem | y_mem
        · exact high y y_mem
        · rw [mem_singleton.1 y_mem]
          omega

theorem findReverse_eq {z : ℕ} (linked : Linked s (front ++ z :: back)) (above : addr < s.eaddr z)
    (low : ∃ a, (front ++ z :: back).head? = some a ∧ (s.seg a).base ≤ addr) :
    ∃ front' back', FoundAt s (front ++ z :: back) addr (findReverse s z addr) front' back' := by
  have low' : ∃ a, (front ++ [z]).head? = some a ∧ (s.seg a).base ≤ addr := by
    obtain ⟨a, first, low_a⟩ := low
    refine ⟨a, ?_, low_a⟩
    cases front <;> simpa using first
  obtain ⟨pre, a, mid, split, low_a, high⟩ := exists_last_low s low'
  have last : (a :: mid).getLast? = some z := by
    have lasts := congrArg List.getLast? split
    rw [getLast?_concat, getLast?_append] at lasts
    cases is_last : (a :: mid).getLast? with
    | none => simp at is_last
    | some y => rw [is_last] at lasts; exact lasts.symm
  have whole : front ++ z :: back = pre ++ a :: mid ++ back := by
    rw [← singleton_append, ← append_assoc, split]
  rw [whole] at linked ⊢
  have enough : mid.length < s.nsegs := by
    rw [linked.nsegs]
    simp only [length_append, length_cons]
    omega
  have ordered := linked.ordered
  rw [findReverse, reverseLoop_eq linked low_a high last none enough, bind_some, or_none]
  simp only
  split_ifs with inside
  · refine ⟨pre, a :: mid ++ back, by simp, ?_, by simp, some a, rfl, by rintro b ⟨⟩; simp⟩
    have regrouped : pre ++ a :: mid ++ back = pre ++ (a :: mid ++ back) := by simp
    rw [regrouped] at ordered
    refine ordered.splits_of_neighbours ?_ ?_
    · intro b is_last
      have before := (pairwise_append.1 ordered.order).2.2 b (mem_of_getLast? is_last) a
        (by simp)
      omega
    · rintro b ⟨⟩
      exact inside
  · -- The address lies in the gap behind the segment.
    rcases mid with _ | ⟨b, mid⟩
    · obtain rfl : a = z := by simpa using last
      exact absurd above inside
    · have high_b := high b mem_cons_self
      refine ⟨pre ++ [a], b :: mid ++ back, by simp, ?_, by simp, s.seglast, rfl, linked.seglast⟩
      have regrouped : pre ++ a :: (b :: mid) ++ back = (pre ++ [a]) ++ (b :: mid ++ back) := by
        simp
      rw [regrouped] at ordered
      refine ordered.splits_of_neighbours ?_ ?_
      · intro c is_last
        rw [getLast?_concat, some.injEq] at is_last
        rw [← is_last]
        omega
      · rintro c ⟨⟩
        have positive := base_lt_eaddr ordered (show b ∈ (pre ++ [a]) ++ (b :: mid ++ back) by simp)
        omega

/-- What `as_findseg` returns and leaves behind. -/
def Finds (s : State) (l : List ℕ) (addr : ℕ) (tail : Bool)
    (result : Option (Option ℕ × State)) : Prop :=
  ∃ front back seglast, l = front ++ back ∧ Splits s addr front back ∧
    result = some (found l back tail, { s with seglast }) ∧ ∀ a, seglast = some a → a ∈ l

theorem FoundAt.finds {result : Option (Option ℕ × State)}
    (found_at : FoundAt s l addr result front back) (tail : Bool) : Finds s l addr tail result := by
  obtain ⟨split, splits, nonempty, seglast, is_result, inside⟩ := found_at
  refine ⟨front, back, seglast, split, splits, ?_, inside⟩
  obtain ⟨b, rest, rfl⟩ := exists_cons_of_ne_nil nonempty
  rw [is_result, found]
  cases tail <;> rfl

/-- The forward search from the segment behind one that ends at the address or below. -/
theorem Linked.findForward_next (linked : Linked s (pre ++ seg :: post))
    (below : s.eaddr seg ≤ addr) (b_mem : b ∈ pre ++ seg :: post) (above : addr < s.eaddr b) :
    ∃ front back, FoundAt s (pre ++ seg :: post) addr
      (findForward s (s.seg seg).next addr) front back := by
  have next : (s.seg seg).next = post.head? := linked.links.neighbours.2
  obtain ⟨front, back, split, splits⟩ := linked.ordered.exists_splits addr
  rcases append_eq_append_iff.1 split with ⟨mid, front_eq, rest⟩ | ⟨mid, -, back_eq⟩
  · rcases mid with _ | ⟨a, mid⟩
    · have seg_back : seg ∈ back := by
        rw [← show seg :: post = back from rest]
        exact mem_cons_self
      have := splits.above seg seg_back
      omega
    · obtain ⟨rfl, rfl⟩ : seg = a ∧ post = mid ++ back := by simpa using rest
      subst front_eq
      rcases back with _ | ⟨c, back⟩
      · have := splits.below b (by simpa using b_mem)
        omega
      · have regrouped : pre ++ seg :: (mid ++ c :: back) = (pre ++ [seg]) ++ mid ++ c :: back := by
          simp
        have regrouped' : pre ++ seg :: mid = (pre ++ [seg]) ++ mid := by simp
        rw [regrouped] at linked ⊢
        rw [regrouped'] at splits
        rw [next]
        exact ⟨_, _, findForward_eq linked splits⟩
  · have seg_back : seg ∈ back := by
      rw [back_eq]
      simp
    have := splits.above seg seg_back
    omega

theorem Linked.findForward_first (linked : Linked s l) (b_mem : b ∈ l) (above : addr < s.eaddr b) :
    ∃ front back, FoundAt s l addr (findForward s l.head? addr) front back := by
  obtain ⟨front, back, rfl, splits⟩ := linked.ordered.exists_splits addr
  rcases back with _ | ⟨c, back⟩
  · have := splits.below b (by simpa using b_mem)
    omega
  · exact ⟨[] ++ front, c :: back, @findForward_eq s [] front back addr c linked splits⟩

theorem Linked.asFindseg (linked : Linked s l) (addr : ℕ) (tail : Bool) :
    Finds s l addr tail (asFindseg s addr tail) := by
  have first_eq : s.list = l.head? := linked.links.first
  have last_eq : s.tail = l.getLast? := linked.links.last
  simp only [Seglist.asFindseg, linked.lrep, first_eq]
  rcases is_first : l.head? with _ | loseg
  · obtain rfl := head?_eq_none_iff.1 is_first
    refine ⟨[], [], s.seglast, rfl, ⟨fun _ mem => (nomatch mem), fun _ mem => nomatch mem⟩, ?_,
      linked.seglast⟩
    cases tail <;> rfl
  · have loseg_mem : loseg ∈ l := mem_of_head? is_first
    have seg_mem : s.seglast.getD loseg ∈ l := by
      cases cached : s.seglast with
      | none => exact loseg_mem
      | some a => exact linked.seglast a cached
    simp only
    generalize s.seglast.getD loseg = seg at seg_mem ⊢
    obtain ⟨pre, post, split⟩ := append_of_mem seg_mem
    have positive := base_lt_eaddr linked.ordered seg_mem
    have lowest := linked.ordered.base_le is_first seg_mem
    have ordered := linked.ordered
    by_cases low : (s.seg seg).base ≤ addr
    · rw [if_pos low]
      by_cases inside : addr < (s.seg seg).base + (s.seg seg).size
      · -- The segment contains the address.
        rw [if_pos inside]
        refine ⟨pre, seg :: post, s.seglast, split, ?_, by cases tail <;> rfl, linked.seglast⟩
        rw [split] at ordered
        refine ordered.splits_of_neighbours ?_ ?_
        · intro a is_last
          have := (pairwise_append.1 ordered.order).2.2 a
            (mem_of_getLast? is_last) seg mem_cons_self
          omega
        · rintro a ⟨⟩
          exact inside
      · rw [if_neg inside]
        have below : s.eaddr seg ≤ addr := Nat.le_of_not_lt inside
        obtain ⟨hiseg, is_last⟩ : ∃ hiseg, l.getLast? = some hiseg :=
          ⟨_, getLast?_eq_some_getLast (ne_nil_of_mem seg_mem)⟩
        simp only [last_eq, is_last, bind_some]
        by_cases out : s.eaddr hiseg ≤ addr
        · rw [if_pos out]
          refine ⟨l, [], s.seglast, by simp, ?_, ?_, linked.seglast⟩
          · refine Ordered.splits_of_neighbours (by simpa using ordered) ?_ fun a impossible =>
              nomatch impossible
            intro a is_a
            obtain rfl : hiseg = a := some.inj (is_last.symm.trans is_a)
            exact out
          · rw [found, is_last]
            cases tail <;> rfl
        · rw [if_neg out]
          have above := Nat.lt_of_not_le out
          split_ifs
          · obtain ⟨rest, rfl⟩ := getLast?_eq_some_iff.1 is_last
            obtain ⟨front, back, found_at⟩ :=
              findReverse_eq linked above ⟨loseg, is_first, by omega⟩
            exact found_at.finds tail
          · subst split
            obtain ⟨front, back, found_at⟩ :=
              linked.findForward_next below (mem_of_getLast? is_last) above
            exact found_at.finds tail
    · rw [if_neg low]
      split_ifs with first
      · refine ⟨[], l, s.seglast, rfl, ?_, ?_, linked.seglast⟩
        · refine @Ordered.splits_of_neighbours s [] l addr ordered
            (fun a impossible => nomatch impossible) ?_
          intro a is_a
          obtain rfl : loseg = a := some.inj (is_first.symm.trans is_a)
          have := base_lt_eaddr ordered loseg_mem
          omega
        · rw [found, is_first]
          cases tail <;> rfl
      · obtain ⟨front, back, found_at⟩ :=
          linked.findForward_first seg_mem (show addr < s.eaddr seg by omega)
        rw [is_first] at found_at
        exact found_at.finds tail
      · subst split
        obtain ⟨front, back, found_at⟩ := findReverse_eq linked (show addr < s.eaddr seg by omega)
          ⟨loseg, is_first, by omega⟩
        exact found_at.finds tail

/-! ### Changing -/

variable {new : ℕ}

/-- What `as_addseg` returns and leaves behind. -/
inductive ListAdded (s : State) (l : List ℕ) (new : ℕ) : Option (Bool × State) → Prop
  | refused {a : ℕ} {s' : State} (a_mem : a ∈ l) (overlaps : Overlaps s a new)
      (linked : Linked s' l)
      (same : SameAreas s s') : ListAdded s l new (some (false, s'))
  | added {front back : List ℕ} {s' : State} (split : l = front ++ back)
      (ordered : Ordered s (front ++ new :: back)) (linked : Linked s' (front ++ new :: back))
      (same : SameAreas s s') : ListAdded s l new (some (true, s'))

/-- The links are set, and the rest is the same in all cases. -/
theorem Linked.added (linked : Linked s (front ++ back)) (fresh : new ∉ front ++ back)
    (ordered : Ordered s (front ++ new :: back))
    (links : s'.links = s.links.link front.getLast? new back.head?)
    (rest : s' = { s with seg := s'.seg, list := s'.list, tail := s'.tail })
    (same : SameAreas s s') :
    ListAdded s (front ++ back) new
      (some (true, { s' with seglast := some new, nsegs := s'.nsegs + 1 })) := by
  refine .added rfl ordered ⟨?_, ?_, ?_, ?_, ?_, ?_⟩ same
  · rw [rest]
    exact linked.lrep
  · exact ordered.congr fun a _ => same a
  · rw [rest]
    simp only [linked.nsegs, length_append, length_cons]
    omega
  · change s'.links.Holds _
    rw [links]
    exact linked.links.link fresh
  · rintro a ⟨⟩
    simp
  · rw [rest]
    exact linked.hilevel

theorem links_eq {before after : Option ℕ}
    (next : ∀ a, (s'.seg a).next = if a = new then after else if some a = before then some new else
      (s.seg a).next)
    (prev : ∀ a, (s'.seg a).prev = if a = new then before else if some a = after then some new else
      (s.seg a).prev)
    (list : s'.list = if before = none then some new else s.list)
    (tail : s'.tail = if after = none then some new else s.tail) :
    s'.links = s.links.link before new after := by
  simp only [State.links, Doubly.link, Doubly.mk.injEq]
  exact ⟨funext next, funext prev, list, tail⟩

theorem links_only : ({ s with list := some new, tail := some new }.modify new fun seg =>
    { seg with next := none, prev := none }).links = s.links.link none new none := by
  refine links_eq (fun a => ?_) (fun a => ?_) rfl rfl <;>
    simp only [modify_seg, reduceCtorEq, if_false] <;> split_ifs <;> rfl

theorem links_last (distinct : seg ≠ new) :
    (({ s with tail := some new }.modify new fun new =>
      { new with next := none, prev := some seg }).modify seg
      fun old => { old with next := some new }).links = s.links.link (some seg) new none := by
  refine links_eq (fun a => ?_) (fun a => ?_) rfl rfl <;>
    simp only [modify_seg, some.injEq, reduceCtorEq, if_false, if_neg distinct] <;>
    by_cases is_seg : a = seg
  · simp only [is_seg, if_true, if_neg distinct]
  · simp only [if_neg is_seg]
    split_ifs <;> rfl
  · simp only [is_seg, if_true, if_neg distinct]
  · simp only [if_neg is_seg]
    split_ifs <;> rfl

theorem links_first (distinct : seg ≠ new) :
    ({ (s.modify new fun new => { new with next := some seg, prev := none }).modify seg
        fun old => { old with prev := some new } with list := some new }).links =
      s.links.link none new (some seg) := by
  refine links_eq (fun a => ?_) (fun a => ?_) rfl rfl <;>
    simp only [modify_seg, some.injEq, reduceCtorEq, if_false, if_neg distinct] <;>
    by_cases is_seg : a = seg
  · simp only [is_seg, if_true, if_neg distinct]
  · simp only [if_neg is_seg]
    split_ifs <;> rfl
  · simp only [is_seg, if_true, if_neg distinct]
  · simp only [if_neg is_seg]
    split_ifs <;> rfl

/-- A segment between two others. -/
theorem links_between {before : ℕ} (distinct : seg ≠ new) (distinct' : before ≠ new)
    (apart : before ≠ seg) :
    (((s.modify new fun new => { new with next := some seg, prev := some before }).modify
      seg fun old =>
      { old with prev := some new }).modify before fun old => { old with next := some new }).links =
      s.links.link (some before) new (some seg) := by
  refine links_eq (fun a => ?_) (fun a => ?_) rfl rfl <;>
    simp only [modify_seg, some.injEq, if_neg distinct, if_neg distinct', if_neg apart] <;>
    by_cases is_before : a = before
  · simp only [is_before, if_true, if_neg distinct']
  · by_cases is_seg : a = seg
    · simp only [is_seg, if_true, if_neg distinct, if_neg apart.symm]
    · simp only [if_neg is_seg, if_neg is_before]
      split_ifs <;> rfl
  · simp only [is_before, if_true, if_neg distinct', if_neg apart]
  · by_cases is_seg : a = seg
    · simp only [is_seg, if_true, if_neg distinct, if_neg apart.symm]
    · simp only [if_neg is_seg, if_neg is_before]
      split_ifs <;> rfl

theorem ListAdded.of_seglast {seglast : Option ℕ} {result : Option (Bool × State)}
    (added : ListAdded { s with seglast } l new result) : ListAdded s l new result := by
  cases added with
  | refused a_mem overlaps linked same => exact .refused a_mem overlaps linked same
  | added split ordered linked same => exact .added split ⟨ordered.size, ordered.order⟩ linked same

theorem Linked.listAddseg (linked : Linked s l) (fresh : new ∉ l) (size : 0 < (s.seg new).size) :
    ListAdded s l new (listAddseg s new) := by
  obtain ⟨front, back, seglast, rfl, splits, finds, inside⟩ :=
    linked.asFindseg (s.seg new).base true
  have linked' := linked.with_seglast inside
  simp only [Seglist.listAddseg, finds, bind_some]
  refine @ListAdded.of_seglast s _ new seglast _ ?_
  have ordered : (∀ a, back.head? = some a → s.eaddr new ≤ (s.seg a).base) →
      Ordered { s with seglast } (front ++ new :: back) := by
    intro gap
    have ordered := linked.ordered.insert size splits gap
    exact ⟨ordered.size, ordered.order⟩
  rcases back with _ | ⟨seg, back⟩
  · have ordered := ordered fun a impossible => nomatch impossible
    rcases last : front.getLast? with _ | seg
    · have nothing : found (front ++ []) [] true = none := by simp [found, last]
      simp only [nothing]
      refine linked'.added fresh ordered ?_ rfl ?_
      · rw [last]
        exact links_only
      · exact sameAreas_modify (fun _ => ⟨rfl, rfl⟩) fun _ => ⟨rfl, rfl⟩
    · have seg_mem := mem_of_getLast? last
      have is_last : found (front ++ []) [] true = some seg := by simp [found, last]
      have distinct : seg ≠ new := fun same => fresh (mem_append_left _ (same ▸ seg_mem))
      have below : s.eaddr seg ≤ (s.seg new).base := splits.below seg seg_mem
      simp only [is_last]
      rw [if_pos (show State.eaddr { s with seglast } seg ≤ (s.seg new).base from below)]
      refine linked'.added fresh ordered ?_ rfl ?_
      · rw [last]
        exact links_last distinct
      · exact sameAreas_modify (sameAreas_modify (fun _ => ⟨rfl, rfl⟩) fun _ => ⟨rfl, rfl⟩) fun _ =>
          ⟨rfl, rfl⟩
  · have is_seg : found (front ++ seg :: back) (seg :: back) true = some seg := rfl
    have above : (s.seg new).base < s.eaddr seg := splits.above seg mem_cons_self
    have seg_mem : seg ∈ front ++ seg :: back := by simp
    have distinct : seg ≠ new := fun same => fresh (same ▸ seg_mem)
    simp only [is_seg]
    rw [if_neg (show ¬ State.eaddr { s with seglast } seg ≤ (s.seg new).base
      from Nat.not_le_of_lt above)]
    by_cases overlaps : (s.seg seg).base ≤ (s.seg new).base ∨ (s.seg seg).base < s.eaddr new
    · rw [if_pos overlaps]
      have positive : (s.seg new).base < s.eaddr new := by
        simp only [State.eaddr]
        omega
      have before : (s.seg seg).base < s.eaddr new := by omega
      exact .refused seg_mem ⟨before, above⟩ linked' fun _ => ⟨rfl, rfl⟩
    · rw [if_neg overlaps]
      have ordered := ordered (by rintro a ⟨⟩; omega)
      have prev : (s.seg seg).prev = front.getLast? := linked.links.neighbours.1
      have first : s.list = (front ++ seg :: back).head? := linked.links.first
      rcases last : front.getLast? with _ | before
      · obtain rfl := getLast?_eq_none_iff.1 last
        have is_first : s.list = some seg := first
        simp only [prev, modify_list, if_pos is_first]
        refine linked'.added fresh ordered (links_first distinct) rfl fun a => ?_
        simp only [modify_seg, if_neg distinct]
        split_ifs with is_seg is_new
        · rw [is_seg]
          exact ⟨rfl, rfl⟩
        · rw [is_new]
          exact ⟨rfl, rfl⟩
        · exact ⟨rfl, rfl⟩
      · have before_mem := mem_of_getLast? last
        have apart : before ≠ seg :=
          (nodup_append.1 linked.ordered.nodup).2.2 before before_mem seg mem_cons_self
        have distinct' : before ≠ new := fun same => fresh (mem_append_left _ (same ▸ before_mem))
        have not_first : s.list ≠ some seg := by
          rw [first]
          obtain ⟨b, rest, rfl⟩ := exists_cons_of_ne_nil (ne_nil_of_mem before_mem)
          rintro ⟨⟩
          exact (nodup_append.1 linked.ordered.nodup).2.2 _ mem_cons_self _
            mem_cons_self rfl
        simp only [prev, last, modify_list, if_neg not_first, map_some]
        refine linked'.added fresh ordered ?_ rfl ?_
        · rw [last]
          exact links_between distinct distinct' apart
        · exact sameAreas_modify
            (sameAreas_modify (sameAreas_modify (fun _ => ⟨rfl, rfl⟩) fun _ => ⟨rfl, rfl⟩)
            fun _ => ⟨rfl, rfl⟩) fun _ => ⟨rfl, rfl⟩

/-- The neighbours know each other, and the rest is the same in all cases. -/
theorem Linked.removed (linked : Linked s (front ++ x :: back))
    (next : ∀ a ≠ x, (s'.seg a).next = if some a =
      front.getLast? then back.head? else (s.seg a).next)
    (prev : ∀ a ≠ x, (s'.seg a).prev = if some a =
      back.head? then front.getLast? else (s.seg a).prev)
    (list : s'.list = if front.getLast? = none then back.head? else s.list)
    (tail : s'.tail = if back.head? = none then front.getLast? else s.tail)
    (rest : s' = { s with seg := s'.seg, list := s'.list, tail := s'.tail, seglast := back.head? })
    (same : SameAreas s s') : Linked { s' with nsegs := s'.nsegs - 1 } (front ++ back) := by
  have apart : x ∉ front ++ back := (nodup_cons.1 (nodup_middle.1 linked.ordered.nodup)).1
  have fewer : List.Sublist (front ++ back) (front ++ x :: back) :=
    Sublist.append_left (sublist_cons_self x back) front
  refine ⟨?_, ?_, ?_, ?_, ?_, ?_⟩
  · rw [rest]
    exact linked.lrep
  · exact (linked.ordered.sublist fewer).congr fun a _ => same a
  · rw [rest]
    simp only [linked.nsegs, length_append, length_cons]
    omega
  · refine linked.links.unlink.congr ?_ list tail
    intro a a_mem
    have distinct : a ≠ x := fun is_x => apart (is_x ▸ a_mem)
    simp only [State.links, Doubly.unlink, if_neg distinct]
    exact ⟨next a distinct, prev a distinct⟩
  · rw [rest]
    exact fun a is_next => mem_append_right _ (mem_of_head? is_next)
  · rw [rest]
    exact linked.hilevel

theorem setPrev_eq (is_last : some x = s.tail ↔ back = []) :
    ∃ s', s.setPrev x back.head? front.getLast? = some s' ∧
      (∀ a, (s'.seg a).next = (s.seg a).next) ∧
      (∀ a, (s'.seg a).prev = if some a = back.head? then front.getLast? else (s.seg a).prev) ∧
      s'.tail = (if back.head? = none then front.getLast? else s.tail) ∧
      s' = { s with seg := s'.seg, tail := s'.tail } ∧ SameAreas s s' := by
  rw [State.setPrev]
  rcases back with _ | ⟨next, back⟩
  · rw [if_pos (is_last.2 rfl)]
    exact ⟨_, rfl, fun a => rfl, fun a => (if_neg (by simp)).symm, rfl, rfl, fun a => ⟨rfl, rfl⟩⟩
  · rw [if_neg (mt is_last.1 (cons_ne_nil _ _)), head?_cons, map_some]
    refine ⟨_, rfl, ?_, ?_, rfl, rfl, sameAreas_modify (fun _ => ⟨rfl, rfl⟩) fun _ => ⟨rfl, rfl⟩⟩
    · intro a
      rw [modify_seg]
      split_ifs with is_next
      · rw [is_next]
      · rfl
    · intro a
      simp only [modify_seg, some.injEq]
      split_ifs <;> rfl

theorem setNext_eq (is_first : some x = s.list ↔ front = []) :
    ∃ s', s.setNext x back.head? front.getLast? = some s' ∧
      (∀ a, (s'.seg a).next = if some a = front.getLast? then back.head? else (s.seg a).next) ∧
      (∀ a, (s'.seg a).prev = (s.seg a).prev) ∧
      s'.list = (if front.getLast? = none then back.head? else s.list) ∧
      s' = { s with seg := s'.seg, list := s'.list } ∧ SameAreas s s' := by
  rw [State.setNext]
  rcases eq_nil_or_concat' front with rfl | ⟨rest, before, rfl⟩
  · rw [if_pos (is_first.2 rfl)]
    exact ⟨_, rfl, fun a => (if_neg (by simp)).symm, fun a => rfl, rfl, rfl, fun a => ⟨rfl, rfl⟩⟩
  · rw [if_neg (mt is_first.1 (by simp)), getLast?_concat, map_some]
    refine ⟨_, rfl, ?_, ?_, rfl, rfl, sameAreas_modify (fun _ => ⟨rfl, rfl⟩) fun _ => ⟨rfl, rfl⟩⟩
    · intro a
      simp only [modify_seg, some.injEq]
      split_ifs <;> rfl
    · intro a
      rw [modify_seg]
      split_ifs with is_before
      · rw [is_before]
      · rfl

theorem Linked.is_last_iff (linked : Linked s (front ++ x :: back)) :
    some x = s.tail ↔ back = [] := by
  have last : s.tail = (front ++ x :: back).getLast? := linked.links.last
  rw [last]
  rcases eq_nil_or_concat' back with rfl | ⟨rest, z, rfl⟩
  · simp
  · have distinct : x ≠ z := by
      rintro rfl
      have apart := (nodup_cons.1 (nodup_append.1 linked.ordered.nodup).2.1).1
      exact apart (by simp)
    rw [← cons_append, ← append_assoc, getLast?_concat]
    simpa using distinct

theorem Linked.is_first_iff (linked : Linked s (front ++ x :: back)) :
    some x = s.list ↔ front = [] := by
  have first : s.list = (front ++ x :: back).head? := linked.links.first
  rw [first]
  rcases front with _ | ⟨z, rest⟩
  · simp
  · have distinct : x ≠ z := fun same =>
      (nodup_append.1 linked.ordered.nodup).2.2 z mem_cons_self x
        mem_cons_self same.symm
    simpa using distinct

theorem Linked.listRemoveAt (linked : Linked s (front ++ x :: back)) :
    ∃ s', listRemoveAt s x = some s' ∧ Linked s' (front ++ back) ∧ SameAreas s s' := by
  have x_prev : (s.seg x).prev = front.getLast? := linked.links.neighbours.1
  have x_next : (s.seg x).next = back.head? := linked.links.neighbours.2
  obtain ⟨s₁, sets_prev, next₁, prev₁, tail₁, rest₁, same₁⟩ :=
    @setPrev_eq { s with seglast := back.head? } front back x linked.is_last_iff
  have list₁ : s₁.list = s.list := by rw [rest₁]
  obtain ⟨s₂, sets_next, next₂, prev₂, list₂, rest₂, same₂⟩ :=
    @setNext_eq s₁ front back x (by rw [list₁]; exact linked.is_first_iff)
  have same : SameAreas s s₂ :=
    fun a => ⟨(same₂ a).1.trans (same₁ a).1, (same₂ a).2.trans (same₁ a).2⟩
  refine ⟨{ s₂ with nsegs := s₂.nsegs - 1 }, ?_, linked.removed ?_ ?_ ?_ ?_ ?_ same, same⟩
  · simp only [Seglist.listRemoveAt, x_prev, x_next, sets_prev, bind_some, sets_next, map_some]
  · intro a _
    rw [next₂, next₁]
  · intro a _
    rw [prev₂, prev₁]
  · rw [list₂, list₁]
  · rw [rest₂]
    exact tail₁
  · rw [rest₂, rest₁]

/-- What `as_removeseg` returns and leaves behind. -/
inductive ListRemoved (s : State) (l : List ℕ) (addr : ℕ) : Option (Option ℕ × State) → Prop
  | missing {s' : State} (absent : ∀ a ∈ l, (s.seg a).base ≠ addr) (linked : Linked s' l)
      (same : SameAreas s s') :
      ListRemoved s l addr (some (none, s'))
  | removed {front back : List ℕ} {x : ℕ} {s' : State} (split : l = front ++ x :: back)
      (base : (s.seg x).base = addr) (linked : Linked s' (front ++ back)) (same : SameAreas s s') :
      ListRemoved s l addr (some (some x, s'))

theorem Linked.asRemoveseg (linked : Linked s l) (addr : ℕ) :
    ListRemoved s l addr (asRemoveseg s addr) := by
  obtain ⟨front, back, seglast, rfl, splits, finds, inside⟩ := linked.asFindseg addr false
  have linked' := linked.with_seglast inside
  rw [Seglist.asRemoveseg, linked.lrep]
  simp only [finds, bind_some]
  rcases back with _ | ⟨x, back⟩
  · exact .missing (linked.ordered.absent splits fun a impossible => nomatch impossible) linked'
      fun a => ⟨rfl, rfl⟩
  · have is_x : found (front ++ x :: back) (x :: back) false = some x := rfl
    simp only [is_x]
    split_ifs with elsewhere
    · refine .missing (linked.ordered.absent splits ?_) linked' fun a => ⟨rfl, rfl⟩
      rintro a ⟨⟩
      exact elsewhere
    · obtain ⟨s', removes, linked'', same⟩ := linked'.listRemoveAt
      rw [removes, map_some]
      exact .removed rfl (not_not.1 elsewhere) linked'' same

end Sol25.Seglist
