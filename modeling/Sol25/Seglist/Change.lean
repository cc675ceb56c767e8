import Sol25.Seglist.Search

/-!
# Changing a skip list

`ssl_insert` and `ssl_remove` change the entries that the path of their search points out, and the
path still leads to the same place afterwards.
-/

namespace Sol25.Seglist

open Function List Option Nat

variable {s s' : State} {l front back : List ℕ} {addr : ℕ} {d : Skips ℕ} {new : ℕ}
variable {a newlev : ℕ}

theorem newlevelLoop_le (fuel r : ℕ) (le : newlev ≤ nlevels) :
    newlevelLoop fuel r newlev ≤ nlevels := by
  induction fuel generalizing r newlev with
  | zero => exact le
  | succ fuel ih =>
    rw [newlevelLoop]
    split_ifs with again
    · exact ih _ again.2
    · exact le

theorem newlevel_lt (r : ℕ) : newlevel r < nlevels := by
  have le := newlevelLoop_le nlevels r (show 1 ≤ nlevels by decide)
  have positive : 0 < nlevels := by decide
  rw [newlevel]
  omega

/-! ### Inserting -/

/-- The entries when the new segment has been put in on the levels below a number. -/
def linkedSsl (ssl : Ssl → Option (ℕ → Entry)) (new : ℕ) (place : ℕ → Ssl) (value : ℕ → Entry)
    (levels : ℕ) (p : Ssl) : Option (ℕ → Entry) :=
  (ssl p).map fun segs i =>
    if i < levels then if p = some new then value i else if p = place i then .seg new else
      segs i else segs i

theorem linkedSsl_zero (ssl : Ssl → Option (ℕ → Entry)) (new : ℕ) (place : ℕ → Ssl)
    (value : ℕ → Entry) :
    linkedSsl ssl new place value 0 = ssl := by
  funext p
  simp [linkedSsl]

theorem linkedSsl_at {ssl : Ssl → Option (ℕ → Entry)} {place : ℕ → Ssl} {value : ℕ → Entry}
    {levels : ℕ} {p : Ssl} {segs : ℕ → Entry} (is_ssl : ssl p = some segs) :
    linkedSsl ssl new place value levels p = some fun i =>
      if i < levels then if p = some new then value i else if p = place i then .seg new else segs i
        else segs i := by
  rw [linkedSsl, is_ssl, map_some]

theorem sslLink_eq {place : ℕ → Ssl} {value : ℕ → Entry} {i : ℕ} {segs new_segs : ℕ → Entry}
    (path : s.spath i = some (place i)) (is_ssl : s.ssl (place i) = some segs)
    (is_value : segs i = value i) (is_new : s.ssl (some new) = some new_segs)
    (distinct : place i ≠ some new) :
    sslLink new { s with ssl := linkedSsl s.ssl new place value i } i =
      some { s with ssl := linkedSsl s.ssl new place value (i + 1) } := by
  have at_place := @linkedSsl_at new s.ssl place value i _ _ is_ssl
  have at_new := @linkedSsl_at new s.ssl place value i _ _ is_new
  have at_place' := @linkedSsl_at new s.ssl place value (i + 1) _ _ is_ssl
  have at_new' := @linkedSsl_at new s.ssl place value (i + 1) _ _ is_new
  simp only [sslLink, path, bind_some, at_place, Nat.lt_irrefl, if_false, State.setEntry,
    at_new, map_some, update_of_ne distinct]
  refine congrArg some (congrArg (fun ssl => { s with ssl := ssl }) (funext fun p => ?_))
  rw [update_apply]
  split_ifs with is_place
  · rw [is_place, at_place']
    refine congrArg some (funext fun j => ?_)
    rw [update_apply]
    split_ifs <;> first | rfl | omega | (subst j; simp_all)
  · rw [update_apply]
    split_ifs with is_p
    · rw [is_p, at_new']
      refine congrArg some (funext fun j => ?_)
      rw [update_apply]
      split_ifs <;> first | rfl | omega | (subst j; simp_all) | simp_all
    · rw [linkedSsl, linkedSsl]
      refine congrArg (fun f => Option.map f (s.ssl p)) (funext fun segs => funext fun j => ?_)
      split_ifs <;> first | rfl | omega | skip
      have : j = i := by omega
      subst this
      exact (is_place ‹_›).elim

theorem foldlM_sslLink {place : ℕ → Ssl} {value : ℕ → Entry} {new_segs : ℕ → Entry} {levels : ℕ}
    (path : ∀ i < levels, s.spath i = some (place i))
    (values : ∀ i < levels, s.entry (place i) i = some (value i))
    (is_new : s.ssl (some new) = some new_segs) (distinct : ∀ i < levels, place i ≠ some new) :
    (List.range levels).foldlM (sslLink new) s =
      some { s with ssl := linkedSsl s.ssl new place value levels } := by
  induction levels with
  | zero => simp [linkedSsl_zero]
  | succ i ih =>
    have lt := lt_succ_self i
    obtain ⟨segs, is_ssl, is_value⟩ := map_eq_some_iff.1 (values i lt)
    have before := ih (fun j inside => path j (by omega)) (fun j inside => values j (by omega))
      fun j inside => distinct j (by omega)
    rw [range_succ, foldlM_append, before]
    simp only [foldlM_cons, foldlM_nil, bind_pure]
    exact sslLink_eq (path i lt) is_ssl is_value is_new (distinct i lt)

theorem raise_eq (s : State) (newlev : ℕ) :
    s.raise newlev = { s with
      spath := fun i => if s.hilevel < i ∧ i ≤ newlev then some none else s.spath i
      hilevel := max s.hilevel newlev } := by
  rw [State.raise]
  split_ifs with higher
  · rw [Nat.max_eq_right (Nat.le_of_lt higher)]
  · have same : (fun i => if s.hilevel < i ∧ i ≤ newlev then some none else s.spath i) =
        s.spath := by
      funext i
      exact if_neg (by omega)
    rw [same, Nat.max_eq_left (Nat.le_of_not_lt higher)]

theorem PathAt.raise (path : PathAt s d front) (entries : Entries s (front ++ back) d) {i : ℕ}
    (le : i ≤ max s.hilevel newlev) :
    (if s.hilevel < i ∧ i ≤ newlev then some none else s.spath i) = some (d.behind i front) := by
  split_ifs with above
  · have top : d.behind i front = none := by
      rw [Skips.behind_eq_none]
      intro a a_mem
      have low := entries.level a (mem_append_left _ a_mem)
      omega
    rw [top]
  · exact path i (by omega)

theorem behind_insert (fresh : new ∉ front) (level i : ℕ) :
    (d.insert front new level).behind i front = d.behind i front := by
  rw [Skips.behind, Skips.behind]
  congr 1
  refine filter_congr fun a a_mem => ?_
  have distinct : a ≠ new := fun same => fresh (same ▸ a_mem)
  simp only [Skips.insert, update_of_ne distinct]

theorem mem_of_ne_new (a_mem : a ∈ front ++ new :: back) (distinct : a ≠ new) :
    a ∈ front ++ back := by
  simp only [mem_append, mem_cons] at a_mem ⊢
  tauto

/-- The entries with the new segment in place. -/
theorem Entries.insert (entries : Entries s (front ++ back) d) (inside : newlev < nlevels)
    (hilevel : s'.hilevel = max s.hilevel newlev)
    (entry_new : ∀ i < nlevels, s'.entry (some new) i =
      some (if i ≤ newlev then Entry.of (d.next i (d.behind i front)) else .unused))
    (entry_old : ∀ p i, p ≠ some new → i < nlevels → s'.entry p i = (s.ssl p).map fun segs =>
        if i ≤ newlev ∧ p = d.behind i front then .seg new else segs i) :
    Entries s' (front ++ new :: back) (d.insert front new newlev) := by
  refine ⟨?_, ?_, ?_, ?_⟩
  · intro p p_mem i lt reaches
    by_cases is_p : p = some new
    · subst is_p
      have high : i ≤ newlev := by
        have reached : i ≤ update d.level new newlev new := reaches new rfl
        rwa [update_self] at reached
      rw [entry_new i lt, if_pos high]
      simp only [Skips.insert, if_pos high, if_true]
    · have p_mem' : ∀ a, p = some a → a ∈ front ++ back :=
        fun a is_a => mem_of_ne_new (p_mem a is_a) fun same => is_p (same ▸ is_a)
      rw [Skips.insert_reaches is_p] at reaches
      obtain ⟨segs, is_segs, entry⟩ := map_eq_some_iff.1 (entries.used p p_mem' i lt reaches)
      rw [entry_old p i is_p lt, is_segs, map_some, entry]
      simp only [Skips.insert, if_neg is_p]
      by_cases high : i ≤ newlev
      · by_cases here : p = d.behind i front
        · rw [if_pos ⟨high, here⟩, if_pos high, if_pos here]
          rfl
        · rw [if_neg (fun both => here both.2), if_pos high, if_neg here]
      · rw [if_neg (fun both => high both.1), if_neg high]
  · intro a a_mem i lt low
    by_cases is_a : a = new
    · subst is_a
      have low : newlev < i := by
        have below : update d.level a newlev a < i := low
        rwa [update_self] at below
      rw [entry_new i lt, if_neg (Nat.not_le_of_lt low)]
    · have low : d.level a < i := by
        have below : update d.level new newlev a < i := low
        rwa [update_of_ne is_a] at below
      have not_place : some a ≠ d.behind i front := by
        intro same
        have reaches := (Skips.mem_of_behind same.symm).2
        omega
      obtain ⟨segs, is_segs, entry⟩ :=
        map_eq_some_iff.1 (entries.unused a (mem_of_ne_new a_mem is_a) i lt low)
      rw [entry_old (some a) i (by simpa using is_a) lt, is_segs, map_some,
        if_neg (fun both => not_place both.2), entry]
  · intro a a_mem
    rw [hilevel]
    by_cases is_a : a = new
    · subst is_a
      simp only [Skips.insert, update_self]
      omega
    · have low := entries.level a (mem_of_ne_new a_mem is_a)
      simp only [Skips.insert, update_of_ne is_a]
      omega
  · have top := entries.hilevel
    omega

/-- The state behind `ssl_insert`. -/
def State.linked (s : State) (d : Skips ℕ) (front : List ℕ) (new newlev : ℕ) : State :=
  { s with
    spath := fun i => if s.hilevel < i ∧ i ≤ newlev then some none else s.spath i
    hilevel := max s.hilevel newlev
    random := fun n => s.random (n + 1)
    nsegs := s.nsegs + 1
    ssl := fun p =>
      if p = some new then
        some fun i =>
          if newlev < i ∧ i < nlevels then .unused
          else if i ≤ newlev then Entry.of (d.next i (d.behind i front)) else .null
      else (s.ssl p).map fun segs i => if i ≤ newlev ∧ p = d.behind i front then .seg new
        else segs i }

/-- The state in front of the loop over the levels. -/
def State.started (s : State) (new newlev : ℕ) : State :=
  { s with
    random := fun n => s.random (n + 1)
    spath := fun i => if s.hilevel < i ∧ i ≤ newlev then some none else s.spath i
    hilevel := max s.hilevel newlev
    ssl := update s.ssl (some new) (some fun _ => .null) }

theorem sslInsertAt_eq (entries : Entries s (front ++ back) d) (path : PathAt s d front)
    (fresh : new ∉ front) :
    sslInsertAt s new = some (s.linked d front new (newlevel (s.random 0))) := by
  have inside := newlevel_lt (s.random 0)
  generalize level_eq : newlevel (s.random 0) = newlev at inside
  have distinct : ∀ i, d.behind i front ≠ some new :=
    fun i same => fresh (Skips.mem_of_behind same).1
  have is_new : (s.started new newlev).ssl (some new) = some fun _ => .null := update_self _ _ _
  have same_ssl : ∀ p, p ≠ some new → (s.started new newlev).ssl p = s.ssl p :=
    fun p ne => update_of_ne ne _ _
  have values : ∀ i < newlev + 1, (s.started new newlev).entry (d.behind i front) i =
          some (Entry.of (d.next i (d.behind i front))) := by
    intro i lt
    rw [State.entry, same_ssl _ (distinct i)]
    refine entries.used _ ?_ i (by omega) Skips.reaches_behind
    exact fun a is_place => mem_append_left _ (Skips.mem_of_behind is_place).1
  have looped := foldlM_sslLink (fun i lt => path.raise entries (by omega)) values is_new fun i _ =>
    distinct i
  have started : { { s with random := fun n => s.random (n + 1) }.raise newlev with
      ssl := update ({ s with random := fun n => s.random (n + 1) }.raise newlev).ssl (some new)
        (some fun _ => Entry.null) } = s.started new newlev := by
    rw [raise_eq]
    rfl
  simp only [sslInsertAt, level_eq, started, looped, bind_some, linkedSsl_at is_new, map_some]
  refine congrArg some (congrArg (fun ssl => { s.linked d front new newlev with ssl := ssl })
    (funext fun p => ?_))
  rw [update_apply]
  split_ifs with is_p
  · refine congrArg some (funext fun i => ?_)
    simp only [Nat.lt_succ_iff]
  · rw [linkedSsl, same_ssl p is_p]
    refine congrArg (fun f => Option.map f (s.ssl p)) (funext fun segs => funext fun i => ?_)
    simp only [if_neg is_p, Nat.lt_succ_iff, ← ite_and]

theorem Entries.linked (entries : Entries s (front ++ back) d) (newlev : ℕ)
    (inside : newlev < nlevels) :
    Entries (s.linked d front new newlev) (front ++ new :: back) (d.insert front new newlev) := by
  refine entries.insert inside rfl ?_ ?_
  · intro i lt
    simp only [State.entry, State.linked, if_true, map_some, lt, and_true]
    split_ifs <;> first | rfl | omega
  · intro p i distinct lt
    simp only [State.entry, State.linked, if_neg distinct, Option.map_map]
    rfl

theorem PathAt.linked (path : PathAt s d front) (entries : Entries s (front ++ back) d)
    (fresh : new ∉ front) (newlev : ℕ) :
    PathAt (s.linked d front new newlev) (d.insert front new newlev) front := by
  intro i le
  rw [behind_insert fresh]
  exact path.raise entries le

/-- The links when the new segment knows its neighbours but is not in the skip list yet. -/
structure Rewired (s s' : State) (front : List ℕ) (new : ℕ) (back : List ℕ) : Prop where
  rest : s' = { s with seg := s'.seg, tail := s'.tail }
  same : SameAreas s s'
  prev : ∀ a, (s'.seg a).prev =
    if a = new then front.getLast? else if some a = back.head? then some new else (s.seg a).prev
  tail : s'.tail = if back.head? = none then some new else s.tail

theorem Rewired.doubly (rewired : Rewired s s' front new back) (holds : d.Holds (front ++ back))
    (newlev : ℕ) :
    (s'.linked d front new newlev).doubly (d.insert front new newlev) =
      (s.doubly d).link front.getLast? new back.head? := by
  have behind : d.behind 0 front = front.getLast? := Skips.behind_eq_getLast? fun _ _ => zero_le _
  have ahead : d.next 0 front.getLast? = back.head? := by
    rw [← behind, holds.next_behind 0]
    simp [Skips.ahead]
  simp only [State.doubly, Doubly.link, State.linked, Skips.insert, zero_le, if_true, behind,
    ahead, Doubly.mk.injEq]
  refine ⟨?_, ?_, ?_, ?_⟩
  · funext a
    simp only [some.injEq]
  · funext a
    exact rewired.prev a
  · simp only [reduceCtorEq, if_false, eq_comm]
  · exact rewired.tail

/-- The new segment is put into the skip list. -/
theorem Skipped.insertAt (skipped : Skipped s (front ++ back) d) (path : PathAt s d front)
    (rewired : Rewired s s' front new back) (fresh : new ∉ front ++ back)
    (ordered : Ordered s (front ++ new :: back)) :
    ∃ s'' d', sslInsertAt s' new = some s'' ∧ Skipped s'' (front ++ new :: back) d' ∧
      PathAt s'' d' front ∧
      s''.seg = s'.seg := by
  have fresh_front : new ∉ front := fun mem => fresh (mem_append_left _ mem)
  have entries : Entries s' (front ++ back) d := by
    rw [rewired.rest]
    exact ⟨skipped.used, skipped.unused, skipped.level, skipped.hilevel⟩
  have path' : PathAt s' d front := by
    rw [rewired.rest]
    exact path
  generalize level_eq : newlevel (s'.random 0) = newlev
  have inside : newlev < nlevels := level_eq ▸ newlevel_lt _
  refine ⟨s'.linked d front new newlev, d.insert front new newlev, ?_,
    ⟨entries.linked newlev inside, ?_, ?_, ?_, ?_, ?_⟩,
    path'.linked entries fresh_front newlev, rfl⟩
  · rw [← level_eq]
    exact sslInsertAt_eq entries path' fresh_front
  · simp only [State.linked]
    rw [rewired.rest]
    exact skipped.lrep
  · exact ordered.congr fun a _ => rewired.same a
  · simp only [State.linked]
    rw [rewired.rest]
    simp only [skipped.nsegs, length_append, length_cons]
    omega
  · rw [rewired.doubly skipped.holds]
    exact skipped.doubly.link fresh
  · exact skipped.holds.insert ordered.nodup newlev

theorem rewired_last {prev : Option ℕ} (is_last : prev = front.getLast?) :
    Rewired s ({ s with tail := some new }.modify new fun seg => { seg with prev := prev }) front
      new [] := by
  refine ⟨rfl, sameAreas_modify (fun _ => ⟨rfl, rfl⟩) fun _ => ⟨rfl, rfl⟩, ?_, rfl⟩
  intro a
  simp only [modify_seg, head?_nil, reduceCtorEq, if_false]
  split_ifs
  · exact is_last
  · rfl

theorem rewired_between {seg : ℕ} {prev : Option ℕ} (is_prev : prev = front.getLast?)
    (distinct : seg ≠ new) :
    Rewired s ((s.modify new fun new => { new with prev := prev }).modify seg fun old =>
      { old with prev := some new }) front new (seg :: back) := by
  refine ⟨rfl, sameAreas_modify (sameAreas_modify (fun _ => ⟨rfl, rfl⟩) fun _ => ⟨rfl, rfl⟩)
    fun _ => ⟨rfl, rfl⟩,
    ?_, rfl⟩
  intro a
  simp only [modify_seg, head?_cons, some.injEq]
  by_cases is_seg : a = seg
  · rw [if_pos is_seg, if_neg (fun is_new => distinct (is_seg.symm.trans is_new)), if_pos is_seg]
  · rw [if_neg is_seg, if_neg is_seg]
    split_ifs
    · exact is_prev
    · rfl

/-- What `ssl_insert` returns and leaves behind. -/
inductive SslInserted (s : State) (l : List ℕ) (new : ℕ) : Option (Bool × State) → Prop
  | refused {a : ℕ} {spath : ℕ → Option Ssl} {d : Skips ℕ} (a_mem : a ∈ l)
      (overlaps : Overlaps s a new)
      (skipped : Skipped { s with spath } l d) (path : Path { s with spath } l d) :
      SslInserted s l new (some (false, { s with spath }))
  | added {front back : List ℕ} {s' : State} {d : Skips ℕ} (split : l = front ++ back)
      (ordered : Ordered s (front ++ new :: back)) (skipped : Skipped s' (front ++ new :: back) d)
      (path : PathAt s' d front) (same : SameAreas s s')
      (prev : ∀ a, a ∉ l → a ≠ new → (s'.seg a).prev = (s.seg a).prev) :
      SslInserted s l new (some (true, s'))

/-- The neighbours are set, and the rest is the same in all cases. -/
theorem Skipped.added {s₁ : State} (skipped : Skipped s (front ++ back) d) (path : PathAt s d front)
    (rewired : Rewired s s₁ front new back) (fresh : new ∉ front ++ back)
    (ordered : Ordered s (front ++ new :: back)) :
    SslInserted s (front ++ back) new ((sslInsertAt s₁ new).map fun s => (true, s)) := by
  obtain ⟨s', d', inserts, skipped', path', same⟩ := skipped.insertAt path rewired fresh ordered
  rw [inserts, map_some]
  refine .added rfl ordered skipped' path' ?_ ?_
  · intro a
    rw [same]
    exact rewired.same a
  · intro a outside distinct
    have not_next : some a ≠ back.head? := by
      intro is_next
      exact outside (mem_append_right _ (mem_of_head? is_next.symm))
    rw [same, rewired.prev a, if_neg distinct, if_neg not_next]

theorem SslInserted.of_spath {spath : ℕ → Option Ssl} {result : Option (Bool × State)}
    (inserted : SslInserted { s with spath } l new result) : SslInserted s l new result := by
  cases inserted with
  | refused a_mem overlaps skipped path => exact .refused a_mem overlaps skipped path
  | added split ordered skipped path same prev =>
    exact .added split ⟨ordered.size, ordered.order⟩ skipped path same prev

theorem Skipped.sslInsert (skipped : Skipped s l d) (path : Path s l d) (fresh : new ∉ l)
    (size : 0 < (s.seg new).size) : SslInserted s l new (sslInsert s new) := by
  obtain ⟨front, back, spath, rfl, splits, searched, path'⟩ :=
    sslSearch_eq skipped path (s.seg new).base true
  have skipped' := skipped.with_spath spath
  simp only [Seglist.sslInsert, searched, bind_some]
  refine @SslInserted.of_spath s _ new spath _ ?_
  have ordered := fun gap => (skipped.ordered.insert size splits gap)
  rcases back with _ | ⟨seg, back⟩
  · have ordered : Ordered { s with spath } (front ++ [new]) := by
      have := ordered fun a impossible => nomatch impossible
      exact ⟨this.size, this.order⟩
    rcases last : front.getLast? with _ | seg
    · have nothing : found (front ++ []) [] true = none := by simp [found, last]
      simp only [nothing]
      exact skipped'.added path' (rewired_last last.symm) fresh ordered
    · have is_last : found (front ++ []) [] true = some seg := by simp [found, last]
      have below : s.eaddr seg ≤ (s.seg new).base := splits.below seg (mem_of_getLast? last)
      simp only [is_last]
      rw [if_pos (show State.eaddr { s with spath } seg ≤ (s.seg new).base from below)]
      exact skipped'.added path' (rewired_last last.symm) fresh ordered
  · have is_seg : found (front ++ seg :: back) (seg :: back) true = some seg := rfl
    have above : (s.seg new).base < s.eaddr seg := splits.above seg mem_cons_self
    have seg_mem : seg ∈ front ++ seg :: back := by simp
    have distinct : seg ≠ new := fun same => fresh (same ▸ seg_mem)
    simp only [is_seg]
    rw [if_neg (show ¬ State.eaddr { s with spath } seg ≤ (s.seg new).base
      from Nat.not_le_of_lt above)]
    split_ifs with overlaps
    · have positive : (s.seg new).base < s.eaddr new := by
        simp only [State.eaddr]
        omega
      refine @SslInserted.refused { s with spath } _ _ seg spath d seg_mem ⟨?_, above⟩ skipped'
        (.inr ⟨front, _, rfl, path'⟩)
      have : (s.seg seg).base ≤ (s.seg new).base ∨ (s.seg seg).base < s.eaddr new := overlaps
      change (s.seg seg).base < s.eaddr new
      omega
    · have prev : (s.seg seg).prev = front.getLast? := skipped.doubly.neighbours.1
      refine skipped'.added path' (rewired_between prev distinct) fresh ?_
      have gap : ∀ a, (seg :: back).head? = some a → s.eaddr new ≤ (s.seg a).base := by
        rintro a ⟨⟩
        have apart : ¬ ((s.seg seg).base ≤ (s.seg new).base ∨ (s.seg seg).base < s.eaddr new) :=
          overlaps
        omega
      exact ⟨(ordered gap).size, (ordered gap).order⟩

/-! ### Removing -/

/-- The entries when a segment has been taken out on the levels below a number. -/
def unlinkedSsl (ssl : Ssl → Option (ℕ → Entry)) (place : ℕ → Ssl) (value : ℕ → Entry) (levels : ℕ)
    (p : Ssl) :
    Option (ℕ → Entry) :=
  (ssl p).map fun segs i => if i < levels ∧ p = place i then value i else segs i

theorem unlinkedSsl_zero (ssl : Ssl → Option (ℕ → Entry)) (place : ℕ → Ssl) (value : ℕ → Entry) :
    unlinkedSsl ssl place value 0 = ssl := by
  funext p
  simp [unlinkedSsl]

theorem unlinkedSsl_at {ssl : Ssl → Option (ℕ → Entry)} {place : ℕ → Ssl} {value : ℕ → Entry}
    {levels : ℕ} {p : Ssl} {segs : ℕ → Entry} (is_ssl : ssl p = some segs) :
    unlinkedSsl ssl place value levels p = some fun i => if i < levels ∧
      p = place i then value i else segs i := by
  rw [unlinkedSsl, is_ssl, map_some]

theorem unlinkedSsl_succ {place : ℕ → Ssl} {value : ℕ → Entry} {i : ℕ} {segs : ℕ → Entry}
    (is_ssl : s.ssl (place i) = some segs) :
    State.setEntry { s with ssl := unlinkedSsl s.ssl place value i } (place i) i (value i) =
      some { s with ssl := unlinkedSsl s.ssl place value (i + 1) } := by
  simp only [State.setEntry]
  rw [unlinkedSsl, is_ssl, map_some, map_some]
  refine congrArg some (congrArg (fun ssl => { s with ssl := ssl }) (funext fun p => ?_))
  rw [update_apply]
  split_ifs with is_place
  · rw [is_place, unlinkedSsl, is_ssl, map_some]
    refine congrArg some (funext fun j => ?_)
    rw [update_apply]
    by_cases here : j = i
    · rw [if_pos here, here, if_pos ⟨lt_succ_self i, rfl⟩]
    · rw [if_neg here]
      refine if_congr (and_congr_left fun _ => ?_) rfl rfl
      omega
  · rw [unlinkedSsl, unlinkedSsl]
    refine congrArg (fun f => Option.map f (s.ssl p)) (funext fun segs => funext fun j => ?_)
    refine if_congr ?_ rfl rfl
    constructor
    · exact fun both => ⟨by omega, both.2⟩
    · rintro ⟨lt, is_j⟩
      refine ⟨?_, is_j⟩
      by_contra outside
      have : j = i := by omega
      exact is_place (this ▸ is_j)

theorem Entry.seg_eq_of {next : Option ℕ} : Entry.of next = .seg a ↔ next = some a := by
  cases next with
  | none => simp [Entry.of]
  | some b => simp [Entry.of]

/-- The places in front of a segment lead to it on its levels and on no other. -/
theorem Skipped.next_eq_iff {x : ℕ} (skipped : Skipped s (front ++ x :: back) d) (i : ℕ) :
    d.next i (d.behind i front) = some x ↔ i ≤ d.level x := by
  obtain ⟨-, back_nodup, -⟩ := nodup_append.1 skipped.ordered.nodup
  rw [skipped.holds.next_behind i]
  constructor
  · intro is_ahead
    by_contra low
    have ahead_eq : d.ahead i (x :: back) = d.ahead i back := by simp [Skips.ahead, low]
    rw [ahead_eq] at is_ahead
    have x_mem := (mem_filter.1 (mem_of_head? is_ahead)).1
    exact (nodup_cons.1 back_nodup).1 x_mem
  · intro high
    simp [Skips.ahead, high]

theorem Skipped.place_mem {x : ℕ} (_ : Skipped s (front ++ x :: back) d) {i : ℕ}
    (is_place : d.behind i front = some a) : a ∈ front ++ x :: back :=
  mem_append_left _ (Skips.mem_of_behind is_place).1

/-- The loop of `ssl_remove`. -/
theorem sslUnlink_eq {x : ℕ} (skipped : Skipped s (front ++ x :: back) d) (path : PathAt s d front)
    {segs : ℕ → Entry} (is_x : s.ssl (some x) = some segs) {levels i : ℕ}
    (total : i + levels = s.hilevel + 1) (le : i ≤ d.level x + 1) :
    sslUnlink x levels i { s with ssl := unlinkedSsl s.ssl (fun i => d.behind i front) segs i } =
      some { s with
        ssl := unlinkedSsl s.ssl (fun i => d.behind i front) segs (d.level x + 1) } := by
  have x_level := skipped.level x (by simp)
  have top := skipped.hilevel
  have not_x : ∀ j, d.behind j front ≠ some x := by
    intro j is_place
    have x_front := (Skips.mem_of_behind is_place).1
    exact (nodup_append.1 skipped.ordered.nodup).2.2 x x_front x mem_cons_self rfl
  induction levels generalizing i with
  | zero =>
    have all : i = d.level x + 1 := by omega
    rw [sslUnlink, all]
  | succ levels ih =>
    have at_place := skipped.used (d.behind i front) (fun a => skipped.place_mem) i
      (by omega) Skips.reaches_behind
    obtain ⟨place_segs, is_place, entry⟩ := map_eq_some_iff.1 at_place
    have unlinked_place : unlinkedSsl s.ssl (fun i => d.behind i front) segs i (d.behind i front) =
        some fun j => if j < i ∧ d.behind i front = d.behind j front then segs j else
            place_segs j := by
      rw [unlinkedSsl, is_place, map_some]
    have unlinked_x : unlinkedSsl s.ssl (fun i => d.behind i front) segs i (some x) =
        some segs := by
      rw [unlinkedSsl, is_x, map_some]
      refine congrArg some (funext fun j => if_neg ?_)
      exact fun both => not_x j both.2.symm
    rw [sslUnlink]
    simp only [path i (by omega), bind_some, unlinked_place, Nat.lt_irrefl, false_and,
      if_false, entry]
    by_cases high : i ≤ d.level x
    · have leads := (skipped.next_eq_iff i).2 high
      rw [if_neg (not_not_intro (Entry.seg_eq_of.2 leads))]
      simp only [unlinked_x, bind_some]
      rw [unlinkedSsl_succ is_place, bind_some]
      exact ih (by omega) (by omega)
    · have leads := mt (skipped.next_eq_iff i).1 high
      rw [if_pos (mt Entry.seg_eq_of.1 leads)]
      have all : i = d.level x + 1 := by omega
      rw [all]

theorem lowered_le (head : ℕ → Entry) (hilev : ℕ) : lowered head hilev ≤ hilev := by
  induction hilev with
  | zero => exact Nat.le_refl 0
  | succ hilev ih =>
    rw [lowered]
    split_ifs
    · omega
    · exact Nat.le_refl _

theorem null_of_lowered {head : ℕ → Entry} {hilev i : ℕ} (above : lowered head hilev < i)
    (le : i ≤ hilev) :
    head i = .null := by
  induction hilev with
  | zero => omega
  | succ hilev ih =>
    rw [lowered] at above
    split_ifs at above with null
    · by_cases here : i = hilev + 1
      · rw [here]
        exact null
      · exact ih above (by omega)
    · omega

/-- The entries with a segment taken out. -/
theorem Entries.erase {x : ℕ} (skipped : Skipped s (front ++ x :: back) d) {segs head : ℕ → Entry}
    (is_x : s.ssl (some x) = some segs)
    (is_head : unlinkedSsl s.ssl (fun i => d.behind i front) segs (d.level x + 1) none = some head)
    (hilevel : s'.hilevel = lowered head s.hilevel)
    (is_ssl : ∀ p, p ≠ some x →
      s'.ssl p = unlinkedSsl s.ssl (fun i => d.behind i front) segs (d.level x + 1) p) :
    Entries s' (front ++ back) (d.erase front x) := by
  have nodup := skipped.ordered.nodup
  have top := skipped.hilevel
  have lower := lowered_le head s.hilevel
  have x_mem : x ∈ front ++ x :: back := by simp
  have x_apart : x ∉ front ++ back := (nodup_middle.1 nodup |> nodup_cons.1).1
  have mem_old : ∀ {a}, a ∈ front ++ back → a ∈ front ++ x :: back := by
    intro a a_mem
    simp only [mem_append, mem_cons] at a_mem ⊢
    tauto
  have entry_x : ∀ i < nlevels, i ≤ d.level x → segs i = Entry.of (d.next i (some x)) := by
    intro i lt reaches
    have used := skipped.used (some x) (by rintro a ⟨⟩; exact x_mem) i lt
      (by rintro a ⟨⟩; exact reaches)
    rwa [State.entry, is_x, map_some, some.injEq] at used
  have used : ∀ p : Ssl, (∀ a, p = some a → a ∈ front ++ back) → ∀ i < nlevels, d.Reaches i p →
      s'.entry p i = some (Entry.of ((d.erase front x).next i p)) := by
    intro p p_mem i lt reaches
    have distinct : p ≠ some x := fun is_x => x_apart (p_mem x is_x)
    obtain ⟨p_segs, is_p, entry⟩ :=
      map_eq_some_iff.1 (skipped.used p (fun a is_a => mem_old (p_mem a is_a)) i lt reaches)
    rw [State.entry, is_ssl p distinct, unlinkedSsl, is_p, map_some, map_some]
    simp only [Skips.erase, Nat.lt_succ_iff]
    split_ifs with both
    · rw [entry_x i lt both.1]
    · rw [entry]
  refine ⟨used, ?_, ?_, by omega⟩
  · intro a a_mem i lt low
    have low : d.level a < i := low
    have distinct : some a ≠ some x := by
      rintro ⟨⟩
      exact x_apart a_mem
    have not_place : some a ≠ d.behind i front := by
      intro same
      have reaches := (Skips.mem_of_behind same.symm).2
      omega
    obtain ⟨a_segs, is_a, entry⟩ := map_eq_some_iff.1 (skipped.unused a (mem_old a_mem) i lt low)
    rw [State.entry, is_ssl _ distinct, unlinkedSsl, is_a, map_some, map_some, ← entry]
    exact congrArg some (if_neg fun both => not_place both.2)
  · intro a a_mem
    change d.level a ≤ s'.hilevel
    rw [hilevel]
    by_contra high
    have a_level := skipped.level a (mem_old a_mem)
    -- The head leads somewhere on the level of the segment.
    have null := null_of_lowered (Nat.lt_of_not_le high) a_level
    have leads := used none (fun a impossible => nomatch impossible) (d.level a)
      (by omega) Skips.reaches_none
    rw [State.entry, is_ssl none (by simp), is_head, map_some, null, some.injEq] at leads
    have nothing : (d.erase front x).next (d.level a) none = none := by
      cases is_next : (d.erase front x).next (d.level a) none with
      | none => rfl
      | some b => rw [is_next] at leads; cases leads
    have held := (skipped.holds.erase nodup) [] (front ++ back) rfl (d.level a) Skips.reaches_none
    rw [getLast?_nil, nothing] at held
    exact Skips.ahead_eq_none.1 held.symm a a_mem (Nat.le_refl _)

theorem Skipped.doubly_erase {x : ℕ} (skipped : Skipped s (front ++ x :: back) d)
    (prev : ∀ a, (s'.seg a).prev = if some a = back.head? then front.getLast? else (s.seg a).prev)
    (tail : s'.tail = if back.head? = none then front.getLast? else s.tail) :
    (s'.doubly (d.erase front x)).Holds (front ++ back) := by
  have x_apart : x ∉ front ++ back := (nodup_cons.1 (nodup_middle.1 skipped.ordered.nodup)).1
  have behind : d.behind 0 front = front.getLast? := Skips.behind_eq_getLast? fun _ _ => zero_le _
  have x_next : d.next 0 (some x) = back.head? := skipped.doubly.neighbours.2
  refine skipped.doubly.unlink.congr ?_ ?_ ?_
  · intro a a_mem
    have distinct : a ≠ x := fun same => x_apart (same ▸ a_mem)
    simp only [State.doubly, Doubly.unlink, Skips.erase, zero_le, true_and, behind, x_next,
      if_neg distinct]
    exact prev a
  · simp only [State.doubly, Doubly.unlink, Skips.erase, zero_le, true_and, behind, x_next, eq_comm]
  · exact tail

/-- The neighbours know each other, and the segment gives up its entries. -/
theorem Skipped.erased {x : ℕ} (skipped : Skipped s (front ++ x :: back) d)
    (path : PathAt s d front)
    {segs head : ℕ → Entry} (is_x : s.ssl (some x) = some segs)
    (is_head : unlinkedSsl s.ssl (fun i => d.behind i front) segs (d.level x + 1) none = some head)
    (rest : s' = { s with
      seg := s'.seg, tail := s'.tail
      ssl := unlinkedSsl s.ssl (fun i => d.behind i front) segs (d.level x + 1) })
    (same : SameAreas s s')
    (prev : ∀ a, (s'.seg a).prev = if some a = back.head? then front.getLast? else (s.seg a).prev)
    (tail : s'.tail = if back.head? = none then front.getLast? else s.tail) :
    Skipped (s'.forget x head) (front ++ back) (d.erase front x) ∧
      PathAt (s'.forget x head) (d.erase front x) front ∧ SameAreas s (s'.forget x head) := by
  have hilevel : (s'.forget x head).hilevel = lowered head s.hilevel := by
    rw [rest]
    rfl
  refine ⟨⟨?_, ?_, ?_, ?_, ?_, skipped.holds.erase skipped.ordered.nodup⟩, ?_, same⟩
  · refine Entries.erase skipped is_x is_head hilevel fun p distinct => ?_
    rw [rest]
    exact update_of_ne distinct _ _
  · rw [rest]
    exact skipped.lrep
  · have fewer : List.Sublist (front ++ back) (front ++ x :: back) :=
      Sublist.append_left (sublist_cons_self x back) front
    exact (skipped.ordered.sublist fewer).congr fun a _ => same a
  · rw [rest]
    simp only [State.forget, skipped.nsegs, length_append, length_cons]
    omega
  · exact skipped.doubly_erase prev tail
  · intro i le
    have le : i ≤ s.hilevel := by
      have lower := lowered_le head s.hilevel
      omega
    rw [rest]
    exact path i le

/-- The segment is taken out of the skip list. -/
theorem Skipped.removeAt {x : ℕ} (skipped : Skipped s (front ++ x :: back) d)
    (path : PathAt s d front) :
    ∃ s' d', sslRemoveAt s x = some s' ∧ Skipped s' (front ++ back) d' ∧ PathAt s' d' front ∧
      SameAreas s s' := by
  have x_mem : x ∈ front ++ x :: back := by simp
  obtain ⟨segs, is_x⟩ :=
    skipped.exists_ssl (show ∀ a, some x = some a → _ by rintro a ⟨⟩; exact x_mem)
  obtain ⟨head, is_head⟩ :=
    skipped.exists_ssl (show ∀ a, none = some a → _ from fun a impossible => nomatch impossible)
  have x_prev : (s.seg x).prev = front.getLast? := skipped.doubly.neighbours.1
  have x_next : d.next 0 (some x) = back.head? := skipped.doubly.neighbours.2
  have unlinks := @sslUnlink_eq s front back d x skipped path segs is_x (s.hilevel + 1) 0
    (Nat.zero_add _)
    (zero_le _)
  rw [unlinkedSsl_zero] at unlinks
  have is_head' :=
    @unlinkedSsl_at s.ssl (fun i => d.behind i front) segs (d.level x + 1) none head is_head
  have link : State.link
    { s with ssl := unlinkedSsl s.ssl (fun i => d.behind i front) segs (d.level x + 1) }
      (some x) 0 = some back.head? := by
    refine link_of_entry ?_
    have lowest := skipped.used (some x) (by rintro a ⟨⟩; exact x_mem) 0 (by decide) fun _ _ =>
      zero_le _
    rw [State.entry, is_x, map_some, x_next] at lowest
    rw [← lowest]
    simp only [State.entry, unlinkedSsl_at is_x, map_some]
    refine congrArg some (if_neg fun both => ?_)
    have x_front := (Skips.mem_of_behind both.2.symm).1
    exact (nodup_append.1 skipped.ordered.nodup).2.2 x x_front x mem_cons_self rfl
  rw [sslRemoveAt, unlinks, bind_some, link, bind_some]
  rcases back with _ | ⟨next, back⟩
  · simp only [head?_nil, is_head', map_some]
    refine ⟨_, d.erase front x, rfl,
      skipped.erased path is_x is_head' rfl (fun a => ⟨rfl, rfl⟩) ?_ x_prev⟩
    exact fun a => rfl
  · simp only [head?_cons, State.modify, is_head', map_some]
    refine ⟨_, d.erase front x, rfl, skipped.erased path is_x is_head' rfl ?_ ?_ rfl⟩
    · intro a
      simp only [update_apply]
      split_ifs with is_next
      · rw [is_next]
        exact ⟨rfl, rfl⟩
      · exact ⟨rfl, rfl⟩
    · intro a
      simp only [update_apply, head?_cons, some.injEq]
      split_ifs
      · exact x_prev
      · rfl

/-- What `ssl_remove` returns and leaves behind. -/
inductive SslRemoved (s : State) (l : List ℕ) (addr : ℕ) : Option (Option ℕ × State) → Prop
  | missing {spath : ℕ → Option Ssl} {d : Skips ℕ} (absent : ∀ a ∈ l, (s.seg a).base ≠ addr)
      (skipped : Skipped { s with spath } l d) (path : Path { s with spath } l d) :
      SslRemoved s l addr (some (none, { s with spath }))
  | removed {front back : List ℕ} {x : ℕ} {s' : State}
      {d : Skips ℕ} (split : l = front ++ x :: back)
      (base : (s.seg x).base = addr) (skipped : Skipped s' (front ++ back) d)
        (path : PathAt s' d front)
      (same : SameAreas s s') : SslRemoved s l addr (some (some x, s'))

theorem Skipped.sslRemove (skipped : Skipped s l d) (path : Path s l d) (addr : ℕ) :
    SslRemoved s l addr (sslRemove s addr) := by
  obtain ⟨front, back, spath, rfl, splits, searched, path'⟩ := sslSearch_eq skipped path addr false
  have skipped' := skipped.with_spath spath
  have keeps : Path { s with spath } (front ++ back) d := .inr ⟨front, back, rfl, path'⟩
  simp only [Seglist.sslRemove, searched, bind_some]
  rcases back with _ | ⟨x, back⟩
  · exact .missing (skipped.ordered.absent splits fun a impossible => nomatch impossible)
      skipped' keeps
  · have is_x : found (front ++ x :: back) (x :: back) false = some x := rfl
    simp only [is_x]
    split_ifs with elsewhere
    · refine .missing (skipped.ordered.absent splits ?_) skipped' keeps
      rintro a ⟨⟩
      exact elsewhere
    · obtain ⟨s', d', removes, skipped'', path'', same⟩ := skipped'.removeAt path'
      rw [removes, map_some]
      exact .removed rfl (not_not.1 elsewhere) skipped'' path'' same

end Sol25.Seglist
