import Sol25.Seglist.Change
import Sol25.Seglist.Linked

/-!
# The segments of an address space over whole runs

An address space is a set of segments.  Each call does to the set what its name says and returns
what the set alone determines, whichever representation the list has and whatever the caches hold.
-/

namespace Sol25.Seglist

open List Option Function

variable {s s' : State} {l front back : List ℕ} {d : Skips ℕ} {new : ℕ}

/-! ### Both representations -/

/-- The address space holds the segments as a linked list or as a skip list. -/
inductive Held (s : State) (l : List ℕ) : Prop
  | linked (linked : Linked s l)
  | skipped (d : Skips ℕ) (skipped : Skipped s l d) (path : Path s l d)

theorem Held.ordered (held : Held s l) : Ordered s l := by
  rcases held with linked | ⟨d, skipped, -⟩
  · exact linked.ordered
  · exact skipped.ordered

theorem SameAreas.eaddr (same : SameAreas s s') (a : ℕ) : s'.eaddr a = s.eaddr a := by
  rw [State.eaddr, State.eaddr, (same a).1, (same a).2]

theorem SameAreas.trans {s'' : State} (first : SameAreas s s') (second : SameAreas s' s'') :
    SameAreas s s'' :=
  fun a => ⟨(second a).1.trans (first a).1, (second a).2.trans (first a).2⟩

theorem SameAreas.symm (same : SameAreas s s') : SameAreas s' s :=
  fun a => ⟨(same a).1.symm, (same a).2.symm⟩

theorem SameAreas.overlaps (same : SameAreas s s') {a b : ℕ} (overlaps : Overlaps s' a b) :
    Overlaps s a b := by
  rwa [Overlaps, same.eaddr, same.eaddr, (same a).1, (same b).1] at overlaps

/-! ### The switch to a skip list -/

/-- The segments that are left are put in front of those that the skip list has. -/
theorem mutateLoop_eq {part done : List ℕ} (skipped : Skipped s done d) (path : Path s done d)
    (prevs : ∀ front a back, part = front ++ a :: back → (s.seg a).prev = front.getLast?)
    (ordered : Ordered s (part ++ done)) {fuel : ℕ} (enough : part.length ≤ fuel) :
    ∃ s' d', mutateLoop fuel part.getLast? s = some s' ∧ Skipped s' (part ++ done) d' ∧
      Path s' (part ++ done) d' ∧ SameAreas s s' := by
  induction part using List.reverseRecOn generalizing s done d fuel with
  | nil =>
    refine ⟨s, d, ?_, skipped, path, fun a => ⟨rfl, rfl⟩⟩
    cases fuel <;> rfl
  | append_singleton part car ih =>
    obtain ⟨fuel, rfl⟩ : ∃ n, fuel = n + 1 := ⟨fuel - 1, by
      simp only [length_append, length_singleton] at enough
      omega⟩
    rw [append_assoc, singleton_append] at ordered
    have cdr : (s.seg car).prev = part.getLast? := prevs part car [] rfl
    obtain ⟨-, car_order, part_apart⟩ := pairwise_append.1 ordered.order
    have nodup := nodup_append.1 ordered.nodup
    have fresh : car ∉ done := (nodup_cons.1 nodup.2.1).1
    have size := ordered.size car (by simp)
    rw [getLast?_concat, mutateLoop, cdr]
    simp only
    have inserted := skipped.sslInsert path fresh size
    generalize Seglist.sslInsert s car = result at inserted ⊢
    cases inserted with
    | refused a_mem overlaps =>
      have before := (pairwise_cons.1 car_order).1 _ a_mem
      have := overlaps.1
      omega
    | @added front back s₁ d₁ split ordered₁ skipped₁ path₁ same prev =>
      -- The segment lies below all that the skip list has.
      have nothing : front = [] := by
        rcases front with _ | ⟨a, front⟩
        · rfl
        · have a_mem : a ∈ done := by
            rw [split]
            exact mem_append_left _ mem_cons_self
          have before := (pairwise_cons.1 car_order).1 a a_mem
          have behind := (pairwise_append.1 ordered₁.order).2.2 a mem_cons_self car
            mem_cons_self
          have positive := base_lt_eaddr skipped.ordered a_mem
          have positive' := base_lt_eaddr ordered (show car ∈ part ++ car :: done by simp)
          omega
      subst nothing
      have split : done = back := split
      subst split
      have prevs₁ : ∀ front a back, part = front ++ a :: back →
          (s₁.seg a).prev = front.getLast? := by
        intro front a back split
        have a_mem : a ∈ part := by
          rw [split]
          simp
        rw [prev a]
        · exact prevs front a (back ++ [car]) (by rw [split]; simp)
        · exact fun in_done => nodup.2.2 a a_mem a (mem_cons_of_mem _ in_done) rfl
        · exact fun is_car => nodup.2.2 a a_mem car mem_cons_self is_car
      have enough₁ : part.length ≤ fuel := by
        simp only [length_append, length_singleton] at enough
        omega
      obtain ⟨s', d', loops, skipped', path', same'⟩ :=
        ih skipped₁ (.inr ⟨[], _, rfl, path₁⟩) prevs₁
        (ordered.congr fun a _ => same a) enough₁
      rw [bind_some]
      exact ⟨s', d', loops, by simpa using skipped', by simpa using path', same.trans same'⟩

theorem Linked.asMutateSeglist (linked : Linked s l) :
    ∃ s' d, asMutateSeglist s = some s' ∧ Skipped s' l d ∧ Path s' l d ∧ SameAreas s s' := by
  have tail : s.tail = l.getLast? := linked.links.last
  -- An empty skip list.
  have skipped : Skipped
      { s with
        tail := none, ssl := update s.ssl none (some fun _ => .null),
        spath := fun _ => none
        lrep := .skiplist, nsegs := 0 } [] ⟨fun _ => 0, fun _ _ => none⟩ := by
    refine ⟨⟨?_, fun _ impossible => (nomatch impossible), fun _ impossible => (nomatch impossible),
      linked.hilevel⟩,
      rfl, Ordered.nil, rfl, ⟨nodup_nil, trivial, rfl, rfl⟩, ?_⟩
    · intro ssl inside i _ _
      cases ssl with
      | none => simp only [State.entry, update_self, map_some, Entry.of]
      | some a => cases inside a rfl
    · intro front back split i _
      obtain ⟨rfl, rfl⟩ := append_eq_nil_iff.1 split.symm
      rfl
  have prevs : ∀ front a back, l = front ++ a :: back → (s.seg a).prev = front.getLast? := by
    rintro front a back rfl
    exact linked.links.neighbours.1
  obtain ⟨s', d', loops, skipped', path', same⟩ := @mutateLoop_eq _ _ l [] skipped (.inl rfl) prevs
      (by simpa using ⟨linked.ordered.size, linked.ordered.order⟩)
      s.nsegs (le_of_eq linked.nsegs.symm)
  rw [append_nil] at skipped' path'
  refine ⟨s', d', ?_, skipped', path', same⟩
  rw [Seglist.asMutateSeglist, tail, loops]

/-! ### Calls -/

/-- What `as_addseg` returns and leaves behind. -/
inductive Added (s : State) (l : List ℕ) (new : ℕ) : Option (Bool × State) → Prop
  | refused {a : ℕ} {s' : State} (a_mem : a ∈ l) (overlaps : Overlaps s a new) (held : Held s' l)
      (same : SameAreas s s') : Added s l new (some (false, s'))
  | added {front back : List ℕ} {s' : State} (split : l = front ++ back)
      (ordered : Ordered s (front ++ new :: back)) (held : Held s' (front ++ new :: back))
      (same : SameAreas s s') : Added s l new (some (true, s'))

theorem Skipped.added_of_same {s₀ : State} (skipped : Skipped s l d) (path : Path s l d)
    (fresh : new ∉ l) (size : 0 < (s.seg new).size) (same : SameAreas s₀ s) :
    Added s₀ l new (Seglist.sslInsert s new) := by
  have inserted := skipped.sslInsert path fresh size
  generalize Seglist.sslInsert s new = result at inserted
  cases inserted with
  | refused a_mem overlaps skipped' path' =>
    exact .refused a_mem (same.overlaps overlaps) (.skipped _ skipped' path') same
  | added split ordered skipped' path' same' _ =>
    exact .added split (ordered.congr fun a _ => same.symm a)
      (.skipped _ skipped' (.inr ⟨_, _, rfl, path'⟩))
      (same.trans same')

theorem Held.asAddseg (held : Held s l) (fresh : new ∉ l) (size : 0 < (s.seg new).size) :
    Added s l new (asAddseg s new) := by
  rcases held with linked | ⟨d, skipped, path⟩
  · by_cases mutates : s.thresh ≤ s.nsegs ∧ s.lrep ≠ .skiplist ∧ !s.kas
    · obtain ⟨s₁, d, mutated, skipped, path, same⟩ := linked.asMutateSeglist
      rw [Seglist.asAddseg, if_pos mutates, mutated, bind_some]
      simp only [skipped.lrep]
      exact skipped.added_of_same path fresh (by rwa [(same new).2]) same
    · rw [Seglist.asAddseg, if_neg mutates, bind_some]
      simp only [linked.lrep]
      have added := linked.listAddseg fresh size
      generalize Seglist.listAddseg s new = result at added
      cases added with
      | refused a_mem overlaps linked' same => exact .refused a_mem overlaps (.linked linked') same
      | added split ordered linked' same => exact .added split ordered (.linked linked') same
  · rw [Seglist.asAddseg, if_neg (fun mutates => mutates.2.1 skipped.lrep), bind_some]
    simp only [skipped.lrep]
    exact skipped.added_of_same path fresh size fun a => ⟨rfl, rfl⟩

/-- What `as_removeseg` returns and leaves behind. -/
inductive Removed (s : State) (l : List ℕ) (addr : ℕ) : Option (Option ℕ × State) → Prop
  | missing {s' : State} (absent : ∀ a ∈ l, (s.seg a).base ≠ addr) (held : Held s' l)
      (same : SameAreas s s') :
      Removed s l addr (some (none, s'))
  | removed {front back : List ℕ} {x : ℕ} {s' : State} (split : l = front ++ x :: back)
      (base : (s.seg x).base = addr) (held : Held s' (front ++ back)) (same : SameAreas s s') :
      Removed s l addr (some (some x, s'))

theorem Held.asRemoveseg (held : Held s l) (addr : ℕ) : Removed s l addr (asRemoveseg s addr) := by
  rcases held with linked | ⟨d, skipped, path⟩
  · have removed := linked.asRemoveseg addr
    generalize Seglist.asRemoveseg s addr = result at removed
    cases removed with
    | missing absent linked' same => exact .missing absent (.linked linked') same
    | removed split base linked' same => exact .removed split base (.linked linked') same
  · rw [Seglist.asRemoveseg, skipped.lrep]
    have removed := skipped.sslRemove path addr
    generalize Seglist.sslRemove s addr = result at removed
    cases removed with
    | missing absent skipped' path' =>
      exact .missing absent (.skipped _ skipped' path') fun a => ⟨rfl, rfl⟩
    | removed split base skipped' path' same =>
      exact .removed split base (.skipped _ skipped' (.inr ⟨_, _, rfl, path'⟩)) same

theorem Held.asFindseg (held : Held s l) (addr : ℕ) (tail : Bool) :
    ∃ front back s', l = front ++ back ∧ Splits s addr front back ∧
      asFindseg s addr tail = some (found l back tail, s') ∧ Held s' l ∧ SameAreas s s' := by
  rcases held with linked | ⟨d, skipped, path⟩
  · obtain ⟨front, back, seglast, split, splits, finds, inside⟩ := linked.asFindseg addr tail
    exact ⟨front, back, _, split, splits, finds, .linked (linked.with_seglast inside),
      fun a => ⟨rfl, rfl⟩⟩
  · obtain ⟨front, back, spath, split, splits, finds, path'⟩ := sslSearch_eq skipped path addr tail
    have dispatch : Seglist.asFindseg s addr tail = sslSearch s addr tail := by
      simp only [Seglist.asFindseg, skipped.lrep]
    refine ⟨front, back,
      { s with spath }, split, splits, dispatch.trans finds, ?_, fun a => ⟨rfl, rfl⟩⟩
    exact .skipped d (skipped.with_spath spath) (.inr ⟨front, back, split, path'⟩)

/-- A segment that the address space does not have is set up. -/
theorem Held.set_up (held : Held s l) {p : ℕ} (fresh : p ∉ l) (base size : ℕ) :
    Held (s.modify p fun seg => { seg with base, size }) l := by
  have seg_eq : ∀ a ∈ l, (s.modify p fun seg => { seg with base, size }).seg a = s.seg a := by
    intro a a_mem
    rw [modify_seg, if_neg]
    rintro rfl
    exact fresh a_mem
  have same : ∀ a ∈ l,
    ((s.modify p fun seg => { seg with base, size }).seg a).base = (s.seg a).base ∧
      ((s.modify p fun seg => { seg with base, size }).seg a).size = (s.seg a).size := by
    intro a a_mem
    rw [seg_eq a a_mem]
    exact ⟨rfl, rfl⟩
  rcases held with linked | ⟨d, skipped, path⟩
  · refine .linked ⟨linked.lrep, linked.ordered.congr same, linked.nsegs,
      linked.links.congr ?_ rfl rfl,
      linked.seglast, linked.hilevel⟩
    intro a a_mem
    simp only [State.links, seg_eq a a_mem, and_self]
  · refine .skipped d ⟨⟨skipped.used, skipped.unused, skipped.level, skipped.hilevel⟩, skipped.lrep,
      skipped.ordered.congr same, skipped.nsegs, skipped.doubly.congr ?_ rfl rfl,
        skipped.holds⟩ path
    intro a a_mem
    simp only [State.doubly, seg_eq a a_mem, and_self]

/-! ### Sets of segments -/

/-- A segment and where it lies. -/
structure Area where
  p : ℕ
  base : ℕ
  size : ℕ
deriving Repr, DecidableEq

namespace Area

/-- Where a segment ends. -/
def eaddr (a : Area) : ℕ := a.base + a.size

def Overlaps (a b : Area) : Prop := a.base < b.eaddr ∧ b.base < a.eaddr

end Area

/-- What a call does to a set of segments, and what it returns. -/
inductive Spec (held : Set Area) : Op → Result → Set Area → Prop
  | added {p base size : ℕ} (apart : ∀ a ∈ held, ¬ a.Overlaps ⟨p, base, size⟩) :
      Spec held (.addseg p base size) .success (insert ⟨p, base, size⟩ held)
  | refused {p base size : ℕ} {a : Area} (a_mem : a ∈ held)
      (overlaps : a.Overlaps ⟨p, base, size⟩) :
      Spec held (.addseg p base size) .failure held
  | removed {a : Area} (a_mem : a ∈ held) : Spec held (.removeseg a.base) (.seg a.p) (held \ {a})
  | missing {addr : ℕ} (absent : ∀ a ∈ held, a.base ≠ addr) : Spec held (.removeseg addr) .null held
  | lowest {addr : ℕ} {tail : Bool} {a : Area} (a_mem : a ∈ held) (above : addr < a.eaddr)
      (lowest : ∀ b ∈ held, addr < b.eaddr → a.base ≤ b.base) :
        Spec held (.findseg addr tail) (.seg a.p) held
  | tail {addr : ℕ} {a : Area} (below : ∀ b ∈ held, b.eaddr ≤ addr) (a_mem : a ∈ held)
      (highest : ∀ b ∈ held, b.base ≤ a.base) : Spec held (.findseg addr true) (.seg a.p) held
  | nothing {addr : ℕ} {tail : Bool} (below : ∀ b ∈ held, b.eaddr ≤ addr)
      (no_tail : tail = true → held = ∅) :
      Spec held (.findseg addr tail) .null held

/-- What a sequence of calls does and returns. -/
inductive SpecRun : Set Area → List Op → List Result → Set Area → Prop
  | nil (held : Set Area) : SpecRun held [] [] held
  | cons {held held' held'' : Set Area} {op : Op} {ops : List Op} {result : Result}
      {results : List Result}
      (first : Spec held op result held') (rest : SpecRun held' ops results held'') :
      SpecRun held (op :: ops) (result :: results) held''

/-- The caller adds a segment of its own, which is not empty and does not wrap around. -/
def Op.Valid (held : Set Area) : Op → Prop
  | .addseg p base size => (∀ a ∈ held, a.p ≠ p) ∧ 0 < size ∧ base + size < 2 ^ 32
  | .removeseg addr => addr < 2 ^ 32
  | .findseg addr _ => addr < 2 ^ 32

/-- Every call of a sequence is valid when it is made. -/
def ValidRun : Set Area → List Op → Prop
  | _, [] => True
  | held, op :: ops => op.Valid held ∧ ∀ result held', Spec held op result held' →
      ValidRun held' ops

/-- `AS_SEGP` -/
def State.segp (s : State) (list : Option ℕ) (ssl : Ssl) : Option ℕ :=
  match s.lrep with
  | .linkedlist => list
  | .skiplist => (s.link ssl 0).join

/-- The list of segments, as other code goes through it. -/
def State.chain (s : State) : Doubly ℕ :=
  ⟨fun p => s.segp (s.seg p).next (some p), fun p => (s.seg p).prev, s.segp s.list none, s.tail⟩

/-- A segment in memory and where it lies. -/
def State.area (s : State) (p : ℕ) : Area := ⟨p, (s.seg p).base, (s.seg p).size⟩

/-- The address space is a set of segments: they are on the list in rising order, none overlaps
another, both directions agree, and the number is right. -/
structure Represents (s : State) (held : Set Area) (l : List ℕ) : Prop where
  mem : ∀ a, a ∈ held ↔ ∃ p ∈ l, s.area p = a
  ordered : Ordered s l
  chain : s.chain.Holds l
  nsegs : s.nsegs = l.length

/-- The segments of a list and where they lie. -/
def State.areas (s : State) (l : List ℕ) : Set Area := { a | ∃ p ∈ l, s.area p = a }

theorem Held.represents (held : Held s l) : Represents s (s.areas l) l := by
  refine ⟨fun a => Iff.rfl, held.ordered, ?_, ?_⟩
  · rcases held with linked | ⟨d, skipped, -⟩
    · refine linked.links.congr (fun a _ => ?_) ?_ rfl
      · simp only [State.chain, State.segp, linked.lrep, State.links, and_self]
      · simp only [State.chain, State.segp, linked.lrep, State.links]
    · refine skipped.doubly.congr (fun a a_mem => ?_) ?_ rfl
      · have entry := skipped.used (some a) (by rintro b ⟨⟩; exact a_mem) 0 (by decide) fun _ _ =>
          Nat.zero_le _
        simp only [State.chain, State.segp, skipped.lrep, State.doubly, link_of_entry entry,
          join_some, and_self]
      · have entry := skipped.used none (fun a impossible => by cases impossible) 0
          (by decide) Skips.reaches_none
        simp only [State.chain, State.segp, skipped.lrep, State.doubly, link_of_entry entry,
          join_some]
  · rcases held with linked | ⟨d, skipped, -⟩
    · exact linked.nsegs
    · exact skipped.nsegs

theorem areas_congr
    (same : ∀ p ∈ l, (s'.seg p).base = (s.seg p).base ∧ (s'.seg p).size = (s.seg p).size) :
    s'.areas l = s.areas l := by
  have area_eq : ∀ p ∈ l, s'.area p = s.area p := by
    intro p p_mem
    rw [State.area, State.area, (same p p_mem).1, (same p p_mem).2]
  refine Set.ext fun a => ⟨?_, ?_⟩
  · rintro ⟨p, p_mem, rfl⟩
    exact ⟨p, p_mem, (area_eq p p_mem).symm⟩
  · rintro ⟨p, p_mem, rfl⟩
    exact ⟨p, p_mem, area_eq p p_mem⟩

theorem SameAreas.areas (same : SameAreas s s') (l : List ℕ) : s'.areas l = s.areas l :=
  areas_congr fun p _ => same p

theorem areas_insert (s : State) (front back : List ℕ) (p : ℕ) :
    s.areas (front ++ p :: back) = insert (s.area p) (s.areas (front ++ back)) := by
  refine Set.ext fun a => ⟨?_, ?_⟩
  · rintro ⟨q, q_mem, rfl⟩
    by_cases is_p : q = p
    · exact .inl (congrArg s.area is_p)
    · exact .inr ⟨q, mem_of_ne_new q_mem is_p, rfl⟩
  · rintro (rfl | ⟨q, q_mem, rfl⟩)
    · exact ⟨p, by simp, rfl⟩
    · refine ⟨q, ?_, rfl⟩
      simp only [mem_append, mem_cons] at q_mem ⊢
      tauto

theorem areas_erase (s : State) {p : ℕ} (apart : p ∉ front ++ back) :
    s.areas (front ++ back) = s.areas (front ++ p :: back) \ {s.area p} := by
  rw [areas_insert]
  refine Set.ext fun a => ⟨?_, ?_⟩
  · rintro ⟨q, q_mem, rfl⟩
    refine ⟨.inr ⟨q, q_mem, rfl⟩, ?_⟩
    intro is_p
    have same : q = p := congrArg Area.p (Set.mem_singleton_iff.1 is_p)
    exact apart (same ▸ q_mem)
  · rintro ⟨rfl | inside, other⟩
    · exact (other rfl).elim
    · exact inside

theorem Held.step_addseg (held : Held s l) {p base size : ℕ}
    (valid : (Op.addseg p base size).Valid (s.areas l)) :
    ∃ result s' l', step s (.addseg p base size) = some (result, s') ∧
      Spec (s.areas l) (.addseg p base size) result (s'.areas l') ∧ Held s' l' := by
  obtain ⟨foreign, positive, -⟩ := valid
  have fresh : p ∉ l := fun p_mem => foreign _ ⟨p, p_mem, rfl⟩ rfl
  have held₁ := held.set_up fresh base size
  have area_p : (s.modify p fun seg => { seg with base, size }).area p = ⟨p, base, size⟩ := by
    rw [State.area, modify_seg, if_pos rfl]
  have areas_l : (s.modify p fun seg => { seg with base, size }).areas l = s.areas l := by
    refine areas_congr fun q q_mem => ?_
    rw [modify_seg, if_neg]
    · exact ⟨rfl, rfl⟩
    · rintro rfl
      exact fresh q_mem
  have size_p : 0 < ((s.modify p fun seg => { seg with base, size }).seg p).size := by
    rw [modify_seg, if_pos rfl]
    exact positive
  rw [Seglist.step, ← areas_l]
  have added := held₁.asAddseg fresh size_p
  generalize (s.modify p fun seg => { seg with base, size }) = s₁ at added area_p
  generalize Seglist.asAddseg s₁ p = result at added
  cases added with
  | refused a_mem overlaps held' same =>
    refine ⟨_, _, l, rfl, ?_, held'⟩
    rw [same.areas]
    exact .refused ⟨_, a_mem, rfl⟩ (by rw [← area_p]; exact overlaps)
  | added split ordered held' same =>
    refine ⟨_, _, _, rfl, ?_, held'⟩
    rw [same.areas, areas_insert, area_p, split]
    refine .added ?_
    rintro _ ⟨q, q_mem, rfl⟩
    rw [← area_p]
    exact ordered.not_overlaps q_mem

theorem Held.step_removeseg (held : Held s l) (addr : ℕ) :
    ∃ result s' l', step s (.removeseg addr) = some (result, s') ∧
      Spec (s.areas l) (.removeseg addr) result (s'.areas l') ∧ Held s' l' := by
  have removed := held.asRemoveseg addr
  have nodup := held.ordered.nodup
  rw [Seglist.step]
  generalize Seglist.asRemoveseg s addr = result at removed
  cases removed with
  | missing absent held' same =>
    refine ⟨_, _, l, rfl, ?_, held'⟩
    rw [same.areas]
    refine .missing ?_
    rintro _ ⟨q, q_mem, rfl⟩
    exact absent q q_mem
  | @removed front back x s' split base held' same =>
    refine ⟨_, _, _, rfl, ?_, held'⟩
    rw [split] at nodup ⊢
    rw [same.areas, areas_erase s (nodup_cons.1 (nodup_middle.1 nodup)).1, ← base]
    exact @Spec.removed _ (s.area x) ⟨x, by simp, rfl⟩

theorem Held.step_findseg (held : Held s l) (addr : ℕ) (tail : Bool) :
    ∃ result s' l', step s (.findseg addr tail) = some (result, s') ∧
      Spec (s.areas l) (.findseg addr tail) result (s'.areas l') ∧ Held s' l' := by
  have ordered := held.ordered
  obtain ⟨front, back, s', rfl, splits, finds, held', same⟩ := held.asFindseg addr tail
  refine ⟨_, s', front ++ back, by rw [Seglist.step, finds, map_some], ?_, held'⟩
  rw [same.areas]
  rcases back with _ | ⟨b, back⟩
  · have below : ∀ a ∈ s.areas (front ++ []), a.eaddr ≤ addr := by
      rintro _ ⟨q, q_mem, rfl⟩
      exact splits.below q (by simpa using q_mem)
    have found_eq : found (front ++ []) [] tail = if tail then front.getLast? else none := by
      rw [found, append_nil]
      rfl
    rw [found_eq]
    rw [append_nil] at below ordered ⊢
    cases tail with
    | false => exact .nothing below fun impossible => by cases impossible
    | true =>
      rw [if_pos rfl]
      rcases last : front.getLast? with _ | z
      · obtain rfl := getLast?_eq_none_iff.1 last
        refine .nothing below fun _ => ?_
        refine Set.eq_empty_of_forall_notMem ?_
        rintro _ ⟨q, q_mem, -⟩
        cases q_mem
      · refine @Spec.tail _ addr (s.area z) below ⟨z, mem_of_getLast? last, rfl⟩ ?_
        rintro _ ⟨q, q_mem, rfl⟩
        exact ordered.le_base last q_mem
  · have is_b : found (front ++ b :: back) (b :: back) tail = some b := by cases tail <;> rfl
    rw [is_b]
    refine @Spec.lowest _ addr tail (s.area b)
      ⟨b, by simp, rfl⟩ (splits.above b mem_cons_self) ?_
    rintro _ ⟨q, q_mem, rfl⟩ above
    rcases mem_append.1 q_mem with q_mem | q_mem
    · have below := splits.below q q_mem
      have above : addr < s.eaddr q := above
      omega
    · exact (ordered.sublist (sublist_append_right front _)).base_le rfl q_mem

theorem Held.step (held : Held s l) {op : Op} (valid : op.Valid (s.areas l)) :
    ∃ result s' l', step s op = some (result, s') ∧ Spec (s.areas l) op result (s'.areas l') ∧
      Held s' l' := by
  cases op with
  | addseg p base size => exact held.step_addseg valid
  | removeseg addr => exact held.step_removeseg addr
  | findseg addr tail => exact held.step_findseg addr tail

theorem Held.run (held : Held s l) {ops : List Op} (valid : ValidRun (s.areas l) ops) :
    ∃ results s' l', run s ops = some (results, s') ∧
      SpecRun (s.areas l) ops results (s'.areas l') ∧
      Held s' l' := by
  induction ops generalizing s l with
  | nil => exact ⟨[], s, l, rfl, .nil _, held⟩
  | cons op ops ih =>
    obtain ⟨result, s₁, l₁, steps, first, held₁⟩ := held.step valid.1
    obtain ⟨results, s', l', runs, rest, held'⟩ := ih held₁ (valid.2 _ _ first)
    refine ⟨result :: results, s', l', ?_, .cons first rest, held'⟩
    rw [Seglist.run, steps, bind_some]
    simp only [runs, map_some]

theorem held_asAlloc (kas : Bool) (thresh : ℕ) (seg : ℕ → Seg) (random : ℕ → ℕ) :
    Held (asAlloc kas thresh seg random) [] :=
  .linked ⟨rfl, Ordered.nil, rfl, ⟨nodup_nil, trivial, rfl, rfl⟩,
    fun _ impossible => (nomatch impossible),
    show 0 < nlevels by decide⟩

/-- Along every sequence of calls, every threshold and every sequence of random numbers, the calls
return what a set of segments determines, and the address space represents that set behind them. -/
theorem seglist_refines_set (kas : Bool) (thresh : ℕ) (seg : ℕ → Seg) (random : ℕ → ℕ)
    {ops : List Op} (valid : ValidRun ∅ ops) :
    ∃ results s' held l, run (asAlloc kas thresh seg random) ops = some (results, s') ∧
      SpecRun ∅ ops results held ∧ Represents s' held l := by
  have empty : (asAlloc kas thresh seg random).areas [] = ∅ := by
    refine Set.eq_empty_of_forall_notMem ?_
    rintro _ ⟨q, q_mem, -⟩
    cases q_mem
  obtain ⟨results, s', l', runs, spec, held⟩ :=
    (held_asAlloc kas thresh seg random).run (show ValidRun _ ops by rwa [empty])
  rw [empty] at spec
  exact ⟨results, s', s'.areas l', l', runs, spec, held.represents⟩

/-- Two segments, the second of which makes the list a skip list, and a search. -/
theorem seglist_refines_set_two :
    ∃ results s' held l,
      run (asAlloc false 1 (fun _ => ⟨0, 0, none, none⟩) fun _ => 0)
          [.addseg 1 8192 4096, .addseg 2 0 4096, .findseg 4096 false] = some (results, s') ∧
        SpecRun ∅ [.addseg 1 8192 4096, .addseg 2 0 4096, .findseg 4096 false] results held ∧
        Represents s' held l := by
  refine seglist_refines_set false 1 (fun _ => ⟨0, 0, none, none⟩) (fun _ => 0) ?_
  refine ⟨⟨fun a a_mem => a_mem.elim, by decide, by decide⟩, fun result held first => ?_⟩
  refine ⟨⟨?_, by decide, by decide⟩,
    fun _ _ _ => ⟨show 4096 < 2 ^ 32 by decide, fun _ _ _ => trivial⟩⟩
  intro a a_mem
  cases first with
  | added =>
    rcases a_mem with rfl | impossible
    · decide
    · exact impossible.elim
  | refused => exact a_mem.elim

end Sol25.Seglist
