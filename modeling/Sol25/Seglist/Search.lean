import Sol25.Data.Skip
import Sol25.Seglist.Order

/-!
# Searching a skip list

The entries in memory are those of a skip list over the segments, and the path of the last search
leads to one place in it.  A search returns the same segment whether or not that path is of any use,
and leaves a path that leads to the place of its address.
-/

namespace Sol25.Seglist

open List Option Nat

variable {s s' : State} {l front back : List ℕ} {addr : ℕ} {d : Skips ℕ}

def State.entry (s : State) (ssl : Ssl) (i : ℕ) : Option Entry := (s.ssl ssl).map fun segs => segs i

/-- A pointer to a segment, as an entry. -/
def Entry.of : Option ℕ → Entry
  | none => .null
  | some p => .seg p

/-- The links of a skip list along its lowest level and back. -/
def State.doubly (s : State) (d : Skips ℕ) : Doubly ℕ :=
  ⟨fun a => d.next 0 (some a), fun a => (s.seg a).prev, d.next 0 none, s.tail⟩

/-- The entries of the segments are those of a skip list. -/
structure Entries (s : State) (l : List ℕ) (d : Skips ℕ) : Prop where
  used : ∀ ssl : Ssl, (∀ a, ssl = some a → a ∈ l) → ∀ i < nlevels, d.Reaches i ssl →
    s.entry ssl i = some (Entry.of (d.next i ssl))
  unused : ∀ a ∈ l, ∀ i < nlevels, d.level a < i → s.entry (some a) i = some .unused
  level : ∀ a ∈ l, d.level a ≤ s.hilevel
  hilevel : s.hilevel < nlevels

/-- The address space is a skip list of the segments. -/
structure Skipped (s : State) (l : List ℕ) (d : Skips ℕ) : Prop extends Entries s l d where
  lrep : s.lrep = .skiplist
  ordered : Ordered s l
  nsegs : s.nsegs = l.length
  doubly : (s.doubly d).Holds l
  holds : d.Holds l

/-- The path leads to the place behind some segments. -/
def PathAt (s : State) (d : Skips ℕ) (front : List ℕ) : Prop :=
  ∀ i ≤ s.hilevel, s.spath i = some (d.behind i front)

/-- There is no path yet, or it leads to a place between the segments. -/
def Path (s : State) (l : List ℕ) (d : Skips ℕ) : Prop :=
  s.spath 0 = none ∨ ∃ front back, l = front ++ back ∧ PathAt s d front

theorem link_of_entry {ssl : Ssl} {i : ℕ} {next : Option ℕ}
    (is_entry : s.entry ssl i = some (Entry.of next)) :
    s.link ssl i = some next := by
  obtain ⟨segs, is_ssl, entry⟩ := map_eq_some_iff.1 is_entry
  rw [State.link, is_ssl, bind_some, entry]
  cases next <;> rfl

theorem Entry.of_ne_unused (next : Option ℕ) : Entry.of next ≠ .unused := by
  cases next <;> exact Entry.noConfusion

namespace Entries

theorem exists_ssl (entries : Entries s l d) {ssl : Ssl} (inside : ∀ a, ssl = some a → a ∈ l) :
    ∃ segs, s.ssl ssl = some segs := by
  obtain ⟨segs, is_ssl, -⟩ := map_eq_some_iff.1
    (entries.used ssl inside 0 (by decide) fun _ _ => zero_le _)
  exact ⟨segs, is_ssl⟩

theorem used_iff (entries : Entries s l d) {a : ℕ} (a_mem : a ∈ l) {segs : ℕ → Entry}
    (is_ssl : s.ssl (some a) = some segs) {i : ℕ} (inside : i < nlevels) :
    segs i ≠ .unused ↔ i ≤ d.level a := by
  have entry : s.entry (some a) i = some (segs i) := by rw [State.entry, is_ssl, map_some]
  constructor
  · intro used
    by_contra high
    have unused := entries.unused a a_mem i inside (Nat.lt_of_not_le high)
    exact used (some.inj (entry.symm.trans unused))
  · intro reaches
    have used := entries.used (some a) (by rintro b ⟨⟩; exact a_mem) i inside
      (by rintro b ⟨⟩; exact reaches)
    rw [some.inj (entry.symm.trans used)]
    exact Entry.of_ne_unused _

end Entries

namespace Skipped

theorem link (skipped : Skipped s (front ++ back) d) {i : ℕ} (inside : i < nlevels)
    (reaches : d.Reaches i front.getLast?) : s.link front.getLast? i = some (d.ahead i back) := by
  refine link_of_entry ?_
  rw [← skipped.holds front back rfl i reaches]
  refine skipped.used _ ?_ i inside reaches
  exact fun a is_last => mem_append_left _ (mem_of_getLast? is_last)

theorem with_spath (skipped : Skipped s l d) (spath : ℕ → Option Ssl) :
    Skipped { s with spath } l d :=
  ⟨⟨skipped.used, skipped.unused, skipped.level, skipped.hilevel⟩, skipped.lrep,
    ⟨skipped.ordered.size, skipped.ordered.order⟩, skipped.nsegs, skipped.doubly, skipped.holds⟩

end Skipped

theorem exists_of_ahead {i a : ℕ} (is_ahead : d.ahead i l = some a) :
    ∃ front back, l = front ++ a :: back ∧ i ≤ d.level a := by
  have a_mem := mem_of_head? is_ahead
  rw [mem_filter, decide_eq_true_eq] at a_mem
  obtain ⟨front, back, rfl⟩ := append_of_mem a_mem.1
  exact ⟨front, back, rfl, a_mem.2⟩

theorem sslAdvance_eq {mid : List ℕ} (skipped : Skipped s (front ++ mid ++ back) d)
    (splits : Splits s addr (front ++ mid) back) {i : ℕ} (inside : i < nlevels)
    (reaches : d.Reaches i front.getLast?) {fuel : ℕ} (enough : mid.length < fuel) :
    sslAdvance s addr i fuel front.getLast? = some (d.behind i (front ++ mid), d.ahead i back) := by
  induction fuel generalizing front mid with
  | zero => exact (not_lt_zero _ enough).elim
  | succ fuel ih =>
    rw [sslAdvance]
    have link := @Skipped.link s front (mid ++ back) d
      (by rwa [← append_assoc]) i inside reaches
    rw [link, bind_some, Skips.ahead_append]
    rcases is_ahead : d.ahead i mid with _ | a
    · have here : d.behind i (front ++ mid) = front.getLast? := by
        rw [Skips.behind_append, Skips.behind_eq_none_iff.2 is_ahead, none_or,
          Skips.behind_eq_getLast? reaches]
      rw [here, none_or]
      rcases is_next : d.ahead i back with _ | b
      · rfl
      · have b_mem := mem_of_head? is_next
        have above := splits.above b (mem_filter.1 b_mem).1
        simp only [if_neg (Nat.not_le_of_lt above)]
    · obtain ⟨passed, rest, rfl, high⟩ := exists_of_ahead is_ahead
      have below := splits.below a (by simp)
      simp only [some_or, if_pos below]
      have assoc : front ++ (passed ++ a :: rest) = (front ++ passed ++ [a]) ++ rest := by simp
      have place : (front ++ passed ++ [a]).getLast? = some a := getLast?_concat
      rw [assoc] at skipped splits ⊢
      rw [← place]
      refine ih skipped splits ?_ ?_
      · rw [place]
        rintro b ⟨⟩
        exact high
      · simp only [length_append, length_cons] at enough
        omega

theorem sslDescend_eq (skipped : Skipped s (front ++ back) d) (splits : Splits s addr front back)
    {levels : ℕ} (inside : levels ≤ nlevels) (seg : Option ℕ) (spath : ℕ → Option Ssl) :
    sslDescend s addr levels (d.behind levels front) seg spath =
      some (if levels = 0 then seg else back.head?,
        fun i => if i < levels then some (d.behind i front) else spath i) := by
  induction levels generalizing seg spath with
  | zero => simp [sslDescend]
  | succ i ih =>
    obtain ⟨first, rest, rfl, last, -⟩ := d.exists_split (i + 1) front
    have reaches : d.Reaches (i + 1) first.getLast? := by
      rw [last]
      exact Skips.reaches_behind
    have enough : rest.length < s.nsegs + 1 := by
      rw [skipped.nsegs]
      simp only [length_append]
      omega
    rw [← last, sslDescend,
      sslAdvance_eq skipped splits inside (reaches.mono (le_succ i)) enough, bind_some]
    simp only
    rw [ih (Nat.le_of_lt inside)]
    refine congrArg some (Prod.ext ?_ (funext fun j => ?_))
    · simp only [succ_ne_zero, if_false]
      split_ifs with lowest
      · rw [lowest]
        simp [Skips.ahead]
      · rfl
    · simp only [Function.update_apply]
      split_ifs <;> first | rfl | omega | (congr; omega)

theorem sslDescend_from_head (skipped : Skipped s (front ++ back) d)
    (splits : Splits s addr front back) (spath : ℕ → Option Ssl) :
    sslDescend s addr (s.hilevel + 1) none none spath =
      some (back.head?, fun i => if i < s.hilevel + 1 then some (d.behind i front) else
        spath i) := by
  have top : d.behind (s.hilevel + 1) front = none := by
    rw [Skips.behind_eq_none]
    intro a a_mem
    have low := skipped.level a (mem_append_left _ a_mem)
    omega
  have descends :=
    @sslDescend_eq s front back addr d skipped splits (s.hilevel + 1) skipped.hilevel none spath
  rw [top] at descends
  rw [descends, if_neg (succ_ne_zero _)]

/-- What the path of the last search is good for. -/
theorem sslCached_eq (skipped : Skipped s l d) (path : Path s l d) :
    sslCached s addr = some none ∨
      ∃ front seg back spath, sslCached s addr = some (some (seg, spath)) ∧
        l = front ++ seg :: back ∧
        Splits s addr front (seg :: back) ∧ PathAt { s with spath } d front := by
  rcases path with unset | ⟨front, back, rfl, path⟩
  · left
    rw [sslCached, unset]
  · have lowest : s.spath 0 = some front.getLast? := by
      rw [path 0 (zero_le _)]
      exact congrArg some (Skips.behind_eq_getLast? fun _ _ => zero_le _)
    have zero_lt : 0 < nlevels := by decide
    simp only [sslCached, lowest, skipped.link zero_lt fun _ _ => zero_le _, bind_some]
    rcases back with _ | ⟨seg, back⟩
    · left
      rfl
    · have ahead : d.ahead 0 (seg :: back) = some seg := by simp [Skips.ahead]
      have prev : (s.seg seg).prev = front.getLast? := skipped.doubly.neighbours.1
      simp only [ahead, prev]
      split_ifs with hit
      · right
        refine ⟨front, seg, back, s.spath, rfl, rfl, ?_, path⟩
        refine skipped.ordered.splits_of_neighbours ?_ ?_
        · intro a is_last
          have below := hit.2
          rw [is_last, all_some, decide_eq_true_eq] at below
          exact below
        · rintro a ⟨⟩
          exact hit.1
      · have skipped' : Skipped s ((front ++ [seg]) ++ back) d := by simpa using skipped
        have place : (front ++ [seg]).getLast? = some seg := getLast?_concat
        have link := skipped'.link zero_lt fun _ _ => zero_le _
        rw [place] at link
        simp only [link, bind_some]
        rcases back with _ | ⟨next, back⟩
        · left
          rfl
        · have ahead : d.ahead 0 (next :: back) = some next := by simp [Skips.ahead]
          simp only [ahead]
          split_ifs with between
          · right
            have splits : Splits s addr (front ++ [seg]) (next :: back) := by
              refine skipped'.ordered.splits_of_neighbours ?_ ?_
              · rw [place]
                rintro a ⟨⟩
                exact between.1
              · rintro a ⟨⟩
                exact between.2
            have seg_mem : seg ∈ front ++ seg :: next :: back := by simp
            have low := skipped.level seg seg_mem
            have hilevel := skipped.hilevel
            obtain ⟨segs, is_ssl⟩ : ∃ segs, s.ssl (some seg) = some segs :=
              skipped.exists_ssl (by rintro a ⟨⟩; exact seg_mem)
            refine ⟨front ++ [seg], next, back, _, by rw [is_ssl, map_some], by simp, splits, ?_⟩
            intro i le
            have le : i ≤ s.hilevel := le
            have inside : i < nlevels := by omega
            rw [Skips.behind_append]
            by_cases reaches : i ≤ d.level seg
            · have all_used : i < nlevels ∧ ∀ j ≤ i, segs j ≠ .unused :=
                ⟨inside, fun j le_i => (skipped.used_iff seg_mem is_ssl (by omega)).2 (by omega)⟩
              simp only [if_pos all_used]
              simp [Skips.behind, reaches]
            · have not_used : ¬ (i < nlevels ∧ ∀ j ≤ i, segs j ≠ .unused) := fun all_used => reaches
                  ((skipped.used_iff seg_mem is_ssl inside).1 (all_used.2 i (le_refl i)))
              simp only [if_neg not_used]
              rw [path i le]
              simp [Skips.behind, reaches]
          · left
            rfl

/-- `ssl_search` finds the lowest segment that ends above the address, and its path leads there. -/
theorem sslSearch_eq (skipped : Skipped s l d) (path : Path s l d) (addr : ℕ) (tail : Bool) :
    ∃ front back spath, l = front ++ back ∧ Splits s addr front back ∧
      sslSearch s addr tail = some (found l back tail, { s with spath }) ∧
        PathAt { s with spath } d front := by
  rcases @sslCached_eq s l addr d skipped path with miss | ⟨front, seg, back, spath, hit, rfl,
    splits, path'⟩
  · obtain ⟨front, back, rfl, splits⟩ := skipped.ordered.exists_splits addr
    refine ⟨front, back, fun i => if i < s.hilevel + 1 then some (d.behind i front) else s.spath i,
      rfl, splits,
      ?_, ?_⟩
    · rw [sslSearch, miss, bind_some]
      simp only [sslDescend_from_head skipped splits, map_some]
      have last : s.tail = (front ++ back).getLast? := skipped.doubly.last
      rw [found, last]
    · intro i le
      exact if_pos (lt_succ_of_le le)
  · refine ⟨front, seg :: back, spath, rfl, splits, ?_, path'⟩
    rw [sslSearch, hit, bind_some, found]
    cases tail <;> rfl

end Sol25.Seglist
