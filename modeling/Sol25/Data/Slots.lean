import Mathlib.Algebra.Order.Ring.Int
import Mathlib.Data.List.Nodup

/-!
# Lists with pointers to pointers

Cells in lists that start at heads.  A cell has a link to the next cell and a pointer to the place
that leads to it: a head, or the link of the cell before.  A new cell is put in at a place, and a
cell is taken out without looking for its list.
-/

namespace Sol25

open Function List

/-- A place with a pointer to a cell: a head, or the link of a cell. -/
inductive Slot (H α : Type*)
  | head (h : H)
  | next (a : α)
  deriving DecidableEq, Repr

/-- What the places hold, and where each cell is pointed to. -/
structure Slots (H α : Type*) where
  link : Slot H α → Option α
  back : α → Option (Slot H α)

namespace Slots

variable {H α : Type*} {m m' : Slots H α} {p q : Slot H α} {a : α} {l front rest : List α}

/-- A place leads through some cells, each of which points back to the place before it. -/
def Path (m : Slots H α) : Slot H α → List α → Prop
  | _, [] => True
  | p, a :: l => m.link p = some a ∧ m.back a = some p ∧ Path m (.next a) l

def behind : Slot H α → List α → Slot H α
  | p, [] => p
  | _, a :: l => behind (.next a) l

/-- A place leads to the cells of a list. -/
def Chain (m : Slots H α) (p : Slot H α) (l : List α) : Prop :=
  Path m p l ∧ m.link (behind p l) = none

theorem chain_nil : Chain m p [] ↔ m.link p = none := and_iff_right trivial

theorem chain_cons :
    Chain m p (a :: l) ↔ m.link p = some a ∧ m.back a = some p ∧ Chain m (.next a) l := by
  rw [Chain, Chain, Path, behind, and_assoc, and_assoc]

theorem behind_append : behind p (front ++ rest) = behind (behind p front) rest := by
  induction front generalizing p with
  | nil => rfl
  | cons a front ih => exact ih

theorem path_append : Path m p (front ++ rest) ↔ Path m p front ∧ Path m (behind p front) rest := by
  induction front generalizing p with
  | nil => exact (and_iff_right trivial).symm
  | cons a front ih => rw [cons_append, Path, Path, ih, behind, and_assoc, and_assoc]

theorem chain_append :
    Chain m p (front ++ rest) ↔ Path m p front ∧ Chain m (behind p front) rest := by
  rw [Chain, Chain, path_append, behind_append, and_assoc]

theorem behind_mem (ne : front ≠ []) : ∃ a ∈ front, behind p front = .next a := by
  induction front generalizing p with
  | nil => exact absurd rfl ne
  | cons a front ih =>
    cases front with
    | nil => exact ⟨a, mem_cons_self, rfl⟩
    | cons b front =>
      obtain ⟨c, mem, eq⟩ := @ih (.next a) nofun
      exact ⟨c, mem_cons_of_mem a mem, eq⟩

/-- The place behind some cells is the one they start from or a link of one of them. -/
theorem behind_cases (p : Slot H α) (front : List α) :
    behind p front = p ∨ ∃ a ∈ front, behind p front = .next a := by
  cases front with
  | nil => exact Or.inl rfl
  | cons a front => exact Or.inr (behind_mem nofun)

/-- A path depends on its cells and on the places in front of them. -/
theorem Path.congr (path : Path m p l) (nodup : l.Nodup) (outside : ∀ b ∈ l, p ≠ .next b)
    (same_link : ∀ q, q ≠ behind p l → (q = p ∨ ∃ b ∈ l, q = .next b) → m'.link q = m.link q)
    (same_back : ∀ b ∈ l, m'.back b = m.back b) : Path m' p l := by
  induction l generalizing p with
  | nil => trivial
  | cons a l ih =>
    obtain ⟨link_eq, back_eq, path⟩ := path
    obtain ⟨not_mem, nodup⟩ := nodup_cons.1 nodup
    have start : p ≠ behind p (a :: l) := by
      obtain ⟨b, mem, eq⟩ := @behind_mem H α p (a :: l) nofun
      rw [eq]
      exact outside b mem
    refine ⟨(same_link p start (Or.inl rfl)).trans link_eq,
      (same_back a mem_cons_self).trans back_eq, ?_⟩
    refine ih path nodup (fun b mem eq => ?_)
      (fun q not_end used => same_link q not_end (Or.inr ?_))
      fun b mem => same_back b (mem_cons_of_mem a mem)
    · injection eq with same
      exact not_mem (same ▸ mem)
    · rcases used with rfl | ⟨b, mem, rfl⟩
      · exact ⟨a, mem_cons_self, rfl⟩
      · exact ⟨b, mem_cons_of_mem a mem, rfl⟩

theorem Chain.congr (chain : Chain m p l) (same_start : m'.link p = m.link p)
    (same_link : ∀ b ∈ l, m'.link (.next b) = m.link (.next b))
    (same_back : ∀ b ∈ l, m'.back b = m.back b) :
    Chain m' p l := by
  induction l generalizing p with
  | nil => exact chain_nil.2 (same_start.trans (chain_nil.1 chain))
  | cons a l ih =>
    obtain ⟨link_eq, back_eq, chain⟩ := chain_cons.1 chain
    rw [forall_mem_cons] at same_link same_back
    exact chain_cons.2 ⟨same_start.trans link_eq, same_back.1.trans back_eq,
      ih chain same_link.1 same_link.2 same_back.2⟩

theorem Chain.link_eq (chain : Chain m p l) : m.link p = l.head? := by
  cases l with
  | nil => exact chain_nil.1 chain
  | cons a l => exact (chain_cons.1 chain).1

/-- The places in front of the rest of a list are not links of its cells. -/
theorem behind_ne (nodup : (front ++ rest).Nodup) (outside : ∀ b ∈ front ++ rest, p ≠ .next b) :
    ∀ b ∈ rest, .next b ≠ behind p front := by
  intro b mem eq
  rcases behind_cases p front with same | ⟨c, c_mem, c_eq⟩
  · exact outside b (mem_append_right front mem) (same.symm.trans eq.symm)
  · rw [c_eq] at eq
    injection eq with same
    exact disjoint_of_nodup_append nodup c_mem (same ▸ mem)

section Changes

variable [DecidableEq H] [DecidableEq α]

/-- A new cell at a place. -/
def insert (m : Slots H α) (p : Slot H α) (a : α) : Slots H α where
  link := update (update m.link (.next a) (m.link p)) p (some a)
  back := update
    (match m.link p with
      | none => m.back
      | some b => update m.back b (some (.next a))) a (some p)

/-- A cell is taken out of its list, if it is in one. -/
def remove (m : Slots H α) (a : α) : Slots H α where
  link :=
    match m.back a with
    | none => m.link
    | some p => update m.link p (m.link (.next a))
  back :=
    match m.link (.next a) with
    | none => m.back
    | some b => update m.back b (m.back a)

/-- The heads lead to lists, with no cell in two places. -/
structure Table (m : Slots H α) (lists : H → List α) : Prop where
  chain : ∀ h, Chain m (.head h) (lists h)
  nodup : ∀ h, (lists h).Nodup
  apart : ∀ h h', h ≠ h' → ∀ a ∈ lists h, a ∉ lists h'

variable {lists : H → List α} {h : H}

theorem insert_link_self : (m.insert p a).link p = some a := update_self ..

theorem insert_link_next (ne : p ≠ .next a) : (m.insert p a).link (.next a) = m.link p := by
  dsimp only [insert]
  rw [update_of_ne ne.symm, update_self]

theorem insert_link_of_ne (ne : q ≠ p) (ne_next : q ≠ .next a) :
    (m.insert p a).link q = m.link q := by
  dsimp only [insert]
  rw [update_of_ne ne, update_of_ne ne_next]

theorem insert_back_self : (m.insert p a).back a = some p := update_self ..

theorem insert_back_next {b : α} (link_eq : m.link p = some b) (ne : b ≠ a) :
    (m.insert p a).back b = some (.next a) := by
  dsimp only [insert]
  rw [update_of_ne ne, link_eq]
  exact update_self ..

theorem insert_back_of_ne {b : α} (link_ne : m.link p ≠ some b) (ne : b ≠ a) :
    (m.insert p a).back b = m.back b := by
  dsimp only [insert]
  rw [update_of_ne ne]
  cases link_eq : m.link p with
  | none => rfl
  | some c =>
    refine update_of_ne ?_ _ _
    rintro rfl
    exact link_ne link_eq

theorem remove_link (back_eq : m.back a = some p) (q : Slot H α) :
    (m.remove a).link q = update m.link p (m.link (.next a)) q := by
  dsimp only [remove]
  rw [back_eq]

theorem remove_back_next {b : α} (link_eq : m.link (.next a) = some b) :
    (m.remove a).back b = m.back a := by
  dsimp only [remove]
  rw [link_eq]
  exact update_self ..

theorem remove_back_of_ne {b : α} (link_ne : m.link (.next a) ≠ some b) :
    (m.remove a).back b = m.back b := by
  dsimp only [remove]
  cases link_eq : m.link (.next a) with
  | none => rfl
  | some c =>
    refine update_of_ne ?_ _ _
    rintro rfl
    exact link_ne link_eq

theorem chain_insert (chain : Chain m p (front ++ rest)) (nodup : (front ++ rest).Nodup)
    (outside : ∀ b ∈ front ++ rest, p ≠ .next b) (fresh : a ∉ front ++ rest)
    (fresh_start : p ≠ .next a) :
    Chain (m.insert (behind p front) a) p (front ++ a :: rest) := by
  obtain ⟨path, chain⟩ := chain_append.1 chain
  have apart := disjoint_of_nodup_append nodup
  have fresh_end : behind p front ≠ .next a := by
    rcases behind_cases p front with same | ⟨c, mem, eq⟩
    · rwa [same]
    · rw [eq]
      rintro ⟨⟩
      exact fresh (mem_append_left rest mem)
  refine chain_append.2 ⟨?_, chain_cons.2 ⟨insert_link_self, insert_back_self, ?_⟩⟩
  · refine path.congr (nodup_append.1 nodup).1
      (fun b mem => outside b (mem_append_left rest mem))
      (fun q ne used => insert_link_of_ne ne ?_) fun b mem => insert_back_of_ne ?_ ?_
    · rcases used with rfl | ⟨b, mem, rfl⟩
      · exact fresh_start
      · rintro ⟨⟩
        exact fresh (mem_append_left rest mem)
    · rw [chain.link_eq]
      intro first
      exact apart mem (mem_of_head? first)
    · rintro rfl
      exact fresh (mem_append_left rest mem)
  · have link_next := @insert_link_next H α m (behind p front) a _ _ fresh_end
    cases rest with
    | nil => exact chain_nil.2 (link_next.trans (chain_nil.1 chain))
    | cons c rest =>
      obtain ⟨link_eq, -, tail⟩ := chain_cons.1 chain
      have ne_fresh : ∀ b ∈ c :: rest, b ≠ a := by
        rintro b mem rfl
        exact fresh (mem_append_right front mem)
      have same_link : ∀ b ∈ c :: rest,
          (m.insert (behind p front) a).link (.next b) = m.link (.next b) := by
        intro b mem
        refine insert_link_of_ne (behind_ne nodup outside b mem) ?_
        intro eq
        injection eq with same
        exact ne_fresh b mem same
      refine chain_cons.2
        ⟨link_next.trans link_eq, insert_back_next link_eq (ne_fresh c mem_cons_self), ?_⟩
      refine tail.congr (same_link c mem_cons_self)
        (fun b mem => same_link b (mem_cons_of_mem c mem))
        fun b mem => insert_back_of_ne ?_ (ne_fresh b (mem_cons_of_mem c mem))
      rw [link_eq]
      rintro ⟨⟩
      exact (nodup_cons.1 (nodup_append.1 nodup).2.1).1 mem

theorem chain_remove (chain : Chain m p (front ++ a :: rest)) (nodup : (front ++ a :: rest).Nodup)
    (outside : ∀ b ∈ front ++ a :: rest, p ≠ .next b) : Chain (m.remove a) p (front ++ rest) := by
  obtain ⟨path, chain⟩ := chain_append.1 chain
  obtain ⟨-, back_eq, tail⟩ := chain_cons.1 chain
  obtain ⟨front_nodup, rest_nodup, -⟩ := nodup_append.1 nodup
  obtain ⟨not_mem, rest_nodup⟩ := nodup_cons.1 rest_nodup
  have apart := disjoint_of_nodup_append nodup
  refine chain_append.2 ⟨?_, ?_⟩
  · refine path.congr front_nodup (fun b mem => outside b (mem_append_left _ mem))
      (fun q ne _ => ?_) fun b mem => remove_back_of_ne ?_
    · rw [remove_link back_eq, update_of_ne ne]
    · rw [tail.link_eq]
      intro first
      exact apart mem (mem_cons_of_mem a (mem_of_head? first))
  · have link_end : (m.remove a).link (behind p front) = m.link (.next a) := by
      rw [remove_link back_eq, update_self]
    cases rest with
    | nil => exact chain_nil.2 (link_end.trans (chain_nil.1 tail))
    | cons c rest =>
      obtain ⟨link_eq, -, tail⟩ := chain_cons.1 tail
      have same_link : ∀ b ∈ c :: rest, (m.remove a).link (.next b) = m.link (.next b) := by
        intro b mem
        rw [remove_link back_eq, update_of_ne (behind_ne nodup outside b (mem_cons_of_mem a mem))]
      refine chain_cons.2 ⟨link_end.trans link_eq, (remove_back_next link_eq).trans back_eq, ?_⟩
      refine tail.congr (same_link c mem_cons_self)
        (fun b mem => same_link b (mem_cons_of_mem c mem))
        fun b mem => remove_back_of_ne ?_
      rw [link_eq]
      rintro ⟨⟩
      exact (nodup_cons.1 rest_nodup).1 mem

namespace Table

/-- A new cell in the middle of a list. -/
theorem insert (table : Table m lists) (split : lists h = front ++ rest)
    (fresh : ∀ h', a ∉ lists h') :
    Table (m.insert (behind (.head h) front) a) (update lists h (front ++ a :: rest)) := by
  have chain := table.chain h
  have nodup := table.nodup h
  have fresh_here := fresh h
  rw [split] at chain nodup fresh_here
  have members : ∀ b, b ∈ front ++ a :: rest ↔ b = a ∨ b ∈ front ++ rest := by
    intro b
    simp only [mem_append, mem_cons]
    tauto
  refine ⟨fun h' => ?_, fun h' => ?_, fun h1 h2 ne b mem => ?_⟩
  · by_cases same : h' = h
    · subst same
      rw [update_self]
      exact chain_insert chain nodup (fun _ _ => nofun) fresh_here nofun
    · rw [update_of_ne same]
      have not_here : ∀ b ∈ lists h', b ∉ front ++ rest := by
        intro b mem
        rw [← split]
        exact table.apart h' h same b mem
      have not_end : ∀ b ∈ lists h', .next b ≠ behind (.head h) front := by
        intro b mem eq
        rcases behind_cases (.head h) front with start | ⟨c, c_mem, c_eq⟩
        · exact nomatch eq.trans start
        · rw [c_eq] at eq
          injection eq with same
          exact not_here b mem (mem_append_left rest (same ▸ c_mem))
      have not_fresh : ∀ b ∈ lists h', b ≠ a := by
        rintro b mem rfl
        exact fresh h' mem
      refine (table.chain h').congr (insert_link_of_ne ?_ nofun)
        (fun b mem => insert_link_of_ne (not_end b mem) ?_)
        fun b mem => insert_back_of_ne ?_ (not_fresh b mem)
      · intro eq
        rcases behind_cases (.head h) front with start | ⟨c, -, c_eq⟩
        · injection eq.trans start with head_eq
          exact same head_eq
        · exact nomatch eq.trans c_eq
      · intro eq
        injection eq with cell_eq
        exact not_fresh b mem cell_eq
      · rw [(chain_append.1 chain).2.link_eq]
        intro first
        exact not_here b mem (mem_append_right front (mem_of_head? first))
  · by_cases same : h' = h
    · subst same
      rw [update_self]
      exact (perm_middle.nodup_iff).2 (nodup_cons.2 ⟨fresh_here, nodup⟩)
    · rw [update_of_ne same]
      exact table.nodup h'
  · by_cases first : h1 = h <;> by_cases second : h2 = h
    · exact absurd (first.trans second.symm) ne
    · subst first
      rw [update_self, members] at mem
      rw [update_of_ne second]
      rcases mem with rfl | mem
      · exact fresh h2
      · exact table.apart h1 h2 ne b (by rwa [split])
    · subst second
      rw [update_of_ne first] at mem
      rw [update_self, members]
      rintro (rfl | other)
      · exact fresh h1 mem
      · exact table.apart h1 h2 ne b mem (by rwa [split])
    · rw [update_of_ne first] at mem
      rw [update_of_ne second]
      exact table.apart h1 h2 ne b mem

/-- A cell is taken out of its list. -/
theorem remove (table : Table m lists) (split : lists h = front ++ a :: rest) :
    Table (m.remove a) (update lists h (front ++ rest)) := by
  have chain := table.chain h
  have nodup := table.nodup h
  rw [split] at chain nodup
  obtain ⟨-, back_eq, tail⟩ := chain_cons.1 (chain_append.1 chain).2
  have smaller : ∀ b ∈ front ++ rest, b ∈ lists h := by
    intro b mem
    rw [split]
    rcases mem_append.1 mem with mem | mem
    · exact mem_append_left _ mem
    · exact mem_append_right _ (mem_cons_of_mem a mem)
  refine ⟨fun h' => ?_, fun h' => ?_, fun h1 h2 ne b mem => ?_⟩
  · by_cases same : h' = h
    · subst same
      rw [update_self]
      exact chain_remove chain nodup fun _ _ => nofun
    · rw [update_of_ne same]
      have not_here : ∀ b ∈ lists h', b ∉ lists h := table.apart h' h same
      refine (table.chain h').congr ?_ (fun b mem => ?_) fun b mem => remove_back_of_ne ?_
      · rw [remove_link back_eq, update_of_ne]
        intro eq
        rcases behind_cases (.head h) front with start | ⟨c, -, c_eq⟩
        · injection eq.trans start with head_eq
          exact same head_eq
        · exact nomatch eq.trans c_eq
      · rw [remove_link back_eq, update_of_ne]
        intro eq
        rcases behind_cases (.head h) front with start | ⟨c, c_mem, c_eq⟩
        · exact nomatch eq.trans start
        · injection eq.trans c_eq with cell_eq
          exact not_here b mem (smaller b (mem_append_left rest (cell_eq ▸ c_mem)))
      · rw [tail.link_eq]
        intro first
        exact not_here b mem (smaller b (mem_append_right front (mem_of_head? first)))
  · by_cases same : h' = h
    · subst same
      rw [update_self]
      exact (nodup_cons.1 (perm_middle.nodup_iff.1 nodup)).2
    · rw [update_of_ne same]
      exact table.nodup h'
  · have original : ∀ h', ∀ c ∈ update lists h (front ++ rest) h', c ∈ lists h' := by
      intro h' c mem
      by_cases same : h' = h
      · subst same
        rw [update_self] at mem
        exact smaller c mem
      · rwa [update_of_ne same] at mem
    intro other
    exact table.apart h1 h2 ne b (original h1 b mem) (original h2 b other)

end Table

end Changes

end Slots

end Sol25
