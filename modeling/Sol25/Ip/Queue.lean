import Sol25.Ip.Reass
import Mathlib.Tactic.Linarith

/-!
# Pieces on a reassembly queue

The pieces of a queue are in order and apart from each other.  A new piece that is apart from them
all goes between them, and a piece that they cover is dropped.
-/

namespace Sol25.Ip

open List

variable {more : Bool} {mp mp1 b : Block} {holeCnt : ℤ} {queue front back : List Block}
  {u s e x : ℕ} {bytes : List UInt8}

/-- The pieces are in order from a place on, and apart from each other. -/
def Ordered : ℕ → List Block → Prop
  | _, [] => True
  | u, b :: l => u ≤ b.start ∧ b.start ≤ b.stop ∧ Ordered b.stop l

/-- The number of places from one on where a piece does not start where the one before it stops. -/
def gaps : ℕ → List Block → ℤ
  | _, [] => 0
  | u, b :: l => (if u = b.start then 0 else 1) + gaps b.stop l

/-- A place is in one of the pieces. -/
def Covers (queue : List Block) (x : ℕ) : Prop := ∃ b ∈ queue, b.start ≤ x ∧ x < b.stop

/-- The place behind some pieces. -/
def stopOf : ℕ → List Block → ℕ
  | u, [] => u
  | _, b :: l => stopOf b.stop l

theorem ordered_append :
    Ordered u (front ++ back) ↔ Ordered u front ∧ Ordered (stopOf u front) back := by
  induction front generalizing u with
  | nil => exact (and_iff_right trivial).symm
  | cons b front ih => rw [cons_append, Ordered, Ordered, ih, stopOf, and_assoc, and_assoc]

theorem gaps_append : gaps u (front ++ back) = gaps u front + gaps (stopOf u front) back := by
  induction front generalizing u with
  | nil => rw [nil_append, gaps, stopOf, zero_add]
  | cons b front ih => rw [cons_append, gaps, gaps, ih, stopOf, add_assoc]

theorem gaps_nonneg : 0 ≤ gaps u queue := by
  induction queue generalizing u with
  | nil => exact le_refl 0
  | cons b queue ih =>
    have rest := @ih b.stop
    rw [gaps]
    split_ifs <;> omega

theorem Ordered.le_start (ordered : Ordered u queue) (mem : b ∈ queue) :
    u ≤ b.start ∧ b.start ≤ b.stop := by
  induction queue generalizing u with
  | nil => exact nomatch mem
  | cons c queue ih =>
    obtain ⟨le, le', ordered⟩ := ordered
    rcases mem_cons.1 mem with rfl | mem
    · exact ⟨le, le'⟩
    · obtain ⟨first, second⟩ := ih ordered mem
      exact ⟨by omega, second⟩

theorem Ordered.le_stopOf (ordered : Ordered u queue) : u ≤ stopOf u queue := by
  induction queue generalizing u with
  | nil => exact le_refl u
  | cons b queue ih =>
    obtain ⟨le, le', ordered⟩ := ordered
    have rest := ih ordered
    rw [stopOf]
    omega

theorem Ordered.stop_le (ordered : Ordered u queue) (mem : b ∈ queue) :
    b.stop ≤ stopOf u queue := by
  induction queue generalizing u with
  | nil => exact nomatch mem
  | cons c queue ih =>
    obtain ⟨-, -, ordered⟩ := ordered
    rcases mem_cons.1 mem with rfl | mem
    · exact ordered.le_stopOf
    · exact ih ordered mem

theorem stopOf_getLast (last : queue.getLast? = some b) : stopOf u queue = b.stop := by
  obtain ⟨front, rfl⟩ := getLast?_eq_some_iff.1 last
  induction front generalizing u with
  | nil => rfl
  | cons c front ih => exact ih (by simp)

theorem covers_cons : Covers (b :: queue) x ↔ (b.start ≤ x ∧ x < b.stop) ∨ Covers queue x := by
  simp only [Covers, mem_cons, exists_eq_or_imp]

/-! ### Pieces that are apart from the queue -/

theorem clip_apart (apart : ∀ b, queue.head? = some b → mp.stop ≤ b.start) :
    clip more mp holeCnt queue = some (mp, holeCnt, queue) := by
  cases queue with
  | nil => rfl
  | cons b queue => rw [clip, if_neg (by have := apart b rfl; omega)]

/-- A piece goes into a hole. -/
theorem fill_apart (ordered : Ordered u (front ++ back)) (front_ne : front ≠ [])
    (back_ne : back ≠ []) (before : ∀ b ∈ front, b.stop ≤ mp.start)
    (behind : ∀ b ∈ back, mp.stop ≤ b.start) (nonempty : mp.start < mp.stop) :
    ∃ hole', fill more mp holeCnt (front ++ back) = some (front ++ mp :: back, hole') ∧
      hole' - gaps u (front ++ mp :: back) = holeCnt - gaps u (front ++ back) := by
  induction front generalizing u with
  | nil => exact absurd rfl front_ne
  | cons mp1 front ih =>
    rw [forall_mem_cons] at before
    obtain ⟨le, le', ordered⟩ := ordered
    have not_inside : ¬ mp.start < mp1.stop := by omega
    cases front with
    | nil =>
      cases back with
      | nil => exact absurd rfl back_ne
      | cons mp2 back =>
        have behind2 := behind mp2 mem_cons_self
        have clipped := @clip_apart more mp
          ((if mp1.stop < mp.start then holeCnt + 1 else holeCnt) - 1) (mp2 :: back)
          (by rintro _ ⟨⟩; exact behind2)
        simp only [cons_append, nil_append, gaps]
        rw [fill, if_neg (by omega)]
        dsimp only
        rw [if_neg not_inside]
        dsimp only
        rw [if_neg (by omega), clipped, Option.map_some]
        by_cases touch : mp2.start ≤ mp.stop
        · rw [if_pos touch]
          refine ⟨_, rfl, ?_⟩
          dsimp only
          split_ifs <;> omega
        · rw [if_neg touch]
          refine ⟨_, rfl, ?_⟩
          split_ifs <;> omega
    | cons mp2 front =>
      obtain ⟨hole', filled, total⟩ := ih ordered nofun before.2
      have before2 := before.2 mp2 mem_cons_self
      have ordered2 := ordered.2.1
      refine ⟨hole', ?_, ?_⟩
      · rw [cons_append, cons_append, fill, if_neg (by omega)]
        dsimp only
        rw [if_neg not_inside]
        dsimp only
        rw [if_pos (by omega)]
        rw [cons_append] at filled
        rw [filled]
        rfl
      · simp only [cons_append, gaps] at total ⊢
        omega

/-- The hole behind the last piece, in a count of holes. -/
def tailHole (queue : List Block) (holeCnt : ℤ) : ℤ :=
  if queue = [] then 1 else holeCnt - gaps 0 queue

/-- A piece that is apart from all others goes between them.  The hole behind the last piece goes
away with the last fragment. -/
theorem place_apart (ordered : Ordered 0 (front ++ back)) (before : ∀ b ∈ front, b.stop ≤ mp.start)
    (behind : ∀ b ∈ back, mp.stop ≤ b.start) (nonempty : mp.start < mp.stop)
    (last : more = false → back = [] ∧ mp.start ≠ 0) :
    ∃ hole', place more mp holeCnt (front ++ back) = some (front ++ mp :: back, hole') ∧
      tailHole (front ++ mp :: back) hole' = tailHole (front ++ back) holeCnt - if more then 0
        else 1 := by
  have ne : front ++ mp :: back ≠ [] := by simp
  simp only [tailHole, ne, if_false]
  cases back_eq : back with
  | nil =>
    subst back_eq
    rw [append_nil, gaps_append, gaps, gaps]
    cases tail_eq : front.getLast? with
    | none =>
      obtain rfl := getLast?_eq_none_iff.1 tail_eq
      rw [place]
      dsimp only [getLast?_nil]
      refine ⟨_, rfl, ?_⟩
      rw [if_pos rfl, gaps, stopOf]
      cases more with
      | true => simp only [Bool.true_eq_false, or_false, if_true]; split_ifs <;> omega
      | false =>
        have start_ne := (last rfl).2
        simp only [or_true, if_true, Bool.false_eq_true, if_false]
        split_ifs <;> omega
    | some tail =>
      have tail_mem : tail ∈ front := mem_of_getLast? tail_eq
      have front_ne : front ≠ [] := ne_nil_of_mem tail_mem
      obtain ⟨mp1, head_eq⟩ : ∃ mp1, front.head? = some mp1 := by
        cases front with
        | nil => exact absurd rfl front_ne
        | cons mp1 front => exact ⟨mp1, rfl⟩
      rw [place, tail_eq, head_eq]
      dsimp only
      rw [if_pos (before tail tail_mem), if_neg front_ne, stopOf_getLast tail_eq]
      refine ⟨_, rfl, ?_⟩
      cases more with
      | true => simp only [if_true]; split_ifs <;> omega
      | false => simp only [Bool.false_eq_true, if_false]; split_ifs <;> omega
  | cons mp2 back' =>
    have more_eq : more = true := by
      cases more with
      | true => rfl
      | false =>
        rw [(last rfl).1] at back_eq
        exact nomatch back_eq
    subst more_eq
    obtain ⟨tail, tail_eq⟩ : ∃ tail, (front ++ mp2 :: back').getLast? = some tail := by
      cases found : (front ++ mp2 :: back').getLast? with
      | none => simp [getLast?_eq_none_iff] at found
      | some tail => exact ⟨tail, rfl⟩
    subst back_eq
    have tail_behind : mp.stop ≤ tail.stop := by
      have mem : tail ∈ mp2 :: back' := by
        rw [getLast?_append_of_ne_nil front (cons_ne_nil mp2 back')] at tail_eq
        exact mem_of_getLast? tail_eq
      have start_le := (ordered.le_start (mem_append_right front mem)).2
      have far := behind tail mem
      omega
    rw [if_neg (by simp), if_pos rfl, sub_zero]
    cases front with
    | nil =>
      have far := behind mp2 mem_cons_self
      have clipped := @clip_apart true mp
        (if mp.start = 0 then if mp2.start ≤ mp.stop then holeCnt - 1 else holeCnt
          else if mp.stop < mp2.start then holeCnt + 1 else holeCnt) (mp2 :: back')
            (by rintro _ ⟨⟩; exact far)
      rw [nil_append] at tail_eq ⊢
      rw [place, tail_eq]
      dsimp only [head?_cons]
      rw [if_neg (by omega), if_pos (by omega), clipped]
      refine ⟨_, rfl, ?_⟩
      simp only [nil_append, gaps]
      split_ifs <;> omega
    | cons mp1 front =>
      have near := before mp1 mem_cons_self
      have start_le :=
        (ordered.le_start (mem_append_left (mp2 :: back') (mem_cons_self (a := mp1)))).2
      obtain ⟨hole', filled, total⟩ :=
        @fill_apart true mp holeCnt (mp1 :: front) (mp2 :: back') 0 ordered nofun nofun before
        behind nonempty
      refine ⟨hole', ?_, total⟩
      rw [place, tail_eq]
      dsimp only [cons_append, head?_cons]
      rw [if_neg (by omega), if_neg (by omega)]
      exact filled

/-! ### Pieces that the queue covers -/

theorem fill_covered (ordered : Ordered u queue) (nonempty : mp.start < mp.stop)
    (first : ∀ b, queue.head? = some b → b.start ≤ mp.start)
    (covered : ∀ x, mp.start ≤ x → x < mp.stop → Covers queue x)
    (long : mp.stop - mp.start ≤ mp.bytes.length) :
    fill more mp holeCnt queue = some (queue, holeCnt) := by
  induction queue generalizing u mp with
  | nil =>
    obtain ⟨b, mem, -⟩ := covered mp.start (le_refl _) nonempty
    exact nomatch mem
  | cons mp1 queue ih =>
    obtain ⟨-, -, ordered⟩ := ordered
    have first1 := first mp1 rfl
    -- What is left of the new piece is covered by the rest of the queue.
    have rest_covers : ∀ x, mp1.stop ≤ x → mp.start ≤ x → x < mp.stop → Covers queue x := by
      intro x x_ge start_le lt
      rcases covers_cons.1 (covered x start_le lt) with ⟨-, inside⟩ | covers
      · omega
      · exact covers
    rw [fill]
    by_cases done : mp.start < mp1.stop ∧ mp.stop ≤ mp1.stop
    · rw [if_pos done]
    rw [if_neg done]
    by_cases inside : mp.start < mp1.stop
    · have advanced : advance (mp1.stop - mp.start) mp.bytes =
          some (mp.bytes.drop (mp1.stop - mp.start)) :=
        if_pos (by omega)
      obtain ⟨b, mem, b_start, -⟩ := rest_covers mp1.stop (le_refl _) (by omega) (by omega)
      cases queue with
      | nil => exact nomatch mem
      | cons mp2 queue =>
        have near : mp2.start ≤ mp1.stop := by
          rcases mem_cons.1 mem with rfl | mem
          · exact b_start
          · have far := (ordered.2.2.le_start mem).1
            have := ordered.2.1
            omega
        dsimp only
        rw [if_pos inside, advanced, Option.map_some]
        dsimp only
        rw [if_pos near]
        have rest := @ih ⟨mp1.stop, mp.stop, mp.bytes.drop (mp1.stop - mp.start)⟩ mp1.stop ordered
            (by dsimp only; omega)
          (by rintro _ ⟨⟩; exact near)
            (fun x ge lt => rest_covers x ge (by dsimp only at ge; omega) lt)
          (by dsimp only; rw [length_drop]; omega)
        rw [rest]
        rfl
    · obtain ⟨b, mem, b_start, -⟩ := rest_covers mp.start (by omega) (le_refl _) nonempty
      cases queue with
      | nil => exact nomatch mem
      | cons mp2 queue =>
        have near : mp2.start ≤ mp.start := by
          rcases mem_cons.1 mem with rfl | mem
          · exact b_start
          · have far := (ordered.2.2.le_start mem).1
            have := ordered.2.1
            omega
        dsimp only
        rw [if_neg inside]
        dsimp only
        rw [if_pos near]
        have rest := @ih mp mp1.stop ordered nonempty (by rintro _ ⟨⟩; exact near)
          (fun x ge lt => rest_covers x (by omega) ge lt) long
        rw [rest]
        rfl

/-- A piece that the queue covers is dropped. -/
theorem place_covered (ordered : Ordered 0 queue) (nonempty : mp.start < mp.stop)
    (covered : ∀ x, mp.start ≤ x → x < mp.stop → Covers queue x)
    (long : mp.stop - mp.start ≤ mp.bytes.length) :
    place more mp holeCnt queue = some (queue, holeCnt) := by
  obtain ⟨b, mem, b_start, b_stop⟩ := covered mp.start (le_refl _) nonempty
  cases queue with
  | nil => exact nomatch mem
  | cons mp1 rest =>
    obtain ⟨tail, tail_eq⟩ : ∃ tail, (mp1 :: rest).getLast? = some tail := by
      cases found : (mp1 :: rest).getLast? with
      | none => simp [getLast?_eq_none_iff] at found
      | some tail => exact ⟨tail, rfl⟩
    have tail_far : b.stop ≤ tail.stop := by
      rw [← stopOf_getLast tail_eq (u := 0)]
      exact ordered.stop_le mem
    have first : mp1.start ≤ mp.start := by
      rcases mem_cons.1 mem with rfl | mem
      · exact b_start
      · have far := (ordered.2.2.le_start mem).1
        have := ordered.2.1
        omega
    rw [place, tail_eq]
    dsimp only [head?_cons]
    rw [if_neg (by omega), if_neg (by omega)]
    exact fill_covered ordered nonempty (by rintro _ ⟨⟩; exact first) covered long

end Sol25.Ip
