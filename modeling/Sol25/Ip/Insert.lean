import Sol25.Ip.Content

/-!
# A piece that overlaps others

A new piece goes to the queue whatever it overlaps: the front of it is trimmed, pieces that it
covers are clipped out, and its end is cut where a longer piece begins.  The hole behind the last
piece goes away once for each piece that a last fragment takes the place of.
-/

namespace Sol25.Ip

open List Nat

variable {ok : ℕ → UInt8 → Prop} {hok : List UInt8 → Prop} {more : Bool} {mp b : Block}
  {holeCnt : ℤ} {queue : List Block} {u : ℕ}

/-- No piece is empty. -/
def Solid (queue : List Block) : Prop := ∀ b ∈ queue, b.start < b.stop

/-- The pieces that a new one takes the place of, but for those with a hole behind them that it
fills. -/
def swallowed (e : ℕ) : List Block → ℤ
  | [] => 0
  | p :: rest =>
    if p.start < e ∧ p.stop ≤ e then
      (if rest.head?.any fun q => decide (p.stop ≠ q.start ∧ q.start ≤ e) then 0 else 1) +
        swallowed e rest
    else 0

/-- The holes at the tail that are taken off the count for a last fragment. -/
def losses (s e : ℕ) : List Block → ℤ
  | [] => 1
  | p :: rest =>
    if s < p.start then swallowed e (p :: rest)
    else if s < p.stop then if e ≤ p.stop then 0 else losses p.stop e rest
    else losses s e rest

variable {mp' p : Block} {e s : ℕ}

/-- The end of a piece is cut. -/
theorem Sound.retreat (sound : Sound ok hok b) (start_lt : b.start < e) (lt : e < b.stop) :
    ∃ bytes, retreat (b.stop - e) b.bytes = some bytes ∧ Sound ok hok ⟨b.start, e, bytes⟩ := by
  obtain ⟨header, data, bytes_eq, length_eq, right, kind⟩ := sound
  have long : b.stop - e ≤ b.bytes.length := by
    rw [bytes_eq, length_append]
    omega
  refine ⟨_, if_pos long, header, data.take (e - b.start), ?_, ?_, ?_, ?_⟩
  · dsimp only
    rw [bytes_eq, length_append,
      show header.length + data.length - (b.stop - e) = header.length + (e - b.start) by omega,
      take_length_add_append]
  · rw [length_take]
    dsimp only
    omega
  · intro i d at_i
    refine right i d ?_
    have i_lt := (List.getElem?_eq_some_iff.1 at_i).1
    rw [length_take] at i_lt
    rwa [getElem?_take_of_lt (by omega)] at at_i
  · dsimp only
    by_cases zero : b.start = 0
    · rw [if_pos zero] at kind ⊢
      exact ⟨by omega, kind.2⟩
    · rw [if_neg zero] at kind ⊢
      exact kind

theorem Sound.advance (sound : Sound ok hok b) (pos : b.start ≠ 0) (le : b.start ≤ s)
    (s_le : s ≤ b.stop) :
    ∃ bytes, advance (s - b.start) b.bytes = some bytes ∧ Sound ok hok ⟨s, b.stop, bytes⟩ := by
  obtain ⟨length_eq, right⟩ := sound.tail pos
  refine ⟨_, if_pos (by omega), sound_tail (by omega) ?_ fun i d at_i => ?_⟩
  · rw [length_drop]
    omega
  · rw [getElem?_drop] at at_i
    have here := right (s - b.start + i) d at_i
    rwa [show b.start + (s - b.start + i) = s + i by omega] at here

/-- What clipping does to a new piece and the pieces behind it. -/
structure Clipped (ok : ℕ → UInt8 → Prop) (hok : List UInt8 → Prop) (mp : Block)
    (queue : List Block) (mp' : Block) (queue' : List Block) : Prop where
  start : mp'.start = mp.start
  nonempty : mp.start < mp'.stop
  sound : Sound ok hok mp'
  ordered : Ordered mp'.stop queue'
  kept : ∀ b ∈ queue', b ∈ queue
  stop : stopOf mp'.stop queue' ≤ max mp.stop (stopOf mp.stop queue)

theorem Clipped.same (sound : Sound ok hok mp) (nonempty : mp.start < mp.stop)
    (ordered : Ordered mp.stop queue) :
    Clipped ok hok mp queue mp queue :=
  ⟨rfl, nonempty, sound, ordered, fun _ mem => mem, le_max_right _ _⟩

theorem swallowed_of_le (far : ∀ b, queue.head? = some b → e ≤ b.start) :
    swallowed e queue = 0 := by
  cases queue with
  | nil => rfl
  | cons b queue =>
    have le := far b rfl
    rw [swallowed, if_neg (by omega)]

theorem swallowed_short (short : e < b.stop) : swallowed e (b :: queue) = 0 := by
  rw [swallowed, if_neg (by omega)]

theorem swallowed_cons (start_lt : b.start < e) (stop_le : b.stop ≤ e) :
    swallowed e (b :: queue) =
      (if queue.head?.any fun q => decide (b.stop ≠ q.start ∧ q.start ≤ e) then 0 else 1) +
        swallowed e queue := by
  rw [swallowed, if_pos ⟨start_lt, stop_le⟩]

theorem gaps_meets (meets : u = b.start) : gaps u (b :: queue) = gaps b.stop queue := by
  rw [gaps, if_pos meets, zero_add]

theorem gaps_apart (apart : u ≠ b.start) : gaps u (b :: queue) = 1 + gaps b.stop queue := by
  rw [gaps, if_neg apart]

theorem clip_short (sound : Sound ok hok mp) (nonempty : mp.start < mp.stop)
    (ordered : Ordered u (p :: queue)) (behind : mp.start < p.start) (touch : p.start ≤ mp.stop)
    (short : mp.stop < p.stop) :
    ∃ mp', clip more mp holeCnt (p :: queue) = some (mp', holeCnt, p :: queue) ∧
      mp'.stop = p.start ∧
      Clipped ok hok mp (p :: queue) mp' (p :: queue) := by
  obtain ⟨-, le, ordered⟩ := ordered
  rw [clip]
  by_cases meets : p.start < mp.stop
  · obtain ⟨bytes, retreated, sound'⟩ := sound.retreat behind meets
    rw [if_pos meets, if_pos short, retreated]
    exact ⟨_, rfl, rfl, rfl, behind, sound', ⟨le_refl _, le, ordered⟩, fun _ mem => mem,
      le_max_right _ _⟩
  · rw [if_neg meets]
    exact ⟨mp, rfl, by omega, Clipped.same sound nonempty ⟨by omega, le, ordered⟩⟩

/-- The pieces behind a new one that touches them are clipped. -/
theorem clip_touching (sound : Sound ok hok mp) (nonempty : mp.start < mp.stop)
    (ordered : Ordered u (p :: queue)) (solid : Solid (p :: queue)) (behind : mp.start < p.start)
    (touch : p.start ≤ mp.stop) :
    ∃ mp' hole' queue', clip more mp holeCnt (p :: queue) = some (mp', hole', queue') ∧
      Clipped ok hok mp (p :: queue) mp' queue' ∧
      hole' - gaps mp'.stop queue' =
        holeCnt - gaps p.stop queue - if more then 0 else swallowed mp.stop (p :: queue) := by
  induction queue generalizing p holeCnt u with
  | nil =>
    by_cases short : mp.stop < p.stop
    · obtain ⟨mp', clipped_eq, stop_eq, clipped⟩ :=
        @clip_short ok hok more mp holeCnt [] u p sound nonempty ordered behind touch short
      refine ⟨mp', holeCnt, [p], clipped_eq, clipped, ?_⟩
      rw [swallowed_short short, ite_self, sub_zero, gaps_meets stop_eq]
    · have p_solid := solid p mem_cons_self
      rw [clip, if_pos (by omega), if_neg short, clip]
      refine ⟨mp, _, [], rfl,
        ⟨rfl, nonempty, sound, trivial, fun _ => by rintro ⟨⟩, le_max_left _ _⟩, ?_⟩
      rw [swallowed_cons (by omega) (by omega), swallowed]
      cases more with
      | true => simp [gaps]
      | false => simp [gaps]
  | cons q queue ih =>
    by_cases short : mp.stop < p.stop
    · obtain ⟨mp', clipped_eq, stop_eq, clipped⟩ := @clip_short ok hok more mp holeCnt
          (q :: queue) u p sound nonempty ordered behind touch short
      refine ⟨mp', holeCnt, p :: q :: queue, clipped_eq, clipped, ?_⟩
      rw [swallowed_short short, ite_self, sub_zero, gaps_meets stop_eq]
    · have p_solid := solid p mem_cons_self
      have q_solid := solid q (mem_cons_of_mem p mem_cons_self)
      obtain ⟨-, le, q_ordered⟩ := ordered
      have q_behind := q_ordered.1
      have rest_solid : Solid (q :: queue) := fun b mem => solid b (mem_cons_of_mem p mem)
      rw [clip, if_pos (by omega), if_neg short]
      dsimp only [head?_cons, Option.any_some]
      rw [swallowed_cons (by omega) (by omega)]
      dsimp only [head?_cons, Option.any_some]
      by_cases q_touch : q.start ≤ mp.stop
      · obtain ⟨mp', hole', queue', clipped_eq, clipped, total⟩ := @ih
          (if decide (p.stop ≠ q.start ∧ q.start ≤ mp.stop) = true ∨ more = false then holeCnt - 1
            else holeCnt) p.stop q
          q_ordered rest_solid (by omega) q_touch
        refine ⟨mp', hole', queue', clipped_eq, ?_, ?_⟩
        · exact ⟨clipped.start, clipped.nonempty, clipped.sound, clipped.ordered,
            fun b mem => mem_cons_of_mem p (clipped.kept b mem), clipped.stop⟩
        · rw [total, gaps]
          cases more with
          | true => by_cases meets : p.stop = q.start <;> simp [meets, q_touch]; omega
          | false => by_cases meets : p.stop = q.start <;> simp [meets, q_touch] <;> omega
      · have far : ∀ b, (q :: queue).head? = some b → mp.stop ≤ b.start := by
          rintro _ ⟨⟩
          omega
        rw [clip_apart far, swallowed_of_le far]
        refine ⟨mp, _, q :: queue, rfl, ?_, ?_⟩
        · exact ⟨rfl, nonempty, sound, ⟨by omega, q_ordered.2⟩,
            fun b mem => mem_cons_of_mem p mem, le_max_right _ _⟩
        · rw [gaps_apart (by omega), gaps_apart (by omega)]
          cases more with
          | true => simp [q_touch]
          | false => simp [q_touch]; omega

/-! ### The place of a new piece -/

theorem tailHole_of_ne (ne : queue ≠ []) : tailHole queue holeCnt = holeCnt - gaps 0 queue :=
  if_neg ne

/-- What a new piece does to a queue. -/
structure Inserted (ok : ℕ → UInt8 → Prop) (hok : List UInt8 → Prop) (u : ℕ) (mp : Block)
    (queue queue' : List Block) : Prop where
  ordered : Ordered u queue'
  solid : Solid queue'
  sound : ∀ b ∈ queue', Sound ok hok b
  within : ∀ b ∈ queue', b ∈ queue ∨ mp.start ≤ b.start
  stop : stopOf u queue' ≤ max mp.stop (stopOf u queue)
  ne : queue' ≠ []

theorem Inserted.same (ordered : Ordered u (p :: queue)) (solid : Solid (p :: queue))
    (sound : ∀ b ∈ p :: queue, Sound ok hok b) : Inserted ok hok u mp (p :: queue) (p :: queue) :=
  ⟨ordered, solid, sound, fun _ mem => .inl mem, le_max_right _ _, cons_ne_nil p queue⟩

theorem Clipped.inserted {queue' : List Block} (clipped : Clipped ok hok mp queue mp' queue')
    (le : u ≤ mp.start) (solid : Solid queue) (sound : ∀ b ∈ queue, Sound ok hok b)
    (ne : queue ≠ []) :
    Inserted ok hok u mp queue (mp' :: queue') where
  ordered := ⟨clipped.start ▸ le, by rw [clipped.start]; exact clipped.nonempty.le, clipped.ordered⟩
  solid := forall_mem_cons.2
    ⟨by rw [clipped.start]; exact clipped.nonempty, fun b mem => solid b (clipped.kept b mem)⟩
  sound := forall_mem_cons.2 ⟨clipped.sound, fun b mem => sound b (clipped.kept b mem)⟩
  within := forall_mem_cons.2
    ⟨.inr clipped.start.ge, fun b mem => .inl (clipped.kept b mem)⟩
  stop := by
    cases queue with
    | nil => exact absurd rfl ne
    | cons p queue => exact clipped.stop
  ne := cons_ne_nil mp' queue'

/-- A piece in front of those where a new one goes. -/
theorem Inserted.cons {queue' : List Block} (inserted : Inserted ok hok p.stop mp' queue queue')
    (le : u ≤ p.start) (nonempty : p.start < p.stop) (sound : Sound ok hok p)
    (start_le : mp.start ≤ mp'.start) (stop_eq : mp'.stop = mp.stop) :
    Inserted ok hok u mp (p :: queue) (p :: queue') where
  ordered := ⟨le, nonempty.le, inserted.ordered⟩
  solid := forall_mem_cons.2 ⟨nonempty, inserted.solid⟩
  sound := forall_mem_cons.2 ⟨sound, inserted.sound⟩
  within := by
    refine forall_mem_cons.2 ⟨.inl mem_cons_self, fun b mem => ?_⟩
    rcases inserted.within b mem with mem | ge
    · exact .inl (mem_cons_of_mem p mem)
    · exact .inr (start_le.trans ge)
  stop := by
    have far := inserted.stop
    rw [stop_eq] at far
    exact far
  ne := cons_ne_nil p queue'

theorem losses_swallowed (lt : s < b.start) :
    losses s e (b :: queue) = swallowed e (b :: queue) := by
  rw [losses, if_pos lt]

/-- What is behind a piece that a new one starts in, or behind. -/
theorem trim (sound : Sound ok hok mp) (pos : mp.start ≠ 0) (nonempty : mp.start < mp.stop)
    (first : p.start ≤ mp.start) (new : ¬ (mp.start < p.stop ∧ mp.stop ≤ p.stop)) :
    ∃ mp', (if mp.start < p.stop then (advance (p.stop - mp.start) mp.bytes).map fun bytes =>
      (⟨p.stop, mp.stop, bytes⟩ : Block)
        else some mp) = some mp' ∧
      mp'.stop = mp.stop ∧ mp.start ≤ mp'.start ∧ p.stop ≤ mp'.start ∧ mp'.start < mp'.stop ∧
        Sound ok hok mp' ∧
      losses mp.start mp.stop (p :: queue) = losses mp'.start mp'.stop queue ∧
      (mp'.start = p.stop ∨ mp'.start = mp.start ∧ ¬ mp.start < p.stop) := by
  have not_before : ¬ mp.start < p.start := by omega
  rw [losses, if_neg not_before]
  by_cases inside : mp.start < p.stop
  · obtain ⟨bytes, advanced, sound'⟩ := sound.advance pos (by omega : mp.start ≤ p.stop) (by omega)
    rw [if_pos inside, advanced, if_pos inside, if_neg (by omega : ¬ mp.stop ≤ p.stop)]
    exact ⟨_, rfl, rfl, inside.le, le_refl _, by dsimp only; omega, sound', rfl, .inl rfl⟩
  · rw [if_neg inside, if_neg inside]
    exact ⟨mp, rfl, rfl, le_refl _, by omega, nonempty, sound, rfl, .inr ⟨rfl, inside⟩⟩

/-- A new piece goes into the hole in front of the next one. -/
theorem fill_hole {q : Block} (sound : Sound ok hok mp') (nonempty : mp'.start < mp'.stop)
    (ordered : Ordered u (p :: q :: queue)) (solid : Solid (p :: q :: queue))
    (sounds : ∀ b ∈ p :: q :: queue, Sound ok hok b) (behind : p.stop ≤ mp'.start)
    (before : mp'.start < q.start) (start_le : mp.start ≤ mp'.start)
    (stop_eq : mp'.stop = mp.stop) :
    ∃ queue' hole', (let holeCnt := if p.stop < mp'.start then holeCnt + 1 else holeCnt
        if q.start ≤ mp'.stop then (clip more mp' (holeCnt - 1) (q :: queue)).map fun r =>
          (p :: r.1 :: r.2.2, r.2.1)
        else some (p :: mp' :: q :: queue, holeCnt)) = some (queue', hole') ∧
      Inserted ok hok u mp (p :: q :: queue) queue' ∧
      hole' - gaps u queue' = holeCnt - gaps u (p :: q :: queue) - if more then 0 else
          losses mp'.start mp'.stop (q :: queue) := by
  obtain ⟨le, -, q_ordered⟩ := ordered
  obtain ⟨p_solid, q_solid⟩ := forall_mem_cons.1 solid
  obtain ⟨p_sound, q_sounds⟩ := forall_mem_cons.1 sounds
  have p_gap : p.stop ≠ q.start := by omega
  rw [losses_swallowed before]
  dsimp only
  by_cases touch : q.start ≤ mp'.stop
  · obtain ⟨mp'', hole', queue', clipped_eq, clipped, total⟩ := @clip_touching ok hok more mp'
      ((if p.stop < mp'.start then holeCnt + 1 else holeCnt) - 1) queue p.stop q sound nonempty
        q_ordered q_solid before touch
    have inserted := clipped.inserted behind q_solid q_sounds (cons_ne_nil q queue)
    rw [if_pos touch, clipped_eq]
    refine ⟨_, _, rfl, inserted.cons le p_solid p_sound start_le stop_eq, ?_⟩
    dsimp only
    rw [gaps, gaps, gaps, gaps_apart p_gap, clipped.start]
    split_ifs at total ⊢ <;> omega
  · have far : ∀ b, (q :: queue).head? = some b → mp'.stop ≤ b.start := by
      rintro _ ⟨⟩
      omega
    have rest_ordered : Ordered mp'.stop (q :: queue) := ⟨by omega, q_ordered.2⟩
    have inserted :=
      (Clipped.same sound nonempty rest_ordered).inserted behind q_solid q_sounds
        (cons_ne_nil q queue)
    rw [if_neg touch, swallowed_of_le far, ite_self, sub_zero]
    refine ⟨_, _, rfl, inserted.cons le p_solid p_sound start_le stop_eq, ?_⟩
    have q_gap : mp'.stop ≠ q.start := by omega
    simp only [gaps, if_neg p_gap, if_neg q_gap]
    split_ifs <;> omega

/-- A new piece that starts in the queue, behind the start of the first piece. -/
theorem fill_inserted (sound : Sound ok hok mp) (pos : mp.start ≠ 0) (nonempty : mp.start < mp.stop)
    (ordered : Ordered u (p :: queue)) (solid : Solid (p :: queue))
    (sounds : ∀ b ∈ p :: queue, Sound ok hok b) (first : p.start ≤ mp.start)
    (inside : mp.start < stopOf u (p :: queue)) :
    ∃ queue' hole', fill more mp holeCnt (p :: queue) = some (queue', hole') ∧
      Inserted ok hok u mp (p :: queue) queue' ∧
      hole' - gaps u queue' = holeCnt - gaps u (p :: queue) - if more then 0 else
          losses mp.start mp.stop (p :: queue) := by
  induction queue generalizing p mp u with
  | nil =>
    rw [stopOf, stopOf] at inside
    rw [fill]
    by_cases old : mp.start < p.stop ∧ mp.stop ≤ p.stop
    · rw [if_pos old]
      refine ⟨_, _, rfl, Inserted.same ordered solid sounds, ?_⟩
      rw [losses, if_neg (by omega : ¬ mp.start < p.start), if_pos old.1, if_pos old.2, ite_self,
        sub_zero]
    · obtain ⟨mp', trimmed_eq, stop_eq, start_le, behind, nonempty', sound', losses_eq, start_eq⟩ :=
        @trim ok hok mp [] p sound pos nonempty first old
      rw [if_neg old]
      dsimp only
      rw [trimmed_eq]
      dsimp only
      rw [if_pos inside, losses_eq, losses]
      obtain ⟨le, -, -⟩ := ordered
      obtain ⟨p_solid, -⟩ := forall_mem_cons.1 solid
      obtain ⟨p_sound, -⟩ := forall_mem_cons.1 sounds
      have alone : Inserted ok hok p.stop mp' [] [mp'] :=
        ⟨⟨behind, nonempty'.le, trivial⟩, forall_mem_singleton.2 nonempty',
          forall_mem_singleton.2 sound',
          forall_mem_singleton.2 (.inr (le_refl _)), le_max_left _ _, by simp⟩
      refine ⟨_, _, rfl, alone.cons le p_solid p_sound start_le stop_eq, ?_⟩
      have meets : p.stop = mp'.start := by omega
      simp only [gaps, if_pos meets]
      split_ifs <;> omega
  | cons q queue ih =>
    rw [fill]
    by_cases old : mp.start < p.stop ∧ mp.stop ≤ p.stop
    · rw [if_pos old]
      refine ⟨_, _, rfl, Inserted.same ordered solid sounds, ?_⟩
      rw [losses, if_neg (by omega : ¬ mp.start < p.start), if_pos old.1, if_pos old.2, ite_self,
        sub_zero]
    · obtain ⟨mp', trimmed_eq, stop_eq, start_le, behind, nonempty', sound', losses_eq, start_eq⟩ :=
        @trim ok hok mp (q :: queue) p sound pos nonempty first old
      rw [if_neg old]
      dsimp only
      rw [trimmed_eq, losses_eq]
      dsimp only
      by_cases farther : q.start ≤ mp'.start
      · obtain ⟨le, -, q_ordered⟩ := ordered
        obtain ⟨p_solid, q_solid⟩ := forall_mem_cons.1 solid
        obtain ⟨p_sound, q_sounds⟩ := forall_mem_cons.1 sounds
        have q_stop := q_ordered.stop_le (mem_cons_self (a := q))
        have q_nonempty := q_solid q mem_cons_self
        have q_start := q_ordered.1
        obtain ⟨queue', hole', filled_eq, inserted, total⟩ :=
          @ih mp' p.stop q sound' (by omega) nonempty' q_ordered q_solid q_sounds
          farther (by
            rw [stopOf] at inside
            omega)
        rw [if_pos farther, filled_eq]
        refine ⟨_, _, rfl, inserted.cons le p_solid p_sound start_le stop_eq, ?_⟩
        dsimp only
        rw [gaps, gaps]
        omega
      · rw [if_neg farther]
        exact fill_hole sound' nonempty' ordered solid sounds behind (by omega) start_le stop_eq

theorem insert_end (sound : Sound ok hok mp) (nonempty : mp.start < mp.stop)
    (ordered : Ordered u queue) (solid : Solid queue) (sounds : ∀ b ∈ queue, Sound ok hok b)
    (at_end : stopOf u queue ≤ mp.start) :
    Inserted ok hok u mp queue (queue ++ [mp]) where
  ordered := ordered_append.2 ⟨ordered, at_end, nonempty.le, trivial⟩
  solid := forall_mem_append.2 ⟨solid, forall_mem_singleton.2 nonempty⟩
  sound := forall_mem_append.2 ⟨sounds, forall_mem_singleton.2 sound⟩
  within := forall_mem_append.2
    ⟨fun _ mem => .inl mem, forall_mem_singleton.2 (.inr (le_refl _))⟩
  stop := by
    rw [stopOf_getLast getLast?_concat]
    exact le_max_left _ _
  ne := by simp

theorem losses_end (ordered : Ordered u queue) (at_end : stopOf u queue ≤ s) :
    losses s e queue = 1 := by
  induction queue generalizing u with
  | nil => rfl
  | cons p queue ih =>
    obtain ⟨-, le, ordered⟩ := ordered
    rw [stopOf] at at_end
    have p_stop := ordered.le_stopOf
    have not_before : ¬ s < p.start := by omega
    have not_inside : ¬ s < p.stop := by omega
    rw [losses, if_neg not_before, if_neg not_inside]
    exact ih ordered at_end

/-- A new piece in front of all others. -/
theorem insert_front (sound : Sound ok hok mp) (nonempty : mp.start < mp.stop)
    (ordered : Ordered u (p :: queue)) (solid : Solid (p :: queue))
    (sounds : ∀ b ∈ p :: queue, Sound ok hok b) (in_front : mp.start < p.start) :
    ∃ mp' hole' queue', clip more mp holeCnt (p :: queue) = some (mp', hole', queue') ∧
      Inserted ok hok 0 mp (p :: queue) (mp' :: queue') ∧ mp'.start = mp.start ∧
      hole' - gaps mp'.stop queue' =
        holeCnt - (if p.start ≤ mp.stop then 0 else 1) - gaps p.stop queue -
          if more then 0 else losses mp.start mp.stop (p :: queue) := by
  rw [losses_swallowed in_front]
  by_cases touch : p.start ≤ mp.stop
  · obtain ⟨mp', hole', queue', clipped_eq, clipped, total⟩ :=
      @clip_touching ok hok more mp holeCnt queue u p sound nonempty ordered solid in_front touch
    refine ⟨mp', hole', queue', clipped_eq,
      clipped.inserted (zero_le _) solid sounds (cons_ne_nil p queue),
      clipped.start, ?_⟩
    rw [if_pos touch, sub_zero]
    exact total
  · have far : ∀ b, (p :: queue).head? = some b → mp.stop ≤ b.start := by
      rintro _ ⟨⟩
      omega
    have rest_ordered : Ordered mp.stop (p :: queue) := ⟨by omega, ordered.2⟩
    refine ⟨mp, holeCnt, p :: queue, clip_apart far,
      (Clipped.same sound nonempty rest_ordered).inserted (zero_le _) solid sounds
        (cons_ne_nil p queue), rfl, ?_⟩
    rw [if_neg touch, swallowed_of_le far, ite_self, sub_zero, gaps_apart (by omega)]
    omega

/-- A new piece is put in its place, whatever it overlaps.  Only the piece at the start has a
header, so it is not trimmed. -/
theorem place_inserted (sound : Sound ok hok mp) (nonempty : mp.start < mp.stop)
    (ordered : Ordered 0 queue) (solid : Solid queue) (sounds : ∀ b ∈ queue, Sound ok hok b)
    (start : mp.start = 0 → more = true ∧ ∀ b ∈ queue, b.start ≠ 0) :
    ∃ queue' hole', place more mp holeCnt queue = some (queue', hole') ∧
      Inserted ok hok 0 mp queue queue' ∧
      tailHole queue' hole' = tailHole queue holeCnt - if more then 0 else
        losses mp.start mp.stop queue := by
  cases queue with
  | nil =>
    rw [place]
    dsimp only [getLast?_nil]
    refine ⟨_, _, rfl, ?_, ?_⟩
    · exact ⟨⟨zero_le _, nonempty.le, trivial⟩, forall_mem_singleton.2 nonempty,
        forall_mem_singleton.2 sound,
        forall_mem_singleton.2 (.inr (le_refl _)), le_max_left _ _, by simp⟩
    · rw [tailHole_of_ne (cons_ne_nil mp []), tailHole, if_pos rfl, losses, gaps, gaps]
      by_cases zero : mp.start = 0
      · rw [(start zero).1]
        simp [zero]
      · cases more with
        | true => simp [zero, Ne.symm zero]
        | false => simp [Ne.symm zero]
  | cons p queue =>
    obtain ⟨tail, tail_eq⟩ : ∃ tail, (p :: queue).getLast? = some tail := by
      cases found : (p :: queue).getLast? with
      | none => simp [getLast?_eq_none_iff] at found
      | some tail => exact ⟨tail, rfl⟩
    have stop_eq : stopOf 0 (p :: queue) = tail.stop := stopOf_getLast tail_eq
    rw [place, tail_eq]
    dsimp only [head?_cons]
    by_cases at_end : tail.stop ≤ mp.start
    · rw [if_pos at_end]
      refine ⟨_, _, rfl, insert_end sound nonempty ordered solid sounds (stop_eq ▸ at_end), ?_⟩
      rw [tailHole_of_ne (by simp), tailHole_of_ne (cons_ne_nil p queue), gaps_append,
        losses_end ordered (stop_eq ▸ at_end), stop_eq]
      simp only [gaps]
      cases more with
      | true => simp only [if_true]; split_ifs <;> omega
      | false => simp only [Bool.false_eq_true, if_false]; split_ifs <;> omega
    rw [if_neg at_end]
    by_cases in_front : mp.start < p.start
    · rw [if_pos in_front]
      obtain ⟨mp', hole', queue', clipped_eq, inserted, start_eq, total⟩ :=
        @insert_front ok hok more mp
        (if mp.start = 0 then if p.start ≤ mp.stop then holeCnt - 1 else holeCnt
          else if mp.stop < p.start then holeCnt + 1 else holeCnt) queue 0 p sound nonempty
            ordered solid sounds in_front
      rw [clipped_eq]
      refine ⟨_, _, rfl, inserted, ?_⟩
      dsimp only
      have gap : 0 ≠ p.start := by omega
      rw [tailHole_of_ne (cons_ne_nil mp' queue'), tailHole_of_ne (cons_ne_nil p queue),
        gaps_apart gap, gaps, start_eq]
      split_ifs at total ⊢ <;> omega
    · rw [if_neg in_front]
      have pos : mp.start ≠ 0 := fun zero => (start zero).2 p mem_cons_self (by omega)
      obtain ⟨queue', hole', filled_eq, inserted, total⟩ :=
        @fill_inserted ok hok more mp holeCnt queue 0 p sound pos nonempty ordered
        solid sounds (by omega) (by omega)
      refine ⟨queue', hole', filled_eq, inserted, ?_⟩
      rw [tailHole_of_ne inserted.ne, tailHole_of_ne (cons_ne_nil p queue)]
      exact total

end Sol25.Ip
