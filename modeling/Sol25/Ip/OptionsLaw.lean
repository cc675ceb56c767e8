import Sol25.Ip.Options
import Mathlib.Data.List.Infix

/-!
# What the options of a header may become

An option that is gone through changes nothing but itself and the destination of the packet, and its
pointer moves over slots that were filled.  Two slips of the code are at stake: the `break` for a
listed address that is not ours only leaves the inner `switch`, and the source route of a packet
that was not for this host is not looked over before it is used.
-/

namespace Sol25.Ip.Options

open List Nat Function

variable {env : Env} {m m' : Mem} {w w' w'' : Work} {p : Opt} {bytes more : List ℕ} {i j k n : ℕ}

/-- The options of a header, up to the end of the list. -/
def optionsFrom (m : Mem) : ℕ → ℕ → ℕ → List Opt
  | 0, _, _ => []
  | fuel + 1, totallen, opt =>
    if totallen = 0 then []
    else if optValOf (num m opt) = .eol then []
    else if optlenAt m opt = 0 ∨ totallen < optlenAt m opt then []
    else ⟨opt, optlenAt m opt⟩ ::
      optionsFrom m fuel (totallen - optlenAt m opt) (opt + optlenAt m opt)

def optionsOf (m : Mem) : List Opt := optionsFrom m (totallenOf m + 1) (totallenOf m) 20

/-- What is to be filled in at the pointer of an option. -/
def slotOf (env : Env) (p : Opt) (m : Mem) : List ℕ :=
  match p.val m with
  | .rr | .lsrr | .ssrr => bytesOf env.srcAddr
  | .it => if p.flag m = .time then bytesOf env.millis else
      bytesOf env.srcAddr ++ bytesOf env.millis
  | .eol | .nop | .other => []

/-- The places that a step may change: the option itself, if it is one that is brought up to date,
and the destination of the packet. -/
def Step.Inside (s : Step) (i : ℕ) : Prop :=
  (s.opt.val s.before ∈ [.rr, .it, .lsrr, .ssrr] ∧ s.opt.start ≤ i ∧
    i < s.opt.start + s.opt.optlen) ∨ 16 ≤ i ∧ i < 20

/-- A step stays inside the option, moves its pointer only over what it has filled in, and fills a
slot that is set aside for an address only if the address is ours. -/
structure Step.Ok (env : Env) (s : Step) : Prop where
  inside : ∀ i, i ∈ s.after.wrote ∨ s.after.mem i ≠ s.before i → s.Inside i
  still : s.after.moved = 0 → s.opt.ptr s.after.mem ≤ s.opt.ptr s.before
  filled : s.after.moved ≠ 0 → s.after.moved = (slotOf env s.opt s.before).length ∧
    s.opt.ptr s.after.mem = s.opt.ptr s.before + s.after.moved ∧
    ∀ k b, (slotOf env s.opt s.before)[k]? = some b →
      num s.after.mem (s.opt.start + (s.opt.ptr s.before - 1) + k) = b
  ours : s.after.moved ≠ 0 → s.opt.val s.before = .it → s.opt.flag s.before = .spec →
    env.myaddr (s.opt.listed s.before) = true

/-- The steps follow each other from a header to what has become of it. -/
def Linked (m : Mem) : List Step → Mem → Prop
  | [], now => now = m
  | s :: steps, now => now = s.after.mem ∧ Linked m steps s.before

/-- What `ip_rput_options` has made sure of. -/
structure Opt.Taken (p : Opt) (m : Mem) : Prop where
  rr : p.val m = .rr → 4 ≤ p.ptr m
  it : p.val m = .it → 5 ≤ p.optlen ∧ p.flag m ≠ .other ∧ 5 ≤ p.ptr m

/-- What a function does along the options: where it stops, which options it goes through well, and
the address it has in mind behind each. -/
structure Plan where
  stops : Mem → Opt → ℕ → Prop
  fits : Mem → Opt → ℕ → Prop
  next : Mem → Opt → ℕ → ℕ

/-- The options up to the stop are gone through well. -/
def Plan.Safe (plan : Plan) (m : Mem) : ℕ → List Opt → Prop
  | _, [] => True
  | dst, p :: l => plan.stops m p dst ∨ plan.fits m p dst ∧ plan.Safe m (plan.next m p dst) l

def Opt.IsSourceRoute (p : Opt) (m : Mem) : Prop := p.val m = .lsrr ∨ p.val m = .ssrr

def Opt.IsSpec (p : Opt) (m : Mem) : Prop := p.val m = .it ∧ p.flag m = .spec

instance (p : Opt) (m : Mem) : Decidable (p.IsSourceRoute m) := inferInstanceAs (Decidable (_ ∨ _))

instance (p : Opt) (m : Mem) : Decidable (p.IsSpec m) := inferInstanceAs (Decidable (_ ∧ _))

/-- A slot set aside for an address that is not ours is left alone only if the place of the slot,
taken for its length, is too long for the option. -/
def Opt.Spared (env : Env) (p : Opt) (m : Mem) : Prop :=
  p.IsSpec m → env.myaddr (p.listed m) = false → p.optlen < p.off m + p.off m

/-- A packet that is sent on: this host is the last hop of a source route whose pointer was not
looked over. -/
def forwardPlan (env : Env) : Plan where
  stops := fun m p _ => p.IsSourceRoute m ∧ env.srcRouted = false
  fits := fun m p dst => p.Spared env m ∧
    (p.IsSourceRoute m → env.myaddr dst = true → ¬p.Full m → 4 ≤ p.ptr m)
  next := fun m p dst =>
    if p.IsSpec m ∨ p.IsSourceRoute m ∧ env.myaddr dst = true ∧ ¬p.Full m then p.listed m else dst

/-- A packet for this host. -/
def localPlan (env : Env) : Plan where
  stops := fun m p _ => p.val m = .ssrr ∧ ¬p.Full m
  fits := fun m p _ => p.Spared env m
  next := fun m p dst => if p.IsSpec m then p.listed m else dst

theorem num_lt (m : Mem) (i : ℕ) : num m i < 256 := (m i).isLt

theorem num_eq (eq : m i = m' j) : num m i = num m' j := congrArg Fin.val eq

namespace Opt

theorem ptr_lt (p : Opt) (m : Mem) : p.ptr m < 256 := num_lt m _

theorem off_eq (pos : 1 ≤ p.ptr m) : p.off m = p.ptr m - 1 := by
  have lt := p.ptr_lt m
  rw [off]
  omega

theorem not_full_iff (short : p.optlen ≤ 40) :
    ¬p.Full m ↔ 1 ≤ p.ptr m ∧ p.ptr m + 3 ≤ p.optlen := by
  have lt := p.ptr_lt m
  rw [Full, off]
  omega

theorem place_eq (lt : p.start + n < 2 ^ 32) : p.place n = p.start + n := mod_eq_of_lt lt

end Opt

theorem bytesOf_lt {x b : ℕ} (mem : b ∈ bytesOf x) : b < 256 := by
  simp only [bytesOf, mem_cons, not_mem_nil, or_false] at mem
  omega

theorem length_bytesOf (x : ℕ) : (bytesOf x).length = 4 := rfl

namespace Work

theorem num_put (w : Work) (i b j : ℕ) :
    num (w.put i b).mem j = if j = i then b % 256 else num w.mem j := by
  by_cases same : j = i
  · rw [if_pos same, same, num, put]
    dsimp only
    rw [update_self]
    rfl
  · rw [if_neg same, num, put]
    dsimp only
    rw [update_of_ne same]
    rfl

theorem mem_put_of_ne (ne : j ≠ i) (b : ℕ) : (w.put i b).mem j = w.mem j := update_of_ne ne _ _

theorem mem_wrote_put (w : Work) (i b : ℕ) : j ∈ (w.put i b).wrote ↔ j = i ∨ j ∈ w.wrote := mem_cons

theorem mem_bcopy_of_outside (bytes : List ℕ) (outside : j < i ∨ i + bytes.length ≤ j) :
    (w.bcopy i bytes).mem j = w.mem j := by
  induction bytes generalizing w i with
  | nil => rfl
  | cons b bytes ih =>
    rw [length_cons] at outside
    rw [bcopy, ih (by omega), mem_put_of_ne (by omega)]

theorem num_bcopy (at_k : bytes[k]? = some n) (lt : n < 256) :
    num (w.bcopy i bytes).mem (i + k) = n := by
  induction bytes generalizing w i k with
  | nil => exact nomatch at_k
  | cons b bytes ih =>
    cases k with
    | zero =>
      obtain rfl : b = n := Option.some.inj at_k
      rw [bcopy, num_eq (mem_bcopy_of_outside bytes (by omega)), num_put,
        if_pos (Nat.add_zero i), mod_eq_of_lt lt]
    | succ k =>
      rw [bcopy, show i + (k + 1) = i + 1 + k by omega]
      exact ih at_k

theorem mem_wrote_bcopy (w : Work) (i : ℕ) (bytes : List ℕ) :
    j ∈ (w.bcopy i bytes).wrote ↔ (i ≤ j ∧ j < i + bytes.length) ∨ j ∈ w.wrote := by
  induction bytes generalizing w i with
  | nil =>
    rw [bcopy, length_nil]
    exact ⟨.inr, fun either => either.resolve_left (by omega)⟩
  | cons b bytes ih =>
    rw [bcopy, ih, mem_wrote_put, length_cons]
    constructor
    · rintro (inside | rfl | wrote)
      · exact .inl ⟨by omega, by omega⟩
      · exact .inl ⟨by omega, by omega⟩
      · exact .inr wrote
    · rintro (inside | wrote)
      · by_cases first : j = i
        · exact .inr (.inl first)
        · exact .inl ⟨by omega, by omega⟩
      · exact .inr (.inr wrote)

@[simp]
theorem moved_bcopy (w : Work) (i : ℕ) (bytes : List ℕ) : (w.bcopy i bytes).moved = w.moved := by
  induction bytes generalizing w i with
  | nil => rfl
  | cons b bytes ih => rw [bcopy, ih, put]

@[simp]
theorem dst_bcopy (w : Work) (i : ℕ) (bytes : List ℕ) : (w.bcopy i bytes).dst = w.dst := by
  induction bytes generalizing w i with
  | nil => rfl
  | cons b bytes ih => rw [bcopy, ih, put]

end Work

/-- Bytes are filled in at the pointer of an option, which moves behind them. -/
structure Filled (p : Opt) (bytes : List ℕ) (w w' : Work) : Prop where
  moved : w'.moved = w.moved + bytes.length
  ptr : p.ptr w'.mem = p.ptr w.mem + bytes.length
  slot : ∀ k b, bytes[k]? = some b → num w'.mem (p.start + (p.ptr w.mem - 1) + k) = b
  other : ∀ i, i ≠ p.start + 2 → (i < 16 ∨ 20 ≤ i) →
    (i < p.start + (p.ptr w.mem - 1) ∨ p.start + (p.ptr w.mem - 1) + bytes.length ≤ i) →
    w'.mem i = w.mem i
  wrote : ∀ i ∈ w'.wrote, i ∈ w.wrote ∨ i = p.start + 2 ∨ 16 ≤ i ∧ i < 20 ∨
    p.start + (p.ptr w.mem - 1) ≤ i ∧ i < p.start + (p.ptr w.mem - 1) + bytes.length

/-- One slot and the next one are a longer slot. -/
theorem Filled.trans (first : Filled p bytes w w') (second : Filled p more w' w'')
    (le : 4 ≤ p.ptr w.mem) (start_le : 20 ≤ p.start) : Filled p (bytes ++ more) w w'' := by
  have ptr_eq := first.ptr
  refine ⟨?_, ?_, fun k b at_k => ?_, fun i ne outer outside => ?_, fun i wrote => ?_⟩
  · rw [second.moved, first.moved, length_append, Nat.add_assoc]
  · rw [second.ptr, first.ptr, length_append, Nat.add_assoc]
  · by_cases lt : k < bytes.length
    · rw [getElem?_append_left lt] at at_k
      rw [← first.slot k b at_k]
      exact num_eq (second.other _ (by omega) (by omega) (by omega))
    · rw [getElem?_append_right (Nat.le_of_not_lt lt)] at at_k
      rw [← second.slot _ b at_k]
      congr 1
      omega
  · rw [length_append] at outside
    rw [second.other i ne outer (by omega), first.other i ne outer (by omega)]
  · rw [length_append]
    rcases second.wrote i wrote with wrote | rest
    · rcases first.wrote i wrote with wrote | rest
      · exact .inl wrote
      · omega
    · omega

/-- A slot is filled in, whatever else happens to the destination of the packet. -/
theorem Filled.advance (le : 4 ≤ p.ptr w.mem) (lt : p.ptr w.mem + bytes.length < 256)
    (moved : w'.moved = w.moved)
    (slot : ∀ k b, bytes[k]? = some b → num w'.mem (p.start + (p.ptr w.mem - 1) + k) = b)
    (other : ∀ i, (i < 16 ∨ 20 ≤ i) →
      (i < p.start + (p.ptr w.mem - 1) ∨ p.start + (p.ptr w.mem - 1) + bytes.length ≤ i) →
      w'.mem i = w.mem i)
    (wrote : ∀ i ∈ w'.wrote, i ∈ w.wrote ∨ 16 ≤ i ∧ i < 20 ∨
      p.start + (p.ptr w.mem - 1) ≤ i ∧ i < p.start + (p.ptr w.mem - 1) + bytes.length)
    (start_le : 20 ≤ p.start) : Filled p bytes w (w'.advance p bytes.length) := by
  have ptr_eq : p.ptr w'.mem = p.ptr w.mem := num_eq (other _ (by omega) (by omega))
  have read (i : ℕ) : num (w'.advance p bytes.length).mem i =
      if i = p.start + 2 then (p.ptr w'.mem + bytes.length) % 256 else num w'.mem i :=
    Work.num_put w' _ _ i
  refine ⟨?_, ?_, fun k b at_k => ?_, fun i ne outer outside => ?_, fun i wrote' => ?_⟩
  · rw [Work.advance, moved]
  · rw [Opt.ptr, read, if_pos rfl, ptr_eq, mod_eq_of_lt lt]
  · rw [read, if_neg (by omega)]
    exact slot k b at_k
  · rw [Work.advance]
    dsimp only
    rw [Work.mem_put_of_ne ne, other i outer outside]
  · rcases (Work.mem_wrote_put w' (p.start + 2) (p.ptr w'.mem + bytes.length)).1
        wrote' with eq | wrote'
    · exact .inr (.inl eq)
    · rcases wrote i wrote' with wrote' | rest
      · exact .inl wrote'
      · omega

theorem filled_bcopy (le : 4 ≤ p.ptr w.mem) (lt : p.ptr w.mem + bytes.length < 256)
    (start_le : 20 ≤ p.start) (start_lt : p.start ≤ 60) (small : ∀ b ∈ bytes, b < 256) :
    Filled p bytes w ((w.bcopy (p.place (p.off w.mem)) bytes).advance p bytes.length) := by
  rw [Opt.off_eq (by omega), Opt.place_eq (by omega)]
  refine .advance le lt (Work.moved_bcopy w _ bytes) (fun k b at_k => ?_) (fun i _ outside => ?_)
    (fun i wrote => ?_) start_le
  · exact Work.num_bcopy at_k (small b (mem_of_getElem? at_k))
  · exact Work.mem_bcopy_of_outside bytes outside
  · rcases (Work.mem_wrote_bcopy w _ bytes).1 wrote with inside | wrote
    · exact .inr (.inr inside)
    · exact .inl wrote

/-- An option among the options of a header. -/
structure Opt.Placed (p : Opt) : Prop where
  le : 20 ≤ p.start
  pos : 0 < p.optlen
  ends : p.start + p.optlen ≤ 60

theorem Opt.Placed.short (placed : p.Placed) : p.optlen ≤ 40 := by
  have le := placed.le
  have ends := placed.ends
  omega

variable {dst : ℕ}

theorem ok_fresh (env : Env) (p : Opt) (m : Mem) (dst dst' : ℕ) :
    Step.Ok env ⟨p, m, { Work.fresh m dst with dst := dst' }⟩ :=
  ⟨fun _ either => (either.elim (fun wrote => nomatch wrote) fun ne => (ne rfl).elim),
    fun _ => Nat.le_refl _, fun moved => (moved rfl).elim, fun moved => (moved rfl).elim⟩

/-- A slot inside the option that is filled with what belongs there. -/
theorem ok_of_filled (dst : ℕ) (kind : p.val m ∈ [.rr, .it, .lsrr, .ssrr])
    (le : 4 ≤ p.ptr m) (fits : p.ptr m - 1 + (slotOf env p m).length ≤ p.optlen)
    (filled : Filled p (slotOf env p m) (.fresh m dst) w)
    (ours : p.val m = .it → p.flag m = .spec → env.myaddr (p.listed m) = true) :
    Step.Ok env ⟨p, m, w⟩ := by
  have moved_eq : w.moved = (slotOf env p m).length := filled.moved.trans (Nat.zero_add _)
  have ptr_eq : p.ptr w.mem = p.ptr m + (slotOf env p m).length := filled.ptr
  refine ⟨fun i either => ?_, fun moved => ?_, fun _ => ⟨moved_eq, ?_, filled.slot⟩, fun _ => ours⟩
  · by_cases address : 16 ≤ i ∧ i < 20
    · exact .inr address
    · refine .inl ⟨kind, ?_⟩
      dsimp only
      rcases either with wrote | changed
      · have places := filled.wrote i wrote
        rcases places with impossible | eq | inside | inside
        · exact nomatch impossible
        · omega
        · exact (address inside).elim
        · change p.start + (p.ptr m - 1) ≤ i ∧ _ < p.start + (p.ptr m - 1) + _ at inside
          omega
      · have unchanged := filled.other i
        change _ → _ → (i < p.start + (p.ptr m - 1) ∨ p.start + (p.ptr m - 1) + _ ≤ i) →
          _ = m i at unchanged
        by_cases at_ptr : i = p.start + 2
        · omega
        · by_contra outside
          exact changed (unchanged at_ptr (by omega) (by omega))
  · dsimp only at moved ⊢
    rw [ptr_eq, ← moved_eq, moved]
    exact Nat.le_refl _
  · dsimp only
    rw [ptr_eq, moved_eq]

/-- The record of a route is kept inside its option. -/
theorem recordRoute_ok (placed : p.Placed) (rr : p.val m = .rr) (le : 4 ≤ p.ptr m) :
    Step.Ok env ⟨p, m, recordRoute env p (.fresh m dst)⟩ ∧
      (recordRoute env p (.fresh m dst)).dst = dst := by
  have ends := placed.ends
  have start_le := placed.le
  by_cases full : p.Full m
  · rw [recordRoute, if_pos (show p.Full (Work.fresh m dst).mem from full)]
    exact ⟨ok_fresh env p m dst dst, rfl⟩
  · have room := (Opt.not_full_iff placed.short).1 full
    have slot_eq : slotOf env p m = bytesOf env.srcAddr := by rw [slotOf, rr]
    rw [recordRoute, if_neg (show ¬p.Full (Work.fresh m dst).mem from full)]
    refine ⟨ok_of_filled dst (by rw [rr]; decide) le ?_ ?_ fun it => ?_, ?_⟩
    · rw [slot_eq, length_bytesOf]
      omega
    · rw [slot_eq]
      exact filled_bcopy le (by rw [length_bytesOf]; change p.ptr m + 4 < 256; omega) placed.le
        (by omega) fun b mem => bytesOf_lt mem
    · rw [rr] at it
      exact nomatch it
    · simp only [Work.advance, Work.put, Work.dst_bcopy]
      rfl

theorem stampTime_filled (le : 4 ≤ p.ptr w.mem) (lt : p.ptr w.mem + 4 < 256) (placed : p.Placed) :
    Filled p (bytesOf env.millis) w (stampTime env p w) := by
  have ends := placed.ends
  have pos := placed.pos
  exact filled_bcopy le lt placed.le (by omega) fun b mem => bytesOf_lt mem

theorem stampBoth_filled (le : 4 ≤ p.ptr w.mem) (lt : p.ptr w.mem + 8 < 256) (placed : p.Placed) :
    Filled p (bytesOf env.srcAddr ++ bytesOf env.millis) w
      (stampTime env p ((w.bcopy (p.place (p.off w.mem)) (bytesOf env.srcAddr)).advance p 4)) := by
  have ends := placed.ends
  have pos := placed.pos
  have first : Filled p (bytesOf env.srcAddr) w
      ((w.bcopy (p.place (p.off w.mem)) (bytesOf env.srcAddr)).advance p 4) :=
    filled_bcopy le (by rw [length_bytesOf]; omega) placed.le (by omega) fun b mem => bytesOf_lt mem
  have ptr_eq := first.ptr
  rw [length_bytesOf] at ptr_eq
  exact first.trans (stampTime_filled (by omega) (by omega) placed) le placed.le

/-- No room: the counter of such hosts goes up. -/
theorem ok_overflow (it : p.val m = .it) (long : 5 ≤ p.optlen) (dst b : ℕ) :
    Step.Ok env ⟨p, m, (Work.fresh m dst).put (p.start + 3) b⟩ := by
  refine ⟨fun i either => .inl ⟨?_, ?_⟩, fun _ => ?_, fun moved => (moved rfl).elim,
    fun moved => (moved rfl).elim⟩
  · dsimp only
    rw [it]
    decide
  · have at_flag : i = p.start + 3 := by
      by_contra ne
      rcases either with wrote | changed
      · rcases (Work.mem_wrote_put (.fresh m dst) (p.start + 3) b).1 wrote with eq | impossible
        · exact ne eq
        · exact nomatch impossible
      · exact changed (Work.mem_put_of_ne ne b)
    dsimp only
    omega
  · have ne : p.start + 2 ≠ p.start + 3 := by omega
    exact Nat.le_of_eq (num_eq (Work.mem_put_of_ne ne b))

/-- What a time stamp comes to once the room is known. -/
def stampIn (env : Env) (p : Opt) (room : ℕ) (w : Work) : Work :=
  if p.optlen < (p.off w.mem + room) % 2 ^ 32 then
    w.put (p.start + 3) (p.ovFlg w.mem &&& 0x0F ||| (p.ovFlg w.mem / 16 + 1) * 16)
  else match p.flag w.mem with
    | .timeAddr | .spec =>
      stampTime env p ((w.bcopy (p.place (p.off w.mem)) (bytesOf env.srcAddr)).advance p 4)
    | .time => stampTime env p w
    | .other => w

theorem timestamp_eq : timestamp env p w =
    stampIn env p (stampRoom env p w).1 (stampRoom env p w).2 := rfl

theorem dst_stampIn (n : ℕ) (w : Work) : (stampIn env p n w).dst = w.dst := by
  rw [stampIn]
  split
  · rfl
  · split
    · simp only [stampTime, Work.advance, Work.put, Work.dst_bcopy]
    · simp only [stampTime, Work.advance, Work.put, Work.dst_bcopy]
    · simp only [stampTime, Work.advance, Work.put, Work.dst_bcopy]
    · rfl

/-- A slot of the right length is filled in if there is room for it. -/
theorem stampIn_ok (placed : p.Placed) (taken : p.Taken m) (it : p.val m = .it)
    (room : n = (slotOf env p m).length)
    (ours : p.flag m = .spec → env.myaddr (p.listed m) = true) :
    Step.Ok env ⟨p, m, stampIn env p n (.fresh m dst)⟩ := by
  obtain ⟨long, known, le⟩ := taken.it it
  have ends := placed.ends
  have start_le := placed.le
  have ptr_lt := p.ptr_lt m
  have n_le : n ≤ 8 := by
    rw [room, slotOf, it]
    dsimp only
    split
    · exact (by decide : 4 ≤ 8)
    · exact Nat.le_refl 8
  have sum_eq : (p.off m + n) % 2 ^ 32 = p.ptr m - 1 + n := by
    rw [Opt.off_eq (by omega)]
    exact mod_eq_of_lt (by omega)
  rw [stampIn]
  by_cases short : p.optlen < (p.off (Work.fresh m dst).mem + n) % 2 ^ 32
  · rw [if_pos short]
    exact ok_overflow it long dst _
  · have fits : ¬p.optlen < (p.off m + n) % 2 ^ 32 := short
    rw [if_neg short]
    rw [sum_eq, room] at fits
    refine ok_of_filled dst (by rw [it]; decide) (by omega) (by omega) ?_ fun _ => ours
    have slot_eq : slotOf env p m = if p.flag m = .time then bytesOf env.millis else
        bytesOf env.srcAddr ++ bytesOf env.millis := by rw [slotOf, it]
    change Filled p (slotOf env p m) (.fresh m dst) (match p.flag m with
      | .timeAddr | .spec => stampTime env p
          (((Work.fresh m dst).bcopy (p.place (p.off m)) (bytesOf env.srcAddr)).advance p 4)
      | .time => stampTime env p (.fresh m dst)
      | .other => .fresh m dst)
    rw [slot_eq] at fits ⊢
    cases flag : p.flag m with
    | time =>
      rw [flag, if_pos rfl, length_bytesOf] at fits
      rw [if_pos rfl]
      exact stampTime_filled (show 4 ≤ p.ptr m by omega) (show p.ptr m + 4 < 256 by omega) placed
    | timeAddr =>
      rw [flag, if_neg (by decide), length_append, length_bytesOf, length_bytesOf] at fits
      rw [if_neg (by decide)]
      exact stampBoth_filled (show 4 ≤ p.ptr m by omega) (show p.ptr m + 8 < 256 by omega) placed
    | spec =>
      rw [flag, if_neg (by decide), length_append, length_bytesOf, length_bytesOf] at fits
      rw [if_neg (by decide)]
      exact stampBoth_filled (show 4 ≤ p.ptr m by omega) (show p.ptr m + 8 < 256 by omega) placed
    | other => exact (known flag).elim

theorem moved_advance (w : Work) (p : Opt) (n : ℕ) : (w.advance p n).moved = w.moved + n := rfl

/-- An address that is not ours: with the room taken for the place of the slot, the slot is filled
unless that is too long. -/
theorem stampIn_ok_iff (taken : p.Taken m) (spec : p.IsSpec m)
    (foreign : env.myaddr (p.listed m) = false) :
    Step.Ok env ⟨p, m, stampIn env p (p.off m) (.fresh m dst)⟩ ↔ p.optlen < p.off m + p.off m := by
  obtain ⟨it, flag⟩ := spec
  obtain ⟨long, -, le⟩ := taken.it it
  have ptr_lt := p.ptr_lt m
  have sum_eq : (p.off m + p.off m) % 2 ^ 32 = p.off m + p.off m := by
    rw [Opt.off_eq (by omega)]
    exact mod_eq_of_lt (by omega)
  have cond : p.optlen < (p.off (Work.fresh m dst).mem + p.off m) % 2 ^ 32 ↔
      p.optlen < p.off m + p.off m := by
    rw [← sum_eq]
    exact Iff.rfl
  rw [stampIn]
  by_cases short : p.optlen < p.off m + p.off m
  · rw [if_pos (cond.2 short)]
    exact iff_of_true (ok_overflow it long dst _) short
  · rw [if_neg fun within => short (cond.1 within)]
    refine iff_of_false (fun ok => ?_) short
    have filled := ok.ours
    change (Work.moved (match p.flag m with
      | .timeAddr | .spec => stampTime env p
          (((Work.fresh m dst).bcopy (p.place (p.off m)) (bytesOf env.srcAddr)).advance p 4)
      | .time => stampTime env p (.fresh m dst)
      | .other => .fresh m dst)) ≠ 0 → _ at filled
    rw [flag] at filled
    dsimp only at filled
    rw [stampTime, moved_advance] at filled
    have ours := filled (succ_ne_zero _) it rfl
    exact nomatch foreign.symm.trans ours

/-- A time stamp option is gone through well unless a slot set aside for another host is filled. -/
theorem timestamp_ok_iff (placed : p.Placed) (taken : p.Taken m) (it : p.val m = .it) :
    (Step.Ok env ⟨p, m, timestamp env p (.fresh m dst)⟩ ↔ p.Spared env m) ∧
      (timestamp env p (.fresh m dst)).dst = if p.IsSpec m then p.listed m else dst := by
  rw [timestamp_eq, dst_stampIn]
  have slot_eq : slotOf env p m = if p.flag m = .time then bytesOf env.millis else
      bytesOf env.srcAddr ++ bytesOf env.millis := by rw [slotOf, it]
  cases flag : p.flag m with
  | time =>
    have room : stampRoom env p (.fresh m dst) = (4, .fresh m dst) := by
      rw [stampRoom, show p.flag (Work.fresh m dst).mem = .time from flag]
    have not_spec : ¬p.IsSpec m := fun spec => nomatch flag.symm.trans spec.2
    rw [room, if_neg not_spec]
    refine ⟨iff_of_true (stampIn_ok placed taken it ?_ fun spec => nomatch flag.symm.trans spec)
      fun spec => (not_spec spec).elim, rfl⟩
    rw [slot_eq, if_pos flag, length_bytesOf]
  | timeAddr =>
    have room : stampRoom env p (.fresh m dst) = (8, .fresh m dst) := by
      rw [stampRoom, show p.flag (Work.fresh m dst).mem = .timeAddr from flag]
    have not_spec : ¬p.IsSpec m := fun spec => nomatch flag.symm.trans spec.2
    rw [room, if_neg not_spec]
    refine ⟨iff_of_true (stampIn_ok placed taken it ?_ fun spec => nomatch flag.symm.trans spec)
      fun spec => (not_spec spec).elim, rfl⟩
    rw [slot_eq, if_neg (by rw [flag]; decide), length_append, length_bytesOf, length_bytesOf]
  | spec =>
    have is_spec : p.IsSpec m := ⟨it, flag⟩
    rw [if_pos is_spec]
    cases ours : env.myaddr (p.listed m) with
    | false =>
      have room : stampRoom env p (.fresh m dst) = (p.off m, .fresh m (p.listed m)) := by
        rw [stampRoom, show p.flag (Work.fresh m dst).mem = .spec from flag]
        exact if_pos ours
      rw [room]
      refine ⟨(stampIn_ok_iff taken is_spec ours).trans ?_, rfl⟩
      exact ⟨fun short _ _ => short, fun spared => spared is_spec ours⟩
    | true =>
      have room : stampRoom env p (.fresh m dst) = (8, .fresh m (p.listed m)) := by
        rw [stampRoom, show p.flag (Work.fresh m dst).mem = .spec from flag]
        exact if_neg (show ¬env.myaddr (p.listed m) = false by rw [ours]; decide)
      rw [room]
      refine ⟨iff_of_true (stampIn_ok placed taken it ?_ fun _ => ours) fun _ foreign => ?_,
        rfl⟩
      · rw [slot_eq, if_neg (by rw [flag]; decide), length_append, length_bytesOf, length_bytesOf]
      · rw [ours] at foreign
        exact nomatch foreign
  | other => exact ((taken.it it).2.1 flag).elim

/-- The loose source route of a packet for this host is cut off inside the option. -/
theorem truncateRoute_ok (placed : p.Placed) (lsrr : p.val m = .lsrr) :
    Step.Ok env ⟨p, m, truncateRoute p (.fresh m dst)⟩ ∧
      (truncateRoute p (.fresh m dst)).dst = dst := by
  have ends := placed.ends
  have start_le := placed.le
  by_cases full : p.Full m
  · rw [truncateRoute, if_pos (show p.Full (Work.fresh m dst).mem from full)]
    exact ⟨ok_fresh env p m dst dst, rfl⟩
  obtain ⟨le, room⟩ := (Opt.not_full_iff placed.short).1 full
  rw [truncateRoute, if_neg (show ¬p.Full (Work.fresh m dst).mem from full)]
  dsimp only
  rw [show p.off (Work.fresh m dst).mem = p.ptr m - 1 from Opt.off_eq le, Opt.place_eq (by omega)]
  have length_eq : (List.replicate (p.optlen - (p.ptr m - 1)) 0).length =
    p.optlen - (p.ptr m - 1) := length_replicate
  refine ⟨⟨fun i either => .inl ⟨?_, ?_⟩, fun _ => ?_, fun moved => (moved ?_).elim,
    fun moved => (moved ?_).elim⟩, ?_⟩
  · dsimp only
    rw [lsrr]
    decide
  · dsimp only
    by_contra outside
    rcases either with wrote | changed
    · rcases (Work.mem_wrote_put _ _ _).1 wrote with eq | wrote
      · omega
      · rcases (Work.mem_wrote_bcopy _ _ _).1 wrote with inside | impossible
        · rw [length_eq] at inside
          omega
        · exact nomatch impossible
    · refine changed ?_
      dsimp only
      rw [Work.mem_put_of_ne (by omega), Work.mem_bcopy_of_outside _ (by rw [length_eq]; omega)]
      rfl
  · have ne : p.start + 2 ≠ p.start + 1 := by omega
    refine Nat.le_trans (Nat.le_of_eq (num_eq (Work.mem_put_of_ne ne _))) ?_
    by_cases before : p.start + 2 < p.start + (p.ptr m - 1)
    · exact Nat.le_of_eq (num_eq (Work.mem_bcopy_of_outside _ (.inl before)))
    · have zero_at : (List.replicate (p.optlen - (p.ptr m - 1)) 0)[3 - p.ptr m]? = some 0 := by
        rw [getElem?_replicate, if_pos (by omega)]
      have cleared := @Work.num_bcopy (.fresh m dst) _ (p.start + (p.ptr m - 1)) _ 0 zero_at
        (by decide)
      rw [show p.start + (p.ptr m - 1) + (3 - p.ptr m) = p.start + 2 by omega] at cleared
      exact Nat.le_trans (Nat.le_of_eq cleared) (zero_le _)
  · exact Work.moved_bcopy _ _ _
  · exact Work.moved_bcopy _ _ _
  · exact Work.dst_bcopy _ _ _

/-- The next hop of a packet that is sent on. -/
theorem forwardSourceRoute_ok_iff (placed : p.Placed) (route : p.IsSourceRoute m) :
    (Step.Ok env ⟨p, m, forwardSourceRoute env p (.fresh m dst)⟩ ↔
      (env.myaddr dst = true → ¬p.Full m → 4 ≤ p.ptr m)) ∧
    (forwardSourceRoute env p (.fresh m dst)).dst =
      if env.myaddr dst = true ∧ ¬p.Full m then p.listed m else dst := by
  have ends := placed.ends
  have start_le := placed.le
  by_cases foreign : env.myaddr dst = false
  · have not_ours : ¬env.myaddr dst = true := by rw [foreign]; decide
    rw [forwardSourceRoute, if_pos (show env.myaddr (Work.fresh m dst).dst = false from foreign),
      if_neg fun both : env.myaddr dst = true ∧ _ => not_ours both.1]
    exact ⟨iff_of_true (ok_fresh env p m dst dst) fun ours => (not_ours ours).elim, rfl⟩
  have ours : env.myaddr dst = true := eq_true_of_ne_false foreign
  rw [forwardSourceRoute, if_neg (show ¬env.myaddr (Work.fresh m dst).dst = false from foreign)]
  by_cases full : p.Full m
  · rw [if_pos (show p.Full (Work.fresh m dst).mem from full), if_neg fun both => both.2 full]
    exact ⟨iff_of_true (ok_fresh env p m dst dst) fun _ not_full => (not_full full).elim, rfl⟩
  obtain ⟨pos, room⟩ := (Opt.not_full_iff placed.short).1 full
  rw [if_neg (show ¬p.Full (Work.fresh m dst).mem from full), if_pos ⟨ours, full⟩]
  dsimp only
  rw [show p.off (Work.fresh m dst).mem = p.ptr m - 1 from Opt.off_eq pos, Opt.place_eq (by omega),
    show p.listed (Work.fresh m dst).mem = p.listed m from rfl]
  generalize work_eq : (Work.bcopy { Work.fresh m dst with dst := p.listed m }
    (p.start + (p.ptr m - 1)) (bytesOf env.srcAddr)).bcopy 16 (bytesOf (p.listed m)) = w
  have dst_eq : (w.advance p 4).dst = p.listed m := by
    rw [← work_eq]
    simp only [Work.advance, Work.put, Work.dst_bcopy]
  have moved_eq : w.moved = 0 := by
    rw [← work_eq, Work.moved_bcopy, Work.moved_bcopy]
    rfl
  have slot (k b : ℕ) (at_k : (bytesOf env.srcAddr)[k]? = some b) :
      num w.mem (p.start + (p.ptr m - 1) + k) = b := by
    rw [← work_eq, num_eq (Work.mem_bcopy_of_outside _ (.inr _))]
    · exact Work.num_bcopy at_k (bytesOf_lt (mem_of_getElem? at_k))
    · rw [length_bytesOf]
      omega
  have slot_eq : slotOf env p m = bytesOf env.srcAddr := by
    rcases route with lsrr | ssrr
    · rw [slotOf, lsrr]
    · rw [slotOf, ssrr]
  refine ⟨⟨fun ok _ _ => ?_, fun fits => ?_⟩, dst_eq⟩
  · by_contra lt
    have filled := (ok.filled (succ_ne_zero _)).2.2
    dsimp only at filled
    rw [slot_eq] at filled
    obtain ⟨b, at_b⟩ : ∃ b, (bytesOf env.srcAddr)[3 - p.ptr m]? = some b :=
      ⟨_, getElem?_eq_getElem (by rw [length_bytesOf]; omega)⟩
    have now := filled _ b at_b
    have before := slot _ b at_b
    rw [show p.start + (p.ptr m - 1) + (3 - p.ptr m) = p.start + 2 by omega] at now before
    rw [Work.advance] at now
    dsimp only at now
    rw [Work.num_put, if_pos rfl, Opt.ptr, before] at now
    have b_lt := bytesOf_lt (mem_of_getElem? at_b)
    omega
  · have le := fits ours full
    refine ok_of_filled dst ?_ le ?_ ?_ fun it => ?_
    · rcases route with lsrr | ssrr
      · rw [lsrr]
        decide
      · rw [ssrr]
        decide
    · rw [slot_eq, length_bytesOf]
      omega
    · rw [slot_eq]
      refine .advance le ?_ moved_eq slot (fun i outer outside => ?_) (fun i wrote => ?_) start_le
      · rw [length_bytesOf]
        change p.ptr m + 4 < 256
        omega
      · rw [← work_eq, Work.mem_bcopy_of_outside _ (by rw [length_bytesOf]; omega)]
        exact Work.mem_bcopy_of_outside _ outside
      · rw [← work_eq] at wrote
        rcases (Work.mem_wrote_bcopy _ _ _).1 wrote with address | wrote
        · exact .inr (.inl address)
        · rcases (Work.mem_wrote_bcopy _ _ _).1 wrote with inside | impossible
          · exact .inr (.inr inside)
          · exact nomatch impossible
    · rcases route with lsrr | ssrr
      · rw [lsrr] at it
        exact nomatch it
      · rw [ssrr] at it
        exact nomatch it

/-- From a place on, memory is the same. -/
def Ahead (opt : ℕ) (m m' : Mem) : Prop := ∀ i, opt ≤ i → m' i = m i

namespace Ahead

variable (ahead : Ahead p.start m m')

include ahead

theorem val : p.val m' = p.val m := by rw [Opt.val, Opt.val, num_eq (ahead _ (Nat.le_refl _))]

theorem ptr : p.ptr m' = p.ptr m := num_eq (ahead _ (Nat.le_add_right _ _))

theorem flag : p.flag m' = p.flag m := by
  rw [Opt.flag, Opt.flag, Opt.ovFlg, Opt.ovFlg, num_eq (ahead _ (Nat.le_add_right _ _))]

theorem off : p.off m' = p.off m := by rw [Opt.off, Opt.off, ahead.ptr]

theorem full : p.Full m' ↔ p.Full m := by rw [Opt.Full, Opt.Full, ahead.off]

theorem isSpec : p.IsSpec m' ↔ p.IsSpec m := by rw [Opt.IsSpec, Opt.IsSpec, ahead.val, ahead.flag]

theorem isSourceRoute : p.IsSourceRoute m' ↔ p.IsSourceRoute m := by
  rw [Opt.IsSourceRoute, Opt.IsSourceRoute, ahead.val]

theorem listed (placed : p.Placed) (pos : 1 ≤ p.ptr m) : p.listed m' = p.listed m := by
  have lt := p.ptr_lt m
  have ends := placed.ends
  have place_le : p.start ≤ p.place (p.off m) := by
    rw [Opt.off_eq pos, Opt.place_eq (by omega)]
    exact Nat.le_add_right _ _
  rw [Opt.listed, Opt.listed, ahead.off, u32At, u32At, num_eq (ahead _ place_le),
    num_eq (ahead _ (by omega)), num_eq (ahead _ (by omega)), num_eq (ahead _ (by omega))]

theorem taken (taken : p.Taken m) : p.Taken m' := by
  refine ⟨fun rr => ?_, fun it => ?_⟩
  · rw [ahead.val] at rr
    rw [ahead.ptr]
    exact taken.rr rr
  · rw [ahead.val] at it
    rw [ahead.ptr, ahead.flag]
    exact taken.it it

theorem spared (placed : p.Placed) (taken : p.Taken m) : p.Spared env m' ↔ p.Spared env m := by
  rw [Opt.Spared, Opt.Spared, ahead.isSpec, ahead.off]
  refine imp_congr_right fun spec => ?_
  rw [ahead.listed placed (Nat.le_trans (by decide) (taken.it spec.1).2.2)]

end Ahead

/-- A plan that looks at nothing before an option. -/
structure Plan.Local (plan : Plan) : Prop where
  stops : ∀ p m m' dst, Ahead p.start m m' → p.Placed → p.Taken m →
    (plan.stops m' p dst ↔ plan.stops m p dst)
  fits : ∀ p m m' dst, Ahead p.start m m' → p.Placed → p.Taken m →
    (plan.fits m' p dst ↔ plan.fits m p dst)
  next : ∀ p m m' dst, Ahead p.start m m' → p.Placed → p.Taken m →
    plan.next m' p dst = plan.next m p dst

theorem forwardPlan_local (env : Env) : (forwardPlan env).Local := by
  refine ⟨fun p m m' dst ahead placed taken => ?_, fun p m m' dst ahead placed taken => ?_,
    fun p m m' dst ahead placed taken => ?_⟩
  · exact and_congr_left' ahead.isSourceRoute
  · refine and_congr (ahead.spared placed taken) ?_
    rw [ahead.isSourceRoute, ahead.full, ahead.ptr]
  · have cond_iff : p.IsSpec m' ∨ p.IsSourceRoute m' ∧ env.myaddr dst = true ∧ ¬p.Full m' ↔
        p.IsSpec m ∨ p.IsSourceRoute m ∧ env.myaddr dst = true ∧ ¬p.Full m := by
      rw [ahead.isSpec, ahead.isSourceRoute, ahead.full]
    rw [forwardPlan]
    dsimp only
    by_cases either : p.IsSpec m ∨ p.IsSourceRoute m ∧ env.myaddr dst = true ∧ ¬p.Full m
    · rw [if_pos (cond_iff.2 either), if_pos either]
      refine ahead.listed placed ?_
      rcases either with spec | ⟨-, -, not_full⟩
      · exact Nat.le_trans (by decide) (taken.it spec.1).2.2
      · exact ((Opt.not_full_iff placed.short).1 not_full).1
    · rw [if_neg fun either' => either (cond_iff.1 either'), if_neg either]

theorem localPlan_local (env : Env) : (localPlan env).Local := by
  refine ⟨fun p m m' dst ahead placed taken => ?_, fun p m m' dst ahead placed taken => ?_,
    fun p m m' dst ahead placed taken => ?_⟩
  · change p.val m' = .ssrr ∧ ¬p.Full m' ↔ p.val m = .ssrr ∧ ¬p.Full m
    rw [ahead.val, ahead.full]
  · exact ahead.spared placed taken
  · rw [localPlan]
    dsimp only
    by_cases spec : p.IsSpec m
    · rw [if_pos (ahead.isSpec.2 spec), if_pos spec]
      exact ahead.listed placed (Nat.le_trans (by decide) (taken.it spec.1).2.2)
    · rw [if_neg fun spec' => spec (ahead.isSpec.1 spec'), if_neg spec]

variable {plan : Plan} {body : Opt → Walk → (ℤ × Walk) ⊕ Walk} {r : Walk}
  {fuel totallen opt : ℕ}

/-- A function that goes through the options as planned. -/
def Plan.Follows (plan : Plan) (env : Env) (body : Opt → Walk → (ℤ × Walk) ⊕ Walk) : Prop :=
  ∀ p r, p.Placed → p.Taken r.mem →
    (plan.stops r.mem p r.dst ∧ ∃ z, body p r = .inl (z, r)) ∨
    ¬plan.stops r.mem p r.dst ∧ ∃ work, body p r = .inr (r.step p work) ∧
      (Step.Ok env ⟨p, r.mem, work (.fresh r.mem r.dst)⟩ ↔ plan.fits r.mem p r.dst) ∧
      (work (.fresh r.mem r.dst)).dst = plan.next r.mem p r.dst

/-- Every option is a step or the end. -/
def Stepwise (body : Opt → Walk → (ℤ × Walk) ⊕ Walk) : Prop :=
  ∀ p r, (∃ z, body p r = .inl (z, r)) ∨ ∃ work, body p r = .inr (r.step p work)

theorem forwardOption_stepwise (env : Env) : Stepwise (forwardOption env) := by
  intro p r
  rw [forwardOption]
  split
  · split
    · exact .inl ⟨_, rfl⟩
    · exact .inr ⟨_, rfl⟩
  · split
    · exact .inl ⟨_, rfl⟩
    · exact .inr ⟨_, rfl⟩
  all_goals exact .inr ⟨_, rfl⟩

theorem localOption_stepwise (env : Env) : Stepwise (localOption env) := by
  intro p r
  rw [localOption]
  split
  · split
    · exact .inr ⟨_, rfl⟩
    · exact .inl ⟨_, rfl⟩
  all_goals exact .inr ⟨_, rfl⟩

theorem Opt.not_isSpec (ne : p.val m ≠ .it) : ¬p.IsSpec m := fun spec => ne spec.1

theorem Opt.not_isSourceRoute (ne : p.val m ≠ .lsrr) (ne' : p.val m ≠ .ssrr) :
    ¬p.IsSourceRoute m := fun route => route.elim ne ne'

theorem localOption_follows (env : Env) : (localPlan env).Follows env (localOption env) := by
  intro p r placed taken
  have stops_iff : (localPlan env).stops r.mem p r.dst ↔ p.val r.mem = .ssrr ∧ ¬p.Full r.mem :=
    Iff.rfl
  have quiet (ne : p.val r.mem ≠ .it) : (localPlan env).fits r.mem p r.dst ∧
      (localPlan env).next r.mem p r.dst = r.dst :=
    ⟨fun spec => (Opt.not_isSpec ne spec).elim, if_neg (Opt.not_isSpec ne)⟩
  rw [stops_iff, localOption]
  cases kind : p.val r.mem with
  | eol | nop | other =>
    obtain ⟨fits, next⟩ := quiet (by rw [kind]; decide)
    exact .inr ⟨fun stop => (nomatch stop.1), id, rfl,
      iff_of_true (ok_fresh env p r.mem r.dst r.dst) fits, next.symm⟩
  | ssrr =>
    dsimp only
    by_cases full : p.Full r.mem
    · obtain ⟨fits, next⟩ := quiet (by rw [kind]; decide)
      rw [if_pos full]
      exact .inr ⟨fun stop => stop.2 full, id, rfl,
        iff_of_true (ok_fresh env p r.mem r.dst r.dst) fits, next.symm⟩
    · rw [if_neg full]
      exact .inl ⟨⟨rfl, full⟩, -1, rfl⟩
  | lsrr =>
    obtain ⟨fits, next⟩ := quiet (by rw [kind]; decide)
    obtain ⟨ok, dst_eq⟩ := @truncateRoute_ok env _ _ r.dst placed kind
    exact .inr ⟨fun stop => (nomatch stop.1), _, rfl, iff_of_true ok fits, dst_eq.trans next.symm⟩
  | rr =>
    obtain ⟨fits, next⟩ := quiet (by rw [kind]; decide)
    obtain ⟨ok, dst_eq⟩ := @recordRoute_ok env _ _ r.dst placed kind (taken.rr kind)
    exact .inr ⟨fun stop => (nomatch stop.1), _, rfl, iff_of_true ok fits, dst_eq.trans next.symm⟩
  | it =>
    obtain ⟨ok_iff, dst_eq⟩ := @timestamp_ok_iff env _ _ r.dst placed taken kind
    exact .inr ⟨fun stop => (nomatch stop.1), _, rfl, ok_iff, dst_eq⟩

theorem forwardOption_follows (env : Env) : (forwardPlan env).Follows env (forwardOption env) := by
  intro p r placed taken
  have stops_iff : (forwardPlan env).stops r.mem p r.dst ↔
      p.IsSourceRoute r.mem ∧ env.srcRouted = false := Iff.rfl
  have fits_iff : (forwardPlan env).fits r.mem p r.dst ↔ p.Spared env r.mem ∧
    (p.IsSourceRoute r.mem → env.myaddr r.dst = true → ¬p.Full r.mem → 4 ≤ p.ptr r.mem) := Iff.rfl
  have next_eq : (forwardPlan env).next r.mem p r.dst =
    if p.IsSpec r.mem ∨ p.IsSourceRoute r.mem ∧ env.myaddr r.dst = true ∧ ¬p.Full r.mem then
      p.listed r.mem else r.dst := rfl
  have quiet (ne : p.val r.mem ≠ .it) (ne' : p.val r.mem ≠ .lsrr) (ne'' : p.val r.mem ≠ .ssrr) :
      (forwardPlan env).fits r.mem p r.dst ∧ (forwardPlan env).next r.mem p r.dst = r.dst := by
    have no_route := Opt.not_isSourceRoute ne' ne''
    refine ⟨⟨fun spec => (Opt.not_isSpec ne spec).elim, fun route => (no_route route).elim⟩, ?_⟩
    exact if_neg fun either => either.elim (Opt.not_isSpec ne) fun both => no_route both.1
  have routed (route : p.IsSourceRoute r.mem) (ne : p.val r.mem ≠ .it)
      (allowed : ¬env.srcRouted = false) :
      ¬(forwardPlan env).stops r.mem p r.dst ∧
        ∃ work, (.inr (r.step p (forwardSourceRoute env p)) : (ℤ × Walk) ⊕ Walk) =
            .inr (r.step p work) ∧
          (Step.Ok env ⟨p, r.mem, work (.fresh r.mem r.dst)⟩ ↔
            (forwardPlan env).fits r.mem p r.dst) ∧
          (work (.fresh r.mem r.dst)).dst = (forwardPlan env).next r.mem p r.dst := by
    obtain ⟨ok_iff, dst_eq⟩ := @forwardSourceRoute_ok_iff env _ _ r.dst placed route
    have not_spec := Opt.not_isSpec ne
    refine ⟨fun stop => allowed stop.2, _, rfl, ?_, ?_⟩
    · rw [ok_iff, fits_iff]
      exact ⟨fun fits => ⟨fun spec => (not_spec spec).elim, fun _ => fits⟩,
        fun fits => fits.2 route⟩
    · rw [dst_eq, next_eq]
      exact if_congr ⟨fun both => .inr ⟨route, both⟩,
        fun either => (either.resolve_left not_spec).2⟩ rfl rfl
  rw [forwardOption]
  cases kind : p.val r.mem with
  | eol | nop | other =>
    obtain ⟨fits, next⟩ := quiet (by rw [kind]; decide) (by rw [kind]; decide)
      (by rw [kind]; decide)
    refine .inr ⟨fun stop => ?_, id, rfl,
      iff_of_true (ok_fresh env p r.mem r.dst r.dst) fits, next.symm⟩
    exact Opt.not_isSourceRoute (by rw [kind]; decide) (by rw [kind]; decide) stop.1
  | ssrr =>
    have route : p.IsSourceRoute r.mem := .inr kind
    dsimp only
    by_cases prohibited : env.srcRouted = false
    · rw [if_pos prohibited]
      exact .inl ⟨⟨route, prohibited⟩, -1, rfl⟩
    · rw [if_neg prohibited]
      exact .inr (routed route (by rw [kind]; decide) prohibited)
  | lsrr =>
    have route : p.IsSourceRoute r.mem := .inl kind
    dsimp only
    by_cases prohibited : env.srcRouted = false
    · rw [if_pos prohibited]
      exact .inl ⟨⟨route, prohibited⟩, -1, rfl⟩
    · rw [if_neg prohibited]
      exact .inr (routed route (by rw [kind]; decide) prohibited)
  | rr =>
    obtain ⟨fits, next⟩ := quiet (by rw [kind]; decide) (by rw [kind]; decide)
      (by rw [kind]; decide)
    obtain ⟨ok, dst_eq⟩ := @recordRoute_ok env _ _ r.dst placed kind (taken.rr kind)
    refine .inr ⟨fun stop => ?_, _, rfl, iff_of_true ok fits, dst_eq.trans next.symm⟩
    exact Opt.not_isSourceRoute (by rw [kind]; decide) (by rw [kind]; decide) stop.1
  | it =>
    have no_route : ¬p.IsSourceRoute r.mem :=
      Opt.not_isSourceRoute (by rw [kind]; decide) (by rw [kind]; decide)
    obtain ⟨ok_iff, dst_eq⟩ := @timestamp_ok_iff env _ _ r.dst placed taken kind
    refine .inr ⟨fun stop => no_route stop.1, _, rfl, ?_, ?_⟩
    · rw [ok_iff, fits_iff]
      exact ⟨fun spared => ⟨spared, fun route => (no_route route).elim⟩, fun fits => fits.1⟩
    · rw [dst_eq, next_eq]
      exact if_congr ⟨.inl, fun either => either.resolve_right fun both => no_route both.1⟩ rfl rfl

theorem optionLoop_succ {σ ρ : Type} (mem : σ → Mem) (body : Opt → σ → ρ ⊕ σ) (bad : Opt → σ → ρ)
    (done : σ → ρ) (fuel totallen opt : ℕ) (s : σ) :
    optionLoop mem body bad done (fuel + 1) totallen opt s = if totallen = 0 then some (done s)
      else if optValOf (num (mem s) opt) = .eol then some (done s)
      else if optlenAt (mem s) opt = 0 ∨ totallen < optlenAt (mem s) opt then
        some (bad ⟨opt, optlenAt (mem s) opt⟩ s)
      else (body ⟨opt, optlenAt (mem s) opt⟩ s).elim some fun s' =>
        optionLoop mem body bad done fuel (totallen - optlenAt (mem s) opt)
          (opt + optlenAt (mem s) opt) s' := by
  rw [optionLoop]
  cases body ⟨opt, optlenAt (mem s) opt⟩ s with
  | inl res => rfl
  | inr s' => rfl

/-- The walk ends, whatever it does to the options. -/
theorem walkLoop_total (stepwise : Stepwise body) (m : Mem) (lt : totallen < fuel) :
    ∃ z r', walkLoop body fuel totallen opt r = some (z, r') ∧ r.steps <:+ r'.steps ∧
      (Linked m r.steps r.mem → Linked m r'.steps r'.mem) := by
  induction fuel generalizing totallen opt r with
  | zero => exact (not_lt_zero _ lt).elim
  | succ fuel ih =>
    rw [walkLoop, optionLoop_succ]
    by_cases none_left : totallen = 0
    · rw [if_pos none_left]
      exact ⟨0, r, rfl, suffix_rfl, id⟩
    rw [if_neg none_left]
    by_cases eol : optValOf (num r.mem opt) = .eol
    · rw [if_pos eol]
      exact ⟨0, r, rfl, suffix_rfl, id⟩
    rw [if_neg eol]
    by_cases bad : optlenAt r.mem opt = 0 ∨ totallen < optlenAt r.mem opt
    · rw [if_pos bad]
      exact ⟨0, r, rfl, suffix_rfl, id⟩
    rw [if_neg bad]
    rcases stepwise ⟨opt, optlenAt r.mem opt⟩ r with ⟨z, stopped⟩ | ⟨work, stepped⟩
    · rw [stopped]
      exact ⟨z, r, rfl, suffix_rfl, id⟩
    · rw [stepped]
      obtain ⟨z, r', runs, suffix, linked⟩ := @ih (r.step ⟨opt, optlenAt r.mem opt⟩ work)
        (totallen - optlenAt r.mem opt) (opt + optlenAt r.mem opt) (by omega)
      exact ⟨z, r', runs, (suffix_cons _ _).trans suffix, fun before => linked ⟨rfl, before⟩⟩

theorem optionsFrom_succ (m : Mem) (fuel totallen opt : ℕ) :
    optionsFrom m (fuel + 1) totallen opt = if totallen = 0 then []
      else if optValOf (num m opt) = .eol then []
      else if optlenAt m opt = 0 ∨ totallen < optlenAt m opt then []
      else ⟨opt, optlenAt m opt⟩ ::
        optionsFrom m fuel (totallen - optlenAt m opt) (opt + optlenAt m opt) := rfl

theorem Step.Ok.ahead {s : Step} (ok : s.Ok env) (placed : s.opt.Placed)
    (ahead : Ahead s.opt.start m s.before) :
    Ahead (s.opt.start + s.opt.optlen) m s.after.mem := by
  intro i le
  have start_le := placed.le
  have unchanged : s.after.mem i = s.before i := by
    by_contra changed
    rcases ok.inside i (.inr changed) with ⟨-, -, lt⟩ | ⟨-, lt⟩
    · omega
    · omega
  exact unchanged.trans (ahead i (by omega))

/-- The steps of a walk are all well done just when the options it comes to are. -/
theorem walkLoop_ok_iff (stepwise : Stepwise body) (follows : plan.Follows env body)
    (own : plan.Local) (lt : totallen < fuel) (le : 20 ≤ opt) (ends : opt + totallen ≤ 60)
    (ahead : Ahead opt m r.mem)
    (taken : ∀ p ∈ optionsFrom m fuel totallen opt, p.Taken m) :
    ∃ z r', walkLoop body fuel totallen opt r = some (z, r') ∧
      (Linked m r.steps r.mem → Linked m r'.steps r'.mem) ∧
      ((∀ s ∈ r'.steps, s.Ok env) ↔ (∀ s ∈ r.steps, s.Ok env) ∧
        plan.Safe m r.dst (optionsFrom m fuel totallen opt)) := by
  induction fuel generalizing totallen opt r with
  | zero => exact (not_lt_zero _ lt).elim
  | succ fuel ih =>
    have stays (z : ℤ) : ∃ z' r', (some (z, r) : Option (ℤ × Walk)) = some (z', r') ∧
        (Linked m r.steps r.mem → Linked m r'.steps r'.mem) ∧
        ((∀ s ∈ r'.steps, s.Ok env) ↔ (∀ s ∈ r.steps, s.Ok env) ∧ True) :=
      ⟨z, r, rfl, id, (and_iff_left trivial).symm⟩
    have val_eq : optValOf (num r.mem opt) = optValOf (num m opt) := by
      rw [num_eq (ahead opt (Nat.le_refl _))]
    have optlen_eq : optlenAt r.mem opt = optlenAt m opt := by
      rw [optlenAt, optlenAt, val_eq, num_eq (ahead _ (Nat.le_add_right _ _))]
    rw [optionsFrom_succ] at taken ⊢
    rw [walkLoop, optionLoop_succ]
    by_cases none_left : totallen = 0
    · rw [if_pos none_left, if_pos none_left]
      exact stays 0
    rw [if_neg none_left] at taken ⊢
    rw [if_neg none_left]
    by_cases eol : optValOf (num m opt) = .eol
    · rw [if_pos eol, if_pos (val_eq.trans eol)]
      exact stays 0
    rw [if_neg eol] at taken ⊢
    rw [if_neg fun eol' => eol (val_eq.symm.trans eol')]
    rw [optlen_eq]
    by_cases bad : optlenAt m opt = 0 ∨ totallen < optlenAt m opt
    · rw [if_pos bad, if_pos bad]
      exact stays 0
    rw [if_neg bad] at taken ⊢
    rw [if_neg bad]
    generalize p_eq : (⟨opt, optlenAt m opt⟩ : Opt) = p at taken ⊢
    have start_eq : p.start = opt := by rw [← p_eq]
    have optlen_eq : p.optlen = optlenAt m opt := by rw [← p_eq]
    have placed : p.Placed := ⟨by omega, by omega, by omega⟩
    have p_taken := taken p mem_cons_self
    have ahead : Ahead p.start m r.mem := by rwa [start_eq]
    rw [Plan.Safe, ← own.stops p m r.mem r.dst ahead placed p_taken,
      ← own.fits p m r.mem r.dst ahead placed p_taken,
      ← own.next p m r.mem r.dst ahead placed p_taken]
    rcases follows p r placed (ahead.taken p_taken) with
      ⟨stop, z, stopped⟩ | ⟨not_stop, work, stepped, ok_iff, dst_eq⟩
    · rw [stopped]
      obtain ⟨z', r', eq, linked, iff⟩ := stays z
      exact ⟨z', r', eq, linked, iff.trans (and_congr_right' (iff_of_true trivial (.inl stop)))⟩
    rw [stepped, or_iff_right not_stop, ← ok_iff, ← dst_eq]
    have steps_ok : (∀ s ∈ (r.step p work).steps, s.Ok env) ↔
        Step.Ok env ⟨p, r.mem, work (.fresh r.mem r.dst)⟩ ∧ ∀ s ∈ r.steps, s.Ok env :=
      forall_mem_cons
    by_cases ok : Step.Ok env ⟨p, r.mem, work (.fresh r.mem r.dst)⟩
    · have beyond : Ahead (opt + optlenAt m opt) m (r.step p work).mem := by
        have kept := ok.ahead placed ahead
        rwa [start_eq, optlen_eq] at kept
      obtain ⟨z, r', runs, linked, iff⟩ := @ih (r.step p work) (totallen - optlenAt m opt)
        (opt + optlenAt m opt) (by omega) (by omega) (by omega) beyond
        fun q q_mem => taken q (mem_cons_of_mem _ q_mem)
      refine ⟨z, r', runs, fun before => linked ⟨rfl, before⟩, iff.trans ?_⟩
      rw [steps_ok, and_iff_right ok, and_iff_right ok]
      rfl
    · obtain ⟨z, r', runs, suffix, linked⟩ := @walkLoop_total _ (r.step p work) fuel
        (totallen - optlenAt m opt) (opt + optlenAt m opt) stepwise m (by omega)
      refine ⟨z, r', runs, fun before => linked ⟨rfl, before⟩,
        iff_of_false (fun all => ?_) fun both => ok both.2.1⟩
      exact ok (all _ (suffix.subset mem_cons_self))

/-- What is looked over in one option. -/
theorem taken_of_rputOption {next : ℕ} (looked : rputOption env m p dst = .ok next) :
    p.Taken m := by
  refine ⟨fun rr => ?_, fun it => ?_⟩
  · rw [rputOption, rr] at looked
    by_contra lt
    exact nomatch (if_pos (Nat.lt_of_not_le lt)).symm.trans looked
  · rw [rputOption, it] at looked
    dsimp only at looked
    rw [rputTimestamp] at looked
    by_cases short : p.optlen < 5
    · rw [if_pos short] at looked
      exact nomatch looked
    rw [if_neg short] at looked
    cases len_eq : rputStampLen (p.flag m) with
    | none =>
      rw [len_eq] at looked
      exact nomatch looked
    | some len =>
      rw [len_eq] at looked
      refine ⟨Nat.le_of_not_lt short, fun other => ?_, ?_⟩
      · rw [other] at len_eq
        exact nomatch len_eq
      · by_contra lt
        dsimp only at looked
        split at looked
        · exact nomatch looked
        · exact nomatch (if_pos (Nat.lt_of_not_le lt)).symm.trans looked

/-- A header that is taken has been looked over up to the end of its options. -/
theorem taken_of_accepted {next : ℕ} (lt : totallen < fuel)
    (accepted : rputLoop env m fuel totallen opt dst = some (.ok next)) :
    ∀ p ∈ optionsFrom m fuel totallen opt, p.Taken m := by
  induction fuel generalizing totallen opt dst with
  | zero => exact (not_lt_zero _ lt).elim
  | succ fuel ih =>
    rw [rputLoop, optionLoop_succ] at accepted
    rw [optionsFrom_succ]
    by_cases none_left : totallen = 0
    · rw [if_pos none_left]
      exact fun p mem => nomatch mem
    rw [if_neg none_left] at accepted ⊢
    by_cases eol : optValOf (num m opt) = .eol
    · rw [if_pos eol]
      exact fun p mem => nomatch mem
    rw [if_neg eol] at accepted ⊢
    by_cases bad : optlenAt m opt = 0 ∨ totallen < optlenAt m opt
    · rw [if_pos bad]
      exact fun p mem => nomatch mem
    rw [if_neg bad] at accepted ⊢
    generalize p_eq : (⟨opt, optlenAt m opt⟩ : Opt) = p at accepted ⊢
    cases looked : rputOption env m p dst with
    | error refused =>
      rw [rputStep, looked] at accepted
      exact nomatch accepted
    | ok dst' =>
      rw [rputStep, looked] at accepted
      have rest := ih (by omega) accepted
      intro q mem
      rcases mem_cons.1 mem with rfl | mem
      · exact taken_of_rputOption looked
      · exact rest q mem

/-- The options of a header that `ip_rput_options` has taken: both functions come to an end, and
what they do to each option stays inside it, moves its pointer over what was filled in and leaves
the slots of other hosts alone, just when no slot of another host is taken for empty and, in a
packet that is sent on, no source route with its pointer in front of the route is used. -/
theorem options_ok_iff (env : Env) (m : Mem) (junk : ℕ) (lower : 0x45 ≤ num m 0)
    (upper : num m 0 ≤ 0x4F) (accepted : ∃ dst, ipRputOptions env m = some (.ok dst)) :
    (∃ z r, ipRputForwardOptions env m = some (z, r) ∧ Linked m r.steps r.mem ∧
      ((∀ s ∈ r.steps, s.Ok env) ↔ (forwardPlan env).Safe m (iphaDst m) (optionsOf m))) ∧
    ∃ z r, ipRputLocalOptions env junk m = some (z, r) ∧ Linked m r.steps r.mem ∧
      ((∀ s ∈ r.steps, s.Ok env) ↔ (localPlan env).Safe m junk (optionsOf m)) := by
  obtain ⟨dst, accepted⟩ := accepted
  have taken := taken_of_accepted (lt_succ_self _) accepted
  have ends : 20 + totallenOf m ≤ 60 := by
    rw [totallenOf]
    omega
  have ahead : Ahead 20 m m := fun _ _ => rfl
  constructor
  · obtain ⟨z, r, runs, linked, iff⟩ := @walkLoop_ok_iff env m (forwardPlan env) (forwardOption env)
      ⟨m, iphaDst m, []⟩ (totallenOf m + 1) (totallenOf m) 20 (forwardOption_stepwise env)
      (forwardOption_follows env) (forwardPlan_local env) (lt_succ_self _) (Nat.le_refl _) ends
      ahead taken
    exact ⟨z, r, runs, linked rfl, iff.trans (and_iff_right fun s mem => nomatch mem)⟩
  · obtain ⟨z, r, runs, linked, iff⟩ := @walkLoop_ok_iff env m (localPlan env) (localOption env)
      ⟨m, junk, []⟩ (totallenOf m + 1) (totallenOf m) 20 (localOption_stepwise env)
      (localOption_follows env) (localPlan_local env) (lt_succ_self _) (Nat.le_refl _) ends
      ahead taken
    exact ⟨z, r, runs, linked rfl, iff.trans (and_iff_right fun s mem => nomatch mem)⟩

/-- A header of 28 bytes with a time stamp option: one address is listed, with room for nothing
else. -/
def stampHeader : Mem := fun i =>
  [0x47, 0, 0, 48, 0, 0, 0, 0, 64, 17, 0, 0, 192, 168, 1, 1, 10, 0, 0, 2,
    0x44, 8, 5, 3, 10, 0, 0, 1].getD i 0

def host (addr : ℕ) : Env where
  myaddr := fun x => x == addr
  interface := fun _ => false
  srcRouted := true
  srcAddr := addr
  timeInSecs := 0
  lboltMs := 0
  stale := fun _ => 0

/-- The listed address is that of the host, and there is no room for the time. -/
theorem options_ok_iff_stamp :
    (∃ z r, ipRputForwardOptions (host 0x0A000001) stampHeader = some (z, r) ∧
      Linked stampHeader r.steps r.mem ∧
      ((∀ s ∈ r.steps, s.Ok (host 0x0A000001)) ↔ (forwardPlan (host 0x0A000001)).Safe stampHeader
        (iphaDst stampHeader) (optionsOf stampHeader))) ∧
    ∃ z r, ipRputLocalOptions (host 0x0A000001) 0 stampHeader = some (z, r) ∧
      Linked stampHeader r.steps r.mem ∧
      ((∀ s ∈ r.steps, s.Ok (host 0x0A000001)) ↔ (localPlan (host 0x0A000001)).Safe stampHeader 0
        (optionsOf stampHeader)) :=
  options_ok_iff (host 0x0A000001) stampHeader 0 (by decide)
    (by decide) ⟨0x0A000002, by decide +kernel⟩

/-- The slot of another host is filled, and the time is written behind the header. -/
theorem not_options_ok :
    ¬∀ (env : Env) (m : Mem) (junk : ℕ), 0x45 ≤ num m 0 → num m 0 ≤ 0x4F →
      (∃ dst, ipRputOptions env m = some (.ok dst)) →
      (∃ z r, ipRputForwardOptions env m = some (z, r) ∧ ∀ s ∈ r.steps, s.Ok env) ∧
        ∃ z r, ipRputLocalOptions env junk m = some (z, r) ∧ ∀ s ∈ r.steps, s.Ok env := by
  intro holds
  obtain ⟨⟨z, r, runs, ok⟩, -⟩ := holds (host 0x0A000003) stampHeader 0 (by decide) (by decide)
    ⟨0x0A000002, by decide +kernel⟩
  have seen : (ipRputForwardOptions (host 0x0A000003) stampHeader).map
      (fun res => res.2.steps.map fun s => (s.after.moved, s.opt.val s.before, s.opt.flag s.before,
        (host 0x0A000003).myaddr (s.opt.listed s.before))) = some
            [(8, .it, .spec, false)] := by decide +kernel
  rw [runs] at seen
  obtain ⟨s, steps_eq, s_eq⟩ := map_eq_singleton_iff.1 (Option.some.inj seen)
  simp only [Prod.mk.injEq] at s_eq
  obtain ⟨moved, it, spec, foreign⟩ := s_eq
  have s_ok := ok s (by rw [steps_eq]; exact mem_singleton_self s)
  exact nomatch foreign.symm.trans (s_ok.ours (by rw [moved]; decide) it spec)

end Sol25.Ip.Options
