import Sol25.Acl.Check

/-!
# What the check of the library decides

The header of `libsec/aclcheck.c` says what a valid list is.  `aclcheck` finds out, and names the
first entry that can not stand where it is, unless the ids of a type are the last entries of the
list: the array for them has one place too few.
-/

namespace Sol25.Acl

open List Bool

/-- The loop of `aclcheck`, where each `calloc` succeeds or not by itself; there is at most one for
each type of entries. -/
def tallyAllWith (memory : Slot → Bool) (tally : Tally) (which : ℕ) :
    List Aclent → Except Fault (Except (AclError × ℤ) Tally)
  | [] => .ok (.ok tally)
  | e :: rest =>
    match tallyEntry (e.slot.all memory) tally e rest.length with
    | .error fault => .error fault
    | .ok (.error .memError) => .ok (.error (.memError, -1))
    | .ok (.error err) => .ok (.error (err, which))
    | .ok (.ok tally) => tallyAllWith memory tally (which + 1) rest

/-- `aclcheck`, with an answer of `calloc` for each type of entries. -/
def aclcheckWith (memory : Slot → Bool) (aclbufp : List Aclent) : Except Fault Checked :=
  match tallyAllWith memory .zero 0 aclbufp with
  | .error fault => .error fault
  | .ok (.error (err, which)) => .ok (.error err which)
  | .ok (.ok tally) => .ok (if tally.missing then .error .missError (-1) else .valid)

/-! ### Valid lists -/

/-- The rules for the list of the file, or for the defaults. -/
structure Rules (entries : List Aclent) (d : Bool) : Prop where
  objects : Complete entries d
  users : (idsOf entries (d, .user)).Nodup
  groups : (idsOf entries (d, .group)).Nodup
  mask : Masked entries d
  masks : countOf entries (d, .classObj) ≤ 1

/-- A valid list, by the header of the file. -/
structure ValidAcl (entries : List Aclent) : Prop where
  known : ∀ e ∈ entries, e.known = true
  access : Rules entries false
  defaults : (∃ kind, 0 < countOf entries (true, kind)) → Rules entries true

/-- An entry that can not stand behind the ones in front of it: it has no type that there is, it is
a second one where there may be one, or its id is there already. -/
def Offends (done : List Aclent) (e : Aclent) : Prop :=
  e.known = false ∨ ∃ s : Slot, e.fits s = true ∧
    ((s.2.uniqueError ≠ none ∧ countOf done s ≠ 0) ∨ (s.2.uniqueError = none ∧ e.id ∈ idsOf done s))

def FirstOffending (entries : List Aclent) (i : ℕ) : Prop :=
  (∃ e, entries[i]? = some e ∧ Offends (entries.take i) e) ∧
    ∀ j < i, ∀ e, entries[j]? = some e → ¬ Offends (entries.take j) e

/-- There is memory for the ids of each type of the list. -/
def Stored (memory : Slot → Bool) (entries : List Aclent) : Prop :=
  ∀ s : Slot, s.2.uniqueError = none → countOf entries s ≠ 0 → memory s = true

/-- What `aclcheck` is to do: no id outside the array for it, `0` exactly for a valid list, and an
error with the first entry that offends or with none. -/
def Decides (memory : Slot → Bool) (entries : List Aclent) : Prop :=
  ∃ checked, aclcheckWith memory entries = .ok checked ∧
    (Stored memory entries → (checked = .valid ↔ ValidAcl entries)) ∧
    (checked = .valid → ValidAcl entries) ∧
    ∀ err which, checked = .error err which →
      which = -1 ∨ ∃ i : ℕ, which = i ∧ FirstOffending entries i

/-- The entries of a type are the last ones of the list. -/
def EndsIn (entries : List Aclent) (s : Slot) : Prop :=
  ∃ front run, entries = front ++ run ∧ run ≠ [] ∧ (∀ e ∈ front, e.fits s = false) ∧
    ∀ e ∈ run, e.fits s = true

variable {memory : Slot → Bool} {e : Aclent} {s : Slot} {entries done rest all : List Aclent}
  {tally : Tally}

theorem valid_iff : ValidAcl entries ↔ Tallied entries ∧ Masked entries false ∧
    Masked entries true ∧ Complete entries false ∧
      ((∃ kind, 0 < countOf entries (true, kind)) → Complete entries true) := by
  constructor
  · rintro ⟨known, access, defaults⟩
    have rules : ∀ s : Slot, countOf entries s ≠ 0 → Rules entries s.1 := by
      rintro ⟨d, kind⟩ there
      cases d with
      | false => exact access
      | true => exact defaults ⟨kind, Nat.pos_of_ne_zero there⟩
    refine ⟨⟨known, ?_, ?_⟩, access.mask, ?_, access.objects, fun some_there =>
      (defaults some_there).objects⟩
    · intro s unique
      by_cases there : countOf entries s = 0
      · omega
      · have here := rules s there
        obtain ⟨d, kind⟩ := s
        obtain ⟨user, group, other⟩ := here.objects
        cases kind with
        | userObj => exact user.le
        | groupObj => exact group.le
        | otherObj => exact other.le
        | classObj => exact here.masks
        | user => exact absurd rfl unique
        | group => exact absurd rfl unique
    · intro s many
      by_cases there : countOf entries s = 0
      · rw [← length_idsOf, length_eq_zero_iff] at there
        rw [there]
        exact nodup_nil
      · have here := rules s there
        obtain ⟨d, kind⟩ := s
        cases kind with
        | user => exact here.users
        | group => exact here.groups
        | userObj | groupObj | otherObj | classObj => exact nomatch many
    · rintro (user | group)
      · exact (defaults ⟨_, user⟩).mask (.inl user)
      · exact (defaults ⟨_, group⟩).mask (.inr group)
  · rintro ⟨tallied, masked, default_masked, complete, defaults⟩
    exact ⟨tallied.known, ⟨complete, tallied.ids _ rfl, tallied.ids _ rfl, masked,
        tallied.once _ (by simp [Kind.uniqueError])⟩,
      fun some_there => ⟨defaults some_there, tallied.ids _ rfl, tallied.ids _ rfl, default_masked,
        tallied.once _ (by simp [Kind.uniqueError])⟩⟩

/-! ### Offending entries -/

theorem split_at {i : ℕ} (here : entries[i]? = some e) :
    entries.take i ++ [e] ++ entries.drop (i + 1) = entries := by
  obtain ⟨lt, rfl⟩ := List.getElem?_eq_some_iff.1 here
  rw [take_append_getElem, take_append_drop]

/-- Entries in order, with one more. -/
theorem Tallied.concat_iff (tallied : Tallied done) :
    Tallied (done ++ [e]) ↔ ¬ Offends done e := by
  constructor
  · rintro later (unknown | ⟨s, fits, (⟨unique, again⟩ | ⟨many, old⟩)⟩)
    · have known := later.known e (mem_append_right done (mem_singleton.2 rfl))
      rw [known] at unknown
      exact nomatch unknown
    · exact again ((later.of_concat fits).1 unique)
    · exact (later.of_concat fits).2 many old
  · intro fine
    have known : e.known = true := by
      by_contra unknown
      exact fine (.inl (not_eq_true _ ▸ unknown))
    obtain ⟨s, fits⟩ := known_iff.1 known
    refine tallied.concat fits (fun unique => ?_) (fun many old => ?_)
    · by_contra again
      exact fine (.inr ⟨s, fits, .inl ⟨unique, again⟩⟩)
    · exact fine (.inr ⟨s, fits, .inr ⟨many, old⟩⟩)

theorem Tallied.not_offends {i : ℕ} (tallied : Tallied entries) (here : entries[i]? = some e) :
    ¬ Offends (entries.take i) e := by
  rw [← split_at here] at tallied
  have later := tallied.of_append
  exact later.of_append.concat_iff.1 later

theorem Tallied.first_offending (tallied : Tallied done) (offends : Offends done e) :
    FirstOffending (done ++ e :: rest) done.length := by
  refine ⟨⟨e, by simp, by simpa using offends⟩, fun j lt x here => ?_⟩
  rw [getElem?_append_left lt] at here
  rw [take_append_of_le_length lt.le]
  exact tallied.not_offends here

theorem FirstOffending.not_tallied {i : ℕ} (first : FirstOffending entries i) :
    ¬ Tallied entries := by
  obtain ⟨⟨e, here, bad⟩, -⟩ := first
  exact fun tallied => tallied.not_offends here bad

/-! ### Room for the ids -/

theorem countOf_eq_countP (s : Slot) : countOf entries s =
    (entries.dropWhile fun e => !e.fits s).countP fun e => e.fits s := by
  have split := takeWhile_append_dropWhile (p := fun e => !e.fits s) (l := entries)
  have passed : (entries.takeWhile fun e => !e.fits s).countP (fun e => e.fits s) = 0 := by
    rw [countP_eq_zero]
    intro e mem
    simpa using mem_takeWhile_imp mem
  rw [countOf]
  conv_lhs => rw [← split, countP_append, passed, Nat.zero_add]

theorem countOf_le_reach (s : Slot) : countOf entries s ≤ reach entries s := by
  rw [countOf_eq_countP, reach]
  exact countP_le_length

/-- There is no room for the last id of a type just when its entries are the last ones. -/
theorem endsIn_iff :
    EndsIn entries s ↔ countOf entries s ≠ 0 ∧ countOf entries s = reach entries s := by
  constructor
  · rintro ⟨front, run, rfl, some_there, others, same⟩
    obtain ⟨e, run, rfl⟩ := exists_cons_of_ne_nil some_there
    have first : countOf front s = 0 := by
      rw [countOf, countP_eq_zero]
      intro x mem
      rw [others x mem]
      exact false_ne_true
    have counted : countOf (front ++ e :: run) s = run.length + 1 := by
      rw [countOf, countP_append, ← countOf, first, Nat.zero_add,
        countP_eq_length.2 same, length_cons]
    rw [reach_first first (same e mem_cons_self), counted]
    exact ⟨Nat.succ_ne_zero _, rfl⟩
  · rintro ⟨some_there, full⟩
    refine ⟨_, _, (takeWhile_append_dropWhile (p := fun e => !e.fits s)).symm, ?_, ?_, ?_⟩
    · intro none_there
      rw [reach, none_there, length_nil] at full
      exact some_there full
    · intro e mem
      simpa using mem_takeWhile_imp mem
    · rw [countOf_eq_countP, reach] at full
      exact countP_eq_length.1 full

theorem roomy_iff :
    Roomy entries ↔ ∀ s : Slot, s.2.uniqueError = none → ¬ EndsIn entries s := by
  refine forall_congr' fun s => forall_congr' fun _ => ?_
  rw [endsIn_iff]
  have le := @countOf_le_reach entries s
  constructor
  · rintro room ⟨some_there, full⟩
    exact absurd full (room some_there).ne
  · intro ends some_there
    exact lt_of_le_of_ne le fun full => ends ⟨some_there, full⟩

/-! ### The loop -/

/-- What the loop comes to, for a whole list. -/
def Outcome (memory : Slot → Bool) (all : List Aclent) :
    Except Fault (Except (AclError × ℤ) Tally) → Prop
  | .error _ => Tallied all ∧ Stored memory all ∧ ¬ Roomy all
  | .ok (.error (.memError, which)) => which = -1 ∧ ¬ Stored memory all
  | .ok (.error (_, which)) => ∃ i : ℕ, which = i ∧ FirstOffending all i
  | .ok (.ok tally) => TallyOf all all tally ∧ Roomy all

/-- There is room in the whole list for the ids so far. -/
def RoomFor (all done : List Aclent) : Prop :=
  ∀ s : Slot, s.2.uniqueError = none → countOf done s ≠ 0 → countOf done s < reach all s

theorem RoomFor.concat (room : RoomFor all done) (fits : e.fits s = true)
    (here : s.2.uniqueError = none → countOf done s + 1 < reach all s) :
    RoomFor all (done ++ [e]) := by
  intro s' many some_there
  rw [countOf_concat] at some_there ⊢
  by_cases same : s' = s
  · subst same
    rw [fits, if_pos rfl]
    exact here many
  · rw [fits_of_ne fits same] at some_there ⊢
    exact room s' many some_there

theorem Stored.concat (stored : Stored memory done) (fits : e.fits s = true)
    (here : s.2.uniqueError = none → memory s = true) :
    Stored memory (done ++ [e]) := by
  intro s' many some_there
  by_cases same : s' = s
  · subst same
    exact here many
  · rw [countOf_concat, fits_of_ne fits same] at some_there
    exact stored s' many some_there

theorem countOf_mid (fits : e.fits s = true) : countOf (done ++ e :: rest) s ≠ 0 := by
  rw [countOf, countP_append, countP_cons]
  simp only [fits, if_true]
  omega

theorem reach_append (some_there : countOf done s ≠ 0) :
    reach (done ++ rest) s = reach done s + rest.length := by
  have positive := @countOf_le_reach done s
  have not_empty : ¬ (done.dropWhile fun e => !e.fits s).isEmpty = true := by
    rw [List.isEmpty_iff, ← length_eq_zero_iff, ← reach]
    omega
  rw [reach, dropWhile_append, if_neg not_empty, length_append, reach]

theorem no_room (fits : e.fits s = true) (full : reach (done ++ e :: rest) s ≤ countOf done s + 1) :
    rest = [] ∧ countOf (done ++ e :: rest) s = reach (done ++ e :: rest) s := by
  have counted : countOf (done ++ [e]) s = countOf done s + 1 := by
    rw [countOf_concat, fits, if_pos rfl]
  have whole : done ++ e :: rest = done ++ [e] ++ rest := by simp
  have le := @countOf_le_reach (done ++ [e]) s
  have far := @reach_append s (done ++ [e]) rest (by omega)
  rw [whole, far] at full
  obtain rfl : rest = [] := length_eq_zero_iff.1 (by omega)
  refine ⟨rfl, ?_⟩
  rw [length_nil] at far full
  rw [whole, far, append_nil]
  omega

theorem tallyEntry_no_memory {n : ℕ} (fits : e.fits s = true) (many : s.2.uniqueError = none)
    (first : tally.count s = 0) :
    tallyEntry false tally e n = .ok (.error .memError) := by
  rw [tallyEntry, slot_eq_some.2 fits]
  dsimp only
  rw [many]
  dsimp only
  rw [if_pos first]
  rfl

/-- One entry more, or the end of the loop. -/
theorem outcome_step (of : TallyOf (done ++ e :: rest) done tally) (stored : Stored memory done)
    (room : RoomFor (done ++ e :: rest) done) :
    (∃ tally', tallyEntry (e.slot.all memory) tally e rest.length = .ok (.ok tally') ∧
      TallyOf (done ++ e :: rest) (done ++ [e]) tally' ∧ Stored memory (done ++ [e]) ∧
      RoomFor (done ++ e :: rest) (done ++ [e])) ∨
    (∃ err, err ≠ .memError ∧
      tallyEntry (e.slot.all memory) tally e rest.length = .ok (.error err) ∧ Offends done e) ∨
    (tallyEntry (e.slot.all memory) tally e rest.length = .ok (.error .memError) ∧
      ¬ Stored memory (done ++ e :: rest)) ∨
    (tallyEntry (e.slot.all memory) tally e rest.length = .error .outside ∧
      Tallied (done ++ e :: rest) ∧ Stored memory (done ++ e :: rest) ∧
      ¬ Roomy (done ++ e :: rest)) := by
  cases found : e.slot with
  | none =>
    refine .inr (.inl ⟨.entryError, (by rintro ⟨⟩), ?_, .inl ?_⟩)
    · rw [tallyEntry, found]
    · by_contra known
      obtain ⟨s, fits⟩ := known_iff.1 (not_eq_false _ ▸ known)
      rw [slot_eq_some.2 fits] at found
      cases found
  | some s =>
    have fits := slot_eq_some.1 found
    rw [Option.all_some]
    cases kind : s.2.uniqueError with
    | some err =>
      rw [tallyEntry_unique fits kind]
      by_cases again : 0 < tally.count s
      · refine .inr (.inl ⟨err, ?_, if_pos again, .inr ⟨s, fits, .inl ⟨?_, ?_⟩⟩⟩)
        · rintro rfl
          obtain ⟨d, kind'⟩ := s
          cases kind' <;> cases kind
        · rw [kind]
          rintro ⟨⟩
        · rw [← of.count]
          omega
      · have taken := @tallyEntry_unique e s tally err true rest.length fits kind
        rw [if_neg again] at taken ⊢
        refine .inl ⟨_, rfl, of.step taken, stored.concat fits fun many => ?_,
          room.concat fits fun many => ?_⟩
        · rw [kind] at many
          cases many
        · rw [kind] at many
          cases many
    | none =>
      by_cases short : memory s = false ∧ countOf done s = 0
      · refine .inr (.inr (.inl ⟨?_, fun all_stored => ?_⟩))
        · rw [short.1, tallyEntry_no_memory fits kind (by rw [of.count]; exact short.2)]
        · have enough := all_stored s kind (countOf_mid fits)
          rw [short.1] at enough
          cases enough
      have enough : memory s = true := by
        by_contra lacking
        exact short ⟨not_eq_true _ ▸ lacking, by
          by_contra some_there
          exact lacking (stored s kind some_there)⟩
      have later_stored := stored.concat fits fun _ => enough
      have here := of.reach_eq fits kind
      rw [enough, tallyEntry_many fits kind (of.empty kind)]
      by_cases old : (tally.ids s).contains e.id = true
      · refine .inr (.inl ⟨.duplicateError, (by rintro ⟨⟩), if_pos old,
          .inr ⟨s, fits, .inr ⟨kind, ?_⟩⟩⟩)
        rw [← of.ids s kind]
        simpa using old
      have new : e.id ∉ idsOf done s := by
        rw [← of.ids s kind]
        simpa using old
      rw [if_neg old]
      dsimp only
      by_cases fitting : tally.count s <
        (if tally.count s = 0 then Function.update tally.room s rest.length else tally.room) s
      · refine .inl ⟨_, if_pos fitting, of.many fits kind new, later_stored,
          room.concat fits fun _ => ?_⟩
        rw [← of.count, ← here]
        omega
      · obtain ⟨rfl, full⟩ := @no_room e s done rest fits (by
          rw [← of.count, ← here]
          omega)
        refine .inr (.inr (.inr ⟨if_neg fitting, ?_, later_stored, fun roomy => ?_⟩))
        · exact of.tallied.concat fits (fun unique => absurd kind unique) fun _ => new
        · exact absurd full (roomy s kind (countOf_mid fits)).ne

/-- The loop, from any entry on. -/
theorem tallyAllWith_spec (of : TallyOf (done ++ rest) done tally) (stored : Stored memory done)
    (room : RoomFor (done ++ rest) done) :
    Outcome memory (done ++ rest) (tallyAllWith memory tally done.length rest) := by
  induction rest generalizing done tally with
  | nil =>
    rw [append_nil] at of room ⊢
    exact ⟨of, room⟩
  | cons e rest ih =>
    rw [tallyAllWith]
    rcases outcome_step of stored room with ⟨tally', eq, later, later_stored, later_room⟩ |
      ⟨err, ne, eq, offends⟩ | ⟨eq, lacking⟩ | ⟨eq, outside⟩
    · rw [eq]
      have whole : done ++ e :: rest = done ++ [e] ++ rest := by simp
      rw [whole] at later later_room ⊢
      have run := ih later later_stored later_room
      rw [length_append, length_singleton] at run
      exact run
    · rw [eq]
      have first : FirstOffending (done ++ e :: rest) done.length :=
        of.tallied.first_offending offends
      cases err with
      | memError => exact absurd rfl ne
      | grpError | userError | otherError | classError | duplicateError | missError
        | entryError => exact ⟨_, rfl, first⟩
    · rw [eq]
      exact ⟨rfl, lacking⟩
    · rw [eq]
      exact outside

/-! ### The check -/

theorem outcome_all (memory : Slot → Bool) (entries : List Aclent) :
    Outcome memory entries (tallyAllWith memory .zero 0 entries) :=
  @tallyAllWith_spec memory [] entries .zero TallyOf.zero
    (fun _ _ some_there => absurd rfl some_there) fun _ _ some_there => absurd rfl some_there

/-- An error of the loop is one for a list that is not valid, or for want of memory. -/
theorem outcome_error {err : AclError} {which : ℤ}
    (outcome : Outcome memory entries (.ok (.error (err, which)))) :
    (which = -1 ∧ ¬ Stored memory entries) ∨ ∃ i : ℕ, which = i ∧ FirstOffending entries i := by
  cases err with
  | memError => exact .inl outcome
  | grpError | userError | otherError | classError | duplicateError | missError | entryError =>
    exact .inr outcome

theorem valid_iff_missing (of : TallyOf entries entries tally) :
    tally.missing = false ↔ ValidAcl entries := by
  rw [valid_iff, missing_iff of]
  exact (and_iff_right of.tallied).symm

/-- `aclcheck` does what it is to do just when the list does not end with all its ids of a type, or
the loop stops before that. -/
theorem aclcheck_decides (memory : Slot → Bool) (entries : List Aclent) :
    Decides memory entries ↔ (Stored memory entries → Tallied entries →
      ∀ s : Slot, s.2.uniqueError = none → ¬ EndsIn entries s) := by
  rw [← roomy_iff]
  have outcome := outcome_all memory entries
  rw [Decides, aclcheckWith]
  generalize tallyAllWith memory .zero 0 entries = result at outcome ⊢
  match result, outcome with
  | .error fault, ⟨tallied, stored, crowded⟩ =>
    refine iff_of_false ?_ fun roomy => crowded (roomy stored tallied)
    rintro ⟨checked, eq, -⟩
    exact nomatch eq
  | .ok (.error (err, which)), outcome =>
    rcases outcome_error outcome with ⟨rfl, lacking⟩ | ⟨i, rfl, first⟩
    · refine iff_of_true ⟨_, rfl, fun stored => absurd stored lacking, nofun, ?_⟩
        fun stored => absurd stored lacking
      rintro _ _ ⟨⟩
      exact .inl rfl
    · have not_valid : ¬ ValidAcl entries := fun valid =>
        first.not_tallied (valid_iff.1 valid).1
      refine iff_of_true ⟨_, rfl, fun _ => iff_of_false nofun not_valid, nofun, ?_⟩
        fun _ tallied => absurd tallied first.not_tallied
      rintro _ _ ⟨⟩
      exact .inr ⟨i, rfl, first⟩
  | .ok (.ok tally), ⟨of, roomy⟩ =>
    have valid := valid_iff_missing of
    refine iff_of_true ?_ fun _ _ => roomy
    by_cases missing : tally.missing = true
    · have not_valid : ¬ ValidAcl entries := by
        rw [← valid, missing]
        exact Bool.noConfusion
      refine ⟨_, congrArg Except.ok (if_pos missing),
        fun _ => iff_of_false nofun not_valid, nofun,
        ?_⟩
      rintro _ _ ⟨⟩
      exact .inl rfl
    · have is_valid := valid.1 (not_eq_true _ ▸ missing)
      exact ⟨_, congrArg Except.ok (if_neg missing), fun _ => iff_of_true rfl is_valid,
        fun _ => is_valid, nofun⟩

/-- Three objects, a mask and a user, in an order of their own. -/
def userLast : List Aclent :=
  [⟨0x01, -1, 7⟩, ⟨0x04, -1, 5⟩, ⟨0x20, -1, 5⟩, ⟨0x10, -1, 7⟩, ⟨0x02, 100, 6⟩]

theorem userLast_valid : ValidAcl userLast where
  known := by decide
  access := ⟨⟨by decide, by decide, by decide⟩, by decide, by decide, fun _ => by decide, by decide⟩
  defaults := by
    rintro ⟨kind, some_there⟩
    cases kind <;> exact absurd some_there (by decide)

/-- The list is valid, and the id of its user is written outside an array of no ids. -/
theorem not_aclcheck_decides : ValidAcl userLast ∧ ¬ Decides (fun _ => true) userLast := by
  refine ⟨userLast_valid, ?_⟩
  rintro ⟨checked, eq, -⟩
  have outside : aclcheckWith (fun _ => true) userLast = .error .outside := by rfl
  rw [outside] at eq
  exact nomatch eq

end Sol25.Acl
