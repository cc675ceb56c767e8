import Mathlib.Data.List.TakeWhile
import Sol25.Acl.Safety

/-!
# The check of the library

`aclcheck` of `libsec/aclcheck.c` tallies the entries of a list, in any order.  For sorted entries
it is compared with `acl_validate` of the kernel on the two parts that `cacl` splits them into.
-/

namespace Sol25.Acl

open Function List

/-! ### `aclcheck` -/

/-- The errors of `aclcheck`. -/
inductive AclError where
  | grpError
  | userError
  | otherError
  | classError
  | duplicateError
  | missError
  | memError
  | entryError
  deriving DecidableEq, Repr

/-- One of the twelve types: a default or not, and of a kind. -/
abbrev Slot := Bool × Kind

def Slot.type (s : Slot) : BitVec 32 := if s.1 then aclDefault ||| s.2.bit else s.2.bit

/-- The entry is of a type. -/
def Aclent.fits (e : Aclent) (s : Slot) : Bool := if s.1 then e.isDef s.2 else e.is s.2

def slots : List Slot := kinds.map (Prod.mk false) ++ kinds.map (Prod.mk true)

/-- The `switch` on the type of an entry. -/
def Aclent.slot (e : Aclent) : Option Slot := slots.find? e.fits

/-- The kinds that may be there once, with the error for a second one. -/
def Kind.uniqueError : Kind → Option AclError
  | userObj => some .userError
  | groupObj => some .grpError
  | otherObj => some .otherError
  | classObj => some .classError
  | user => none
  | group => none

/-- A `struct entry_stat`, with the number of ids that there is room for. -/
structure Tally where
  count : Slot → ℕ
  ids : Slot → List ℤ
  room : Slot → ℕ

def Tally.zero : Tally := ⟨fun _ => 0, fun _ => [], fun _ => 0⟩

/-- One entry, with the number of those behind it. -/
def tallyEntry (memory : Bool) (tally : Tally) (e : Aclent)
    (nentries : ℕ) : Except Fault (Except AclError Tally) :=
  match e.slot with
  | none => .ok (.error .entryError)
  | some s =>
    match s.2.uniqueError with
    | some err =>
      if 0 < tally.count s then .ok (.error err)
      else .ok (.ok { tally with count := update tally.count s 1 })
    | none =>
      let cnt := tally.count s
      let count := update tally.count s (cnt + 1)
      if cnt = 0 then
        if !memory then .ok (.error .memError)
        -- The array is as long as what is behind this entry.
        else if 0 < nentries then
          .ok (.ok ⟨count, update tally.ids s [e.id], update tally.room s nentries⟩)
        else .error .outside
      else if (tally.ids s).contains e.id then .ok (.error .duplicateError)
      else if cnt < tally.room s then
        .ok (.ok ⟨count, update tally.ids s (tally.ids s ++ [e.id]), tally.room⟩)
      else .error .outside

/-- What `aclcheck` returns: an error with the number of an entry, or none. -/
inductive Checked where
  | error (err : AclError) (which : ℤ)
  | valid
  deriving DecidableEq, Repr

/-- The entries are tallied from one on. -/
def tallyAll (memory : Bool) (tally : Tally) (which : ℕ) :
    List Aclent → Except Fault (Except (AclError × ℤ) Tally)
  | [] => .ok (.ok tally)
  | e :: rest =>
    match tallyEntry memory tally e rest.length with
    | .error fault => .error fault
    | .ok (.error .memError) => .ok (.error (.memError, -1))
    | .ok (.error err) => .ok (.error (err, which))
    | .ok (.ok tally) => tallyAll memory tally (which + 1) rest

/-- An entry is missing, in the list of the file or in the defaults. -/
def Tally.missing (tally : Tally) : Bool :=
  let masked := fun d => (0 < tally.count (d, .user) ∨ 0 < tally.count (d, .group)) →
    tally.count (d, .classObj) = 1
  let three := fun d => tally.count (d, .userObj) = 1 ∧ tally.count (d, .groupObj) = 1 ∧
    tally.count (d, .otherObj) = 1
  let defaults := kinds.any fun kind => 0 < tally.count (true, kind)
  !(decide (masked false) && decide (masked true) && decide (three false) &&
    (!defaults || decide (three true)))

/-- `aclcheck`, with memory or without. -/
def aclcheck (memory : Bool) (aclbufp : List Aclent) : Except Fault Checked :=
  match tallyAll memory .zero 0 aclbufp with
  | .error fault => .error fault
  | .ok (.error (err, which)) => .ok (.error err which)
  | .ok (.ok tally) => .ok (if tally.missing then .error .missError (-1) else .valid)

/-! ### Types -/

variable {e e' : Aclent} {s s' : Slot} {entries done rest all : List Aclent} {tally tally' : Tally}

theorem fits_iff : e.fits s = true ↔ e.type = s.type := by
  obtain ⟨d, kind⟩ := s
  cases d with
  | false => simp [Aclent.fits, Slot.type, Aclent.is]
  | true => simp [Aclent.fits, Slot.type, Aclent.isDef]

theorem mem_slots (s : Slot) : s ∈ slots := by
  obtain ⟨d, kind⟩ := s
  cases d <;> cases kind <;> decide

theorem type_inj (eq : s.type = s'.type) : s = s' := by
  obtain ⟨d, kind⟩ := s
  obtain ⟨d', kind'⟩ := s'
  cases d <;> cases d' <;> cases kind <;> cases kind' <;> revert eq <;> decide

theorem slot_eq_some : e.slot = some s ↔ e.fits s = true := by
  constructor
  · exact fun found => find?_some found
  · intro fits
    cases found : e.slot with
    | none => exact absurd fits (find?_eq_none.1 found s (mem_slots s))
    | some s' =>
      have fits' := find?_some found
      rw [fits_iff] at fits fits'
      rw [type_inj (fits.symm.trans fits')]

theorem known_iff : e.known = true ↔ ∃ s, e.fits s = true := by
  rw [Aclent.known, List.any_eq_true]
  constructor
  · rintro ⟨kind, -, is⟩
    rcases Bool.or_eq_true_iff.1 is with is | is
    · exact ⟨(false, kind), is⟩
    · exact ⟨(true, kind), is⟩
  · rintro ⟨⟨d, kind⟩, is⟩
    refine ⟨kind, by cases kind <;> decide, Bool.or_eq_true_iff.2 ?_⟩
    cases d with
    | false => exact .inl is
    | true => exact .inr is

/-! ### What is tallied -/

/-- The number of entries of a type. -/
def countOf (entries : List Aclent) (s : Slot) : ℕ := entries.countP fun e => e.fits s

def idsOf (entries : List Aclent) (s : Slot) : List ℤ :=
  (entries.filter fun e => e.fits s).map Aclent.id

/-- Entries that the loop takes: of types that there are, with one entry of each kind that may be
there once, and no id twice in a type. -/
structure Tallied (entries : List Aclent) : Prop where
  known : ∀ e ∈ entries, e.known = true
  once : ∀ s : Slot, s.2.uniqueError ≠ none → countOf entries s ≤ 1
  ids : ∀ s : Slot, s.2.uniqueError = none → (idsOf entries s).Nodup

/-- The number of entries from the first one of a type on. -/
def reach (all : List Aclent) (s : Slot) : ℕ := (all.dropWhile fun e => !e.fits s).length

/-- What a tally says about the entries so far. -/
structure TallyOf (all done : List Aclent) (tally : Tally) : Prop where
  tallied : Tallied done
  count : ∀ s, tally.count s = countOf done s
  ids : ∀ s : Slot, s.2.uniqueError = none → tally.ids s = idsOf done s
  room : ∀ s : Slot, s.2.uniqueError = none → countOf done s ≠ 0 → tally.room s + 1 = reach all s

theorem countOf_concat (s : Slot) :
    countOf (done ++ [e]) s = countOf done s + if e.fits s then 1 else 0 := by
  rw [countOf, countOf, countP_append, countP_singleton]

theorem idsOf_concat (s : Slot) :
    idsOf (done ++ [e]) s = idsOf done s ++ if e.fits s then [e.id] else [] := by
  rw [idsOf, idsOf, filter_append, map_append, filter_singleton]
  cases e.fits s <;> rfl

theorem length_idsOf (s : Slot) : (idsOf entries s).length = countOf entries s := by
  rw [idsOf, length_map, countOf, countP_eq_length_filter]

theorem fits_of_ne (fits : e.fits s = true) (ne : s' ≠ s) : e.fits s' = false := by
  by_contra is
  rw [Bool.not_eq_false, fits_iff] at is
  rw [fits_iff] at fits
  exact ne (type_inj (is.symm.trans fits))

/-- An entry is taken. -/
theorem Tallied.concat (tallied : Tallied done) (fits : e.fits s = true)
    (once : s.2.uniqueError ≠ none → countOf done s = 0)
    (new : s.2.uniqueError = none → e.id ∉ idsOf done s) :
    Tallied (done ++ [e]) where
  known := forall_mem_append.2
    ⟨tallied.known, forall_mem_singleton.2 (known_iff.2 ⟨s, fits⟩)⟩
  once := by
    intro s' unique
    rw [countOf_concat]
    by_cases same : s' = s
    · subst same
      rw [once unique, fits]
      exact le_refl 1
    · rw [fits_of_ne fits same]
      exact tallied.once s' unique
  ids := by
    intro s' many
    rw [idsOf_concat]
    by_cases same : s' = s
    · subst same
      rw [fits, if_pos rfl, nodup_append]
      refine ⟨tallied.ids s' many, pairwise_singleton _ _, ?_⟩
      rintro x mem y y_mem rfl
      rw [mem_singleton] at y_mem
      subst y_mem
      exact new many mem
    · rw [fits_of_ne fits same, if_neg (by simp), append_nil]
      exact tallied.ids s' many

theorem Tallied.of_concat (tallied : Tallied (done ++ [e])) (fits : e.fits s = true) :
    (s.2.uniqueError ≠ none → countOf done s = 0) ∧
      (s.2.uniqueError = none → e.id ∉ idsOf done s) := by
  constructor
  · intro unique
    have once := tallied.once s unique
    rw [countOf_concat, fits, if_pos rfl] at once
    omega
  · intro many mem
    have nodup := tallied.ids s many
    rw [idsOf_concat, fits, if_pos rfl, nodup_append] at nodup
    exact nodup.2.2 e.id mem e.id (mem_singleton.2 rfl) rfl

theorem Tallied.of_append (tallied : Tallied (done ++ rest)) : Tallied done where
  known := fun e mem => tallied.known e (mem_append_left rest mem)
  once := by
    intro s unique
    have once := tallied.once s unique
    rw [countOf, countP_append] at once
    rw [countOf]
    omega
  ids := by
    intro s many
    have nodup := tallied.ids s many
    rw [idsOf, filter_append, map_append, nodup_append] at nodup
    exact nodup.1

theorem reach_first (first : countOf done s = 0) (fits : e.fits s = true) :
    reach (done ++ e :: rest) s = rest.length + 1 := by
  have passed : ∀ x ∈ done, (!x.fits s) = true := by
    intro x mem
    rw [countOf, countP_eq_zero] at first
    simpa using first x mem
  rw [reach, dropWhile_append_of_pos passed, dropWhile_cons_of_neg (by simp [fits]), length_cons]

/-- A tally goes on with one entry more. -/
theorem TallyOf.concat (of : TallyOf all done tally) (fits : e.fits s = true)
    (once : s.2.uniqueError ≠ none → countOf done s = 0)
    (new : s.2.uniqueError = none → e.id ∉ idsOf done s)
    (count : tally'.count = update tally.count s (tally.count s + 1))
    (ids : ∀ s' : Slot, s'.2.uniqueError = none → tally'.ids s' = if s' = s then
      tally.ids s ++ [e.id] else tally.ids s')
    (room : ∀ s' : Slot, s'.2.uniqueError = none → s' ≠ s → tally'.room s' = tally.room s')
    (here : s.2.uniqueError = none → tally'.room s + 1 = reach all s) :
    TallyOf all (done ++ [e]) tally' where
  tallied := of.tallied.concat fits once new
  count := by
    intro s'
    rw [countOf_concat, count]
    by_cases same : s' = s
    · rw [same, update_self, of.count, fits]
      rfl
    · rw [update_of_ne same, of.count, fits_of_ne fits same]
      rfl
  ids := by
    intro s' many
    rw [idsOf_concat, ids s' many]
    by_cases same : s' = s
    · rw [same, if_pos rfl, fits, if_pos rfl, of.ids s (same ▸ many)]
    · rw [if_neg same, fits_of_ne fits same, if_neg (by simp), append_nil, of.ids s' many]
  room := by
    intro s' many some_there
    by_cases same : s' = s
    · rw [same]
      exact here (same ▸ many)
    · rw [countOf_concat, fits_of_ne fits same, if_neg (by simp), Nat.add_zero] at some_there
      rw [room s' many same]
      exact of.room s' many some_there

theorem tallyEntry_unique {err : AclError} {memory : Bool} {n : ℕ} (fits : e.fits s = true)
    (unique : s.2.uniqueError = some err) :
    tallyEntry memory tally e n = if 0 < tally.count s then .ok (.error err)
      else .ok (.ok { tally with count := update tally.count s 1 }) := by
  rw [tallyEntry, slot_eq_some.2 fits]
  dsimp only
  rw [unique]

/-- One entry with an id. -/
theorem tallyEntry_many {n : ℕ} (fits : e.fits s = true) (many : s.2.uniqueError = none)
    (empty : tally.count s = 0 → tally.ids s = []) :
    tallyEntry true tally e n = if (tally.ids s).contains e.id then .ok (.error .duplicateError)
      else
        let room := if tally.count s = 0 then update tally.room s n else tally.room
        if tally.count s < room s then
          .ok (.ok ⟨update tally.count s (tally.count s + 1),
            update tally.ids s (tally.ids s ++ [e.id]), room⟩)
        else .error .outside := by
  rw [tallyEntry, slot_eq_some.2 fits]
  dsimp only
  rw [many]
  dsimp only
  by_cases first : tally.count s = 0
  · rw [if_pos first, if_pos first, empty first, first]
    simp
  · rw [if_neg first, if_neg first]

theorem TallyOf.empty (of : TallyOf all done tally) (many : s.2.uniqueError = none)
    (none_there : tally.count s = 0) :
    tally.ids s = [] := by
  rw [of.ids s many, ← length_eq_zero_iff, length_idsOf, ← of.count]
  exact none_there

theorem TallyOf.reach_eq (of : TallyOf (done ++ e :: rest) done tally) (fits : e.fits s = true)
    (many : s.2.uniqueError = none) :
    (if tally.count s = 0 then update tally.room s rest.length else tally.room) s + 1 =
      reach (done ++ e :: rest) s := by
  by_cases first : tally.count s = 0
  · rw [if_pos first, update_self, reach_first (by rw [← of.count]; exact first) fits]
  · rw [if_neg first]
    exact of.room s many (by rw [← of.count]; exact first)

theorem TallyOf.many (of : TallyOf (done ++ e :: rest) done tally) (fits : e.fits s = true)
    (many : s.2.uniqueError = none) (new : e.id ∉ idsOf done s) :
    TallyOf (done ++ e :: rest) (done ++ [e]) ⟨update tally.count s (tally.count s + 1),
        update tally.ids s (tally.ids s ++ [e.id]),
        if tally.count s = 0 then update tally.room s rest.length else tally.room⟩ := by
  refine of.concat fits (fun unique => absurd many unique) (fun _ => new) rfl ?_ ?_
    (fun _ => of.reach_eq fits many)
  · intro s' _
    by_cases same : s' = s
    · rw [same, if_pos rfl]
      exact update_self _ _ _
    · rw [if_neg same]
      exact update_of_ne same _ _
  · intro s' _ other
    dsimp only
    split_ifs
    · exact update_of_ne other _ _
    · rfl

/-- One entry is tallied. -/
theorem TallyOf.step (of : TallyOf (done ++ e :: rest) done tally)
    (eq : tallyEntry true tally e rest.length = .ok (.ok tally')) :
    TallyOf (done ++ e :: rest) (done ++ [e]) tally' := by
  cases found : e.slot with
  | none =>
    rw [tallyEntry, found] at eq
    exact nomatch eq
  | some s =>
    have fits := slot_eq_some.1 found
    cases kind : s.2.uniqueError with
    | some err =>
      rw [tallyEntry_unique fits kind] at eq
      by_cases again : 0 < tally.count s
      · rw [if_pos again] at eq
        exact nomatch eq
      · rw [if_neg again] at eq
        obtain rfl := Except.ok.inj (Except.ok.inj eq)
        have first : tally.count s = 0 := by omega
        refine of.concat fits (fun _ => by rw [← of.count]; exact first)
          (fun many => absurd many (by rw [kind]; simp))
          (by rw [first]) ?_ (fun _ _ _ => rfl) (fun many => absurd many (by rw [kind]; simp))
        intro s' many
        rw [if_neg]
        rintro rfl
        rw [kind] at many
        exact nomatch many
    | none =>
      rw [tallyEntry_many fits kind (of.empty kind)] at eq
      dsimp only at eq
      by_cases old : (tally.ids s).contains e.id = true
      · rw [if_pos old] at eq
        exact nomatch eq
      rw [if_neg old] at eq
      by_cases room : tally.count s <
        (if tally.count s = 0 then update tally.room s rest.length else tally.room) s
      · rw [if_pos room] at eq
        obtain rfl := Except.ok.inj (Except.ok.inj eq)
        refine of.many fits kind ?_
        rw [← of.ids s kind]
        simpa using old
      · rw [if_neg room] at eq
        exact nomatch eq

/-- There is room for the ids of each type. -/
def Roomy (all : List Aclent) : Prop :=
  ∀ s : Slot, s.2.uniqueError = none → countOf all s ≠ 0 → countOf all s < reach all s

/-- One entry can be tallied. -/
theorem TallyOf.next (of : TallyOf (done ++ e :: rest) done tally)
    (tallied : Tallied (done ++ e :: rest)) (roomy : Roomy (done ++ e :: rest)) :
    ∃ tally', tallyEntry true tally e rest.length = .ok (.ok tally') := by
  have whole : done ++ e :: rest = done ++ [e] ++ rest := by simp
  have here : Tallied (done ++ [e]) := by
    rw [whole] at tallied
    exact tallied.of_append
  obtain ⟨s, fits⟩ := known_iff.1 (here.known e (mem_append_right done (mem_singleton.2 rfl)))
  obtain ⟨once, new⟩ := here.of_concat fits
  cases kind : s.2.uniqueError with
  | some err =>
    have first := once (by rw [kind]; simp)
    rw [tallyEntry_unique fits kind, of.count, first, if_neg (Nat.lt_irrefl 0)]
    exact ⟨_, rfl⟩
  | none =>
    rw [tallyEntry_many fits kind (of.empty kind)]
    have counted : countOf done s < countOf (done ++ e :: rest) s := by
      rw [whole, countOf, countOf, countP_append, countP_append, countP_singleton, fits, if_pos rfl]
      omega
    have enough := roomy s kind (by omega)
    have room := of.reach_eq fits kind
    have old : ¬ (tally.ids s).contains e.id = true := by
      rw [of.ids s kind]
      simpa using new kind
    rw [if_neg old]
    dsimp only
    rw [if_pos (by rw [of.count] at room ⊢; omega)]
    exact ⟨_, rfl⟩

/-! ### The loop -/

theorem TallyOf.ends {which : ℕ} (of : TallyOf (done ++ rest) done tally)
    (eq : tallyAll true tally which rest = .ok (.ok tally')) :
    TallyOf (done ++ rest) (done ++ rest) tally' := by
  induction rest generalizing done tally which with
  | nil =>
    rw [append_nil] at of ⊢
    rw [tallyAll] at eq
    obtain rfl := Except.ok.inj (Except.ok.inj eq)
    exact of
  | cons e rest ih =>
    rw [tallyAll] at eq
    split at eq
    next => exact nomatch eq
    next => exact nomatch eq
    next => exact nomatch eq
    next next_tally stepped =>
      have later := of.step stepped
      have whole : done ++ e :: rest = done ++ [e] ++ rest := by simp
      rw [whole] at later ⊢
      exact ih later eq

theorem TallyOf.runs {which : ℕ} (of : TallyOf (done ++ rest) done tally)
    (tallied : Tallied (done ++ rest)) (roomy : Roomy (done ++ rest)) :
    ∃ tally', tallyAll true tally which rest = .ok (.ok tally') := by
  induction rest generalizing done tally which with
  | nil => exact ⟨tally, rfl⟩
  | cons e rest ih =>
    obtain ⟨next_tally, stepped⟩ := of.next tallied roomy
    have later := of.step stepped
    rw [tallyAll, stepped]
    have whole : done ++ e :: rest = done ++ [e] ++ rest := by simp
    rw [whole] at later tallied roomy
    exact ih later tallied roomy

theorem TallyOf.zero : TallyOf all [] .zero where
  tallied := ⟨fun _ => nofun, fun _ _ => Nat.zero_le _, fun _ _ => List.Pairwise.nil⟩
  count := fun _ => rfl
  ids := fun _ _ => rfl
  room := fun _ _ some_there => absurd rfl some_there

/-- The entries of the three kinds that must be there, and a mask where there are further ones. -/
def Complete (entries : List Aclent) (d : Bool) : Prop :=
  countOf entries (d, .userObj) = 1 ∧ countOf entries (d, .groupObj) = 1 ∧
    countOf entries (d, .otherObj) = 1

def Masked (entries : List Aclent) (d : Bool) : Prop :=
  0 < countOf entries (d, .user) ∨ 0 < countOf entries (d, .group) →
    countOf entries (d, .classObj) = 1

theorem missing_iff (of : TallyOf all entries tally) : tally.missing = false ↔
    Masked entries false ∧ Masked entries true ∧ Complete entries false ∧
      ((∃ kind, 0 < countOf entries (true, kind)) → Complete entries true) := by
  have any_iff : (kinds.any fun kind => decide (0 < tally.count (true, kind))) = true ↔
      ∃ kind, 0 < countOf entries (true, kind) := by
    rw [List.any_eq_true]
    constructor
    · rintro ⟨kind, -, positive⟩
      exact ⟨kind, by rw [← of.count]; exact of_decide_eq_true positive⟩
    · rintro ⟨kind, positive⟩
      exact ⟨kind, by cases kind <;> decide, decide_eq_true (by rw [of.count]; exact positive)⟩
  rw [← any_iff]
  simp only [Tally.missing, Bool.not_eq_false', Bool.and_eq_true, Bool.or_eq_true,
    Bool.not_eq_true', decide_eq_true_eq, of.count, Masked, Complete, and_assoc]
  cases kinds.any fun kind => decide (0 < countOf entries (true, kind)) <;> simp

/-- `aclcheck` accepts what it can tally, when nothing is missing and there is room for the ids. -/
theorem aclcheck_valid (accepted : aclcheck true entries = .ok .valid) :
    Tallied entries ∧ Masked entries false ∧ Masked entries true ∧ Complete entries false ∧
      ((∃ kind, 0 < countOf entries (true, kind)) → Complete entries true) := by
  rw [aclcheck] at accepted
  split at accepted
  next => exact nomatch accepted
  next => exact nomatch accepted
  next tally eq =>
    have of : TallyOf entries entries tally :=
      @TallyOf.ends [] entries .zero tally 0 TallyOf.zero eq
    cases missing : tally.missing with
    | true =>
      rw [missing, if_pos rfl] at accepted
      exact nomatch accepted
    | false => exact ⟨of.tallied, (missing_iff of).1 missing⟩

theorem aclcheck_of_valid (tallied : Tallied entries) (roomy : Roomy entries)
    (masked : Masked entries false) (default_masked : Masked entries true)
    (complete : Complete entries false)
    (defaults : (∃ kind, 0 < countOf entries (true, kind)) → Complete entries true) :
    aclcheck true entries = .ok .valid := by
  obtain ⟨tally, eq⟩ := @TallyOf.runs [] entries .zero 0 TallyOf.zero tallied roomy
  have of : TallyOf entries entries tally := @TallyOf.ends [] entries .zero tally 0 TallyOf.zero eq
  have missing := (missing_iff of).2 ⟨masked, default_masked, complete, defaults⟩
  rw [aclcheck, eq]
  dsimp only
  rw [missing]
  rfl

/-! ### Sorted entries -/

/-- Two entries with different types or ids. -/
def Distinct (x y : Aclent) : Prop := ¬ (x.type = y.type ∧ x.id = y.id)

/-- The order of `cmp2acls`. -/
def Sorted (entries : List Aclent) : Prop := entries.Pairwise fun x y => cmp2acls x y ≠ .gt

/-- Among sorted entries it is enough to compare neighbours. -/
theorem neighboursOk_iff (sorted : Sorted entries) (perms : ∀ e ∈ entries, e.perm.toNat ≤ 0o7) :
    neighboursOk entries = true ↔ entries.Pairwise Distinct := by
  induction entries with
  | nil => exact iff_of_true rfl List.Pairwise.nil
  | cons x rest ih =>
    obtain ⟨x_le, sorted⟩ := pairwise_cons.1 sorted
    obtain ⟨x_perm, perms⟩ := forall_mem_cons.1 perms
    have tail := ih sorted perms
    cases rest with
    | nil => exact iff_of_true rfl (pairwise_singleton _ _)
    | cons y rest =>
      rw [pairwise_cons, ← tail, neighboursOk, Bool.and_eq_true]
      refine and_congr_left fun _ => ?_
      have first : (!((decide (x.type = y.type) && decide (x.id = y.id)) || decide
          (0o7 < x.perm.toNat))) = true ↔ Distinct x y := by
        simp only [Bool.not_eq_true', Bool.or_eq_false_iff, decide_eq_false_iff_not, Distinct,
          Bool.and_eq_false_iff]
        have not_large : ¬ 0o7 < x.perm.toNat := by omega
        tauto
      rw [first, forall_mem_cons]
      refine ⟨fun distinct => ⟨distinct, fun z mem same => ?_⟩, And.left⟩
      have x_y := cmp2acls_ne_gt.1 (x_le y mem_cons_self)
      have y_z := cmp2acls_ne_gt.1 ((pairwise_cons.1 sorted).1 z mem)
      rw [← same.1, ← same.2] at y_z
      have same_type : x.type.toInt = y.type.toInt := by omega
      exact distinct ⟨BitVec.eq_of_toInt_eq same_type, by omega⟩

theorem countP_le_one_iff {α : Type*} {p : α → Bool} {l : List α} :
    l.countP p ≤ 1 ↔ l.Pairwise fun x y => ¬ (p x = true ∧ p y = true) := by
  induction l with
  | nil => exact iff_of_true (Nat.zero_le _) List.Pairwise.nil
  | cons x l ih =>
    rw [pairwise_cons, ← ih]
    cases here : p x with
    | false => simp [here]
    | true =>
      rw [countP_cons_of_pos here]
      constructor
      · intro few
        have none_there : l.countP p = 0 := by omega
        rw [countP_eq_zero] at none_there
        exact ⟨fun y mem both => none_there y mem both.2, by omega⟩
      · rintro ⟨none_there, -⟩
        have zero : l.countP p = 0 := countP_eq_zero.2 fun y mem is => none_there y mem ⟨rfl, is⟩
        omega

/-- The loop takes entries that are distinct. -/
theorem tallied_iff : Tallied entries ↔ (∀ e ∈ entries, e.known = true) ∧
    (∀ s : Slot, s.2.uniqueError ≠ none → countOf entries s ≤ 1) ∧ entries.Pairwise Distinct := by
  have ids_iff : ∀ s : Slot, (idsOf entries s).Nodup ↔
      entries.Pairwise fun x y => x.fits s = true → y.fits s = true → x.id ≠ y.id := by
    intro s
    rw [idsOf, List.Nodup, pairwise_map, pairwise_filter]
  constructor
  · intro tallied
    refine ⟨tallied.known, tallied.once, pairwise_iff_getElem.2 fun i j i_lt j_lt lt same => ?_⟩
    obtain ⟨s, fits⟩ := known_iff.1 (tallied.known _ (getElem_mem i_lt))
    have fits' : entries[j].fits s = true := by
      rw [fits_iff] at fits ⊢
      rw [← same.1, fits]
    cases kind : s.2.uniqueError with
    | some err =>
      have few := countP_le_one_iff.1 (tallied.once s (by rw [kind]; simp))
      exact pairwise_iff_getElem.1 few i j i_lt j_lt lt ⟨fits, fits'⟩
    | none =>
      have apart := (ids_iff s).1 (tallied.ids s kind)
      exact pairwise_iff_getElem.1 apart i j i_lt j_lt lt fits fits' same.2
  · rintro ⟨known, once, distinct⟩
    refine ⟨known, once, fun s _ => (ids_iff s).2 (distinct.imp fun apart fits fits' same => ?_)⟩
    rw [fits_iff] at fits fits'
    exact apart ⟨fits.trans fits'.symm, same⟩

theorem default_of_fits (fits : e.fits s = true) : e.default = s.1 := by
  rw [fits_iff] at fits
  rw [Aclent.default, fits]
  obtain ⟨d, kind⟩ := s
  cases d <;> cases kind <;> decide

/-- There are no more entries of the kinds than there are entries. -/
theorem sum_counts_le (d : Bool) :
    (kinds.map fun kind => countOf entries (d, kind)).sum ≤ entries.length := by
  induction entries with
  | nil => simp [countOf, kinds]
  | cons e entries ih =>
    have cons_eq : ∀ kind,
        countOf (e :: entries) (d, kind) = countOf entries (d, kind) + if e.fits (d, kind) then 1
            else 0 := by
      intro kind
      rw [countOf, countP_cons, countOf]
    have at_most : (kinds.map fun kind => if e.fits (d, kind) = true then 1 else 0).sum ≤ 1 := by
      by_cases found : ∃ kind, e.fits (d, kind) = true
      · obtain ⟨kind, fits⟩ := found
        have others : ∀ kind', kind' ≠ kind → e.fits (d, kind') = false := fun kind' ne =>
          fits_of_ne fits fun same => ne (Prod.mk.inj same).2
        cases kind <;> simp [kinds, fits, others]
      · have none_fits : ∀ kind, e.fits (d, kind) = false := fun kind => by
          rw [← Bool.not_eq_true]
          exact fun fits => found ⟨kind, fits⟩
        simp [none_fits]
    simp only [kinds, map_cons, map_nil, sum_cons, sum_nil, cons_eq, length_cons] at ih at_most ⊢
    omega

/-! ### The two parts -/

/-- The kernel accepts the parts of a list, as `cacl` splits it. -/
def KernelAccepts (entries : List Aclent) : Prop :=
  aclValidate (splitSorted entries).aclentp .aclCheck = none ∧
    aclValidate (splitSorted entries).dfaclentp .defAclCheck = none

theorem validate_access_iff (few : entries.length ≤ maxAclEntries) :
    aclValidate (some entries) .aclCheck = none ↔
    entries ≠ [] ∧ neighboursOk entries = true ∧ (∀ e ∈ entries, e.known = true) ∧
      Complete entries false ∧
      countOf entries (false, .classObj) ≤ 1 ∧
      (countOf entries (false, .group) ≠ 0 → countOf entries (false, .classObj) ≠ 0) := by
  have total := @sum_counts_le entries false
  have counts : ∀ kind, (entries.countP fun e => e.is kind) = countOf entries (false, kind) :=
    fun _ => rfl
  simp only [kinds, map_cons, map_nil, sum_cons, sum_nil] at total
  simp only [aclValidate, ite_some_eq_none, counts, Complete, ← List.all_eq_true,
    Bool.not_eq_true', Bool.not_eq_false, and_true]
  refine and_congr_right fun _ => and_congr_right fun _ => and_congr_right fun _ => ?_
  omega

/-- What `acl_validate` asks of the counts of the defaults. -/
def DefaultCounts (entries : List Aclent) : Prop :=
  (countOf entries (true, .userObj) ≤ 1 ∧ countOf entries (true, .groupObj) ≤ 1 ∧
    countOf entries (true, .otherObj) ≤ 1 ∧
    countOf entries (true, .classObj) ≤ 1) ∧
  (countOf entries (true, .userObj) + countOf entries (true, .groupObj) + countOf entries
    (true, .otherObj) = 0 ∨
    Complete entries true) ∧
  (countOf entries (true, .group) ≠ 0 → countOf entries (true, .classObj) ≠ 0) ∧
  (countOf entries (true, .user) ≠ 0 → ¬ Complete entries true →
    countOf entries (true, .classObj) ≠ 0)

theorem validate_default_iff (few : entries.length ≤ maxAclEntries) :
    aclValidate (some entries) .defAclCheck = none ↔ entries ≠ [] ∧ neighboursOk entries = true ∧
      (∀ e ∈ entries, e.known = true) ∧ DefaultCounts entries := by
  have total := @sum_counts_le entries true
  have counts : ∀ kind, (entries.countP fun e => e.isDef kind) = countOf entries (true, kind) :=
    fun _ => rfl
  simp only [kinds, map_cons, map_nil, sum_cons, sum_nil] at total
  simp only [aclValidate, ite_some_eq_none, counts, DefaultCounts, Complete, ← List.all_eq_true,
    Bool.not_eq_true', Bool.not_eq_false, and_true]
  refine and_congr_right fun _ => and_congr_right fun _ => and_congr_right fun _ => ?_
  omega

/-- The entries in front of the first default. -/
def accessPart (entries : List Aclent) : List Aclent := entries.takeWhile fun e => !e.default

/-- The entries from the first default on. -/
def defaultPart (entries : List Aclent) : List Aclent := entries.dropWhile fun e => !e.default

theorem parts_append : accessPart entries ++ defaultPart entries = entries :=
  takeWhile_append_dropWhile

theorem splitSorted_eq : splitSorted entries =
    ⟨if accessPart entries = [] then none else some (accessPart entries),
      if defaultPart entries = [] then none else some (defaultPart entries)⟩ := by
  have take_eq : entries.take (entries.findIdx Aclent.default) = accessPart entries := by
    rw [accessPart, takeWhile_eq_take_findIdx_not]
    simp only [Bool.not_not]
  have drop_eq : entries.drop (entries.findIdx Aclent.default) = defaultPart entries := by
    rw [defaultPart, dropWhile_eq_drop_findIdx_not]
    simp only [Bool.not_not]
  have access_nil : entries.findIdx Aclent.default = 0 ↔ accessPart entries = [] := by
    cases entries with
    | nil => exact iff_of_true rfl rfl
    | cons e entries =>
      rw [findIdx_cons, accessPart, takeWhile_cons]
      cases e.default <;> simp
  have default_nil : entries.findIdx Aclent.default < entries.length ↔
      ¬ defaultPart entries = [] := by
    rw [← drop_eq, drop_eq_nil_iff]
    omega
  rw [splitSorted]
  simp only [take_eq, drop_eq, access_nil, default_nil, ite_not]

theorem mem_accessPart (mem : e ∈ accessPart entries) : e.default = false := by
  have passed := mem_takeWhile_imp mem
  simpa using passed

theorem mem_defaultPart (sorted : Sorted entries) (known : ∀ e ∈ entries, e.known = true)
    (mem : e ∈ defaultPart entries) :
    e.default = true := by
  cases part : defaultPart entries with
  | nil =>
    rw [part] at mem
    exact nomatch mem
  | cons first rest =>
    have first_default : first.default = true := by
      have stops := head?_dropWhile_not (fun e : Aclent => !e.default) entries
      rw [← defaultPart, part] at stops
      simpa using stops
    have part_sorted : Sorted (first :: rest) := by
      rw [← part]
      exact sorted.sublist (dropWhile_sublist _)
    have part_known : ∀ e ∈ first :: rest, e.known = true := by
      rw [← part]
      exact fun e mem => known e ((dropWhile_sublist _).subset mem)
    rw [part] at mem
    rcases mem_cons.1 mem with rfl | mem
    · exact first_default
    · exact default_of_le first_default (part_known first mem_cons_self)
        (part_known e (mem_cons_of_mem first mem))
        (cmp2acls_type ((pairwise_cons.1 part_sorted).1 e mem))

theorem countOf_eq_zero {d : Bool} {kind : Kind} (other : ∀ e ∈ entries, e.default = !d) :
    countOf entries (d, kind) = 0 := by
  rw [countOf, countP_eq_zero]
  intro e mem fits
  have is := default_of_fits fits
  rw [other e mem] at is
  cases d <;> exact nomatch is

theorem countOf_access (sorted : Sorted entries) (known : ∀ e ∈ entries, e.known = true)
    (kind : Kind) :
    countOf (accessPart entries) (false, kind) = countOf entries (false, kind) := by
  have rest : countOf (defaultPart entries) (false, kind) = 0 := countOf_eq_zero fun e mem =>
    mem_defaultPart sorted known mem
  rw [countOf] at rest
  nth_rewrite 2 [← @parts_append entries]
  rw [countOf, countOf, countP_append, rest, Nat.add_zero]

theorem countOf_default (kind : Kind) :
    countOf (defaultPart entries) (true, kind) = countOf entries (true, kind) := by
  have rest : countOf (accessPart entries) (true, kind) = 0 := countOf_eq_zero fun e mem =>
    mem_accessPart mem
  rw [countOf] at rest
  nth_rewrite 2 [← @parts_append entries]
  rw [countOf, countOf, countP_append, rest, Nat.zero_add]

theorem distinct_parts (sorted : Sorted entries) (known : ∀ e ∈ entries, e.known = true) :
    entries.Pairwise Distinct ↔ (accessPart entries).Pairwise Distinct ∧
      (defaultPart entries).Pairwise Distinct := by
  nth_rewrite 1 [← @parts_append entries]
  rw [pairwise_append, ← and_assoc, and_iff_left]
  rintro x x_mem y y_mem ⟨same, -⟩
  have x_access := mem_accessPart x_mem
  have y_default := mem_defaultPart sorted known y_mem
  rw [Aclent.default] at x_access y_default
  rw [same, y_default] at x_access
  cases x_access

/-! ### Room for the ids -/

/-- Behind entries with ids there is one of another kind. -/
theorem roomy_of_complete (sorted : Sorted entries) (complete : Complete entries false)
    (defaults : (∃ kind, 0 < countOf entries (true, kind)) → Complete entries true) :
    Roomy entries := by
  rintro ⟨d, kind⟩ many some_there
  obtain ⟨last, last_mem, last_fits⟩ : ∃ last ∈ entries, last.fits (d, .otherObj) = true := by
    have there : 0 < countOf entries (d, .otherObj) := by
      cases d with
      | false => rw [complete.2.2]; exact Nat.one_pos
      | true => rw [(defaults ⟨kind, Nat.pos_of_ne_zero some_there⟩).2.2]; exact Nat.one_pos
    exact countP_pos_iff.1 there
  have not_many : last.fits (d, kind) = false := by
    refine fits_of_ne last_fits fun same => ?_
    rw [same] at many
    exact nomatch many
  have split := @takeWhile_append_dropWhile _ (fun e : Aclent => !e.fits (d, kind)) entries
  have front_none : (entries.takeWhile fun e => !e.fits (d, kind)).countP
      (fun e => e.fits (d, kind)) = 0 := by
    rw [countP_eq_zero]
    intro e mem
    simpa using mem_takeWhile_imp mem
  have same_count :
      countOf entries (d, kind) = countOf (entries.dropWhile fun e => !e.fits (d, kind))
          (d, kind) := by
    rw [countOf, countOf]
    nth_rewrite 1 [← split]
    rw [countP_append, front_none, Nat.zero_add]
  have behind : last ∈ entries.dropWhile fun e => !e.fits (d, kind) := by
    rw [← split] at last_mem
    rcases mem_append.1 last_mem with before | behind
    · exfalso
      rw [same_count] at some_there
      obtain ⟨e, e_mem, e_fits⟩ := countP_pos_iff.1 (Nat.pos_of_ne_zero some_there)
      rw [Sorted, ← split, pairwise_append] at sorted
      have le := cmp2acls_type (sorted.2.2 last before e e_mem)
      rw [fits_iff] at last_fits e_fits
      rw [last_fits, e_fits] at le
      revert le
      cases d <;> cases kind <;> revert many <;> decide
    · exact behind
  rw [same_count, countOf, reach]
  refine lt_of_le_of_ne countP_le_length fun all_fit => ?_
  rw [countP_eq_length] at all_fit
  rw [all_fit last behind] at not_many
  exact nomatch not_many

/-! ### Agreement -/

/-- What the library asks of a list that the kernel accepts: entries for the file, masks for users
as for groups, and the three default entries whenever there are defaults. -/
structure Stricter (entries : List Aclent) : Prop where
  access : (splitSorted entries).aclentp ≠ none
  mask : countOf entries (false, .user) ≠ 0 → countOf entries (false, .classObj) ≠ 0
  defaultMask : countOf entries (true, .user) ≠ 0 → countOf entries (true, .classObj) ≠ 0
  three : (splitSorted entries).dfaclentp ≠ none → countOf entries (true, .userObj) ≠ 0

theorem known_of_kernel (accepts : KernelAccepts entries) : ∀ e ∈ entries, e.known = true := by
  rw [KernelAccepts, splitSorted_eq] at accepts
  obtain ⟨access, defaults⟩ := accepts
  rw [← @parts_append entries, forall_mem_append]
  constructor
  · intro e mem
    rw [if_neg (ne_nil_of_mem mem)] at access
    exact known_of_valid access e mem
  · intro e mem
    rw [if_neg (ne_nil_of_mem mem)] at defaults
    exact known_of_valid defaults e mem

theorem parts_nil_iff : defaultPart entries = [] ↔ (splitSorted entries).dfaclentp = none := by
  rw [splitSorted_eq]
  simp

theorem access_nil_iff : accessPart entries = [] ↔ (splitSorted entries).aclentp = none := by
  rw [splitSorted_eq]
  simp

theorem count_of_mem {d : Bool} (mem : e ∈ entries) (known : e.known = true)
    (default_eq : e.default = d) :
    ∃ kind, 0 < countOf entries (d, kind) := by
  obtain ⟨⟨d', kind⟩, fits⟩ := known_iff.1 known
  have same := default_of_fits fits
  rw [default_eq] at same
  dsimp only at same
  subst same
  exact ⟨kind, countP_pos_iff.2 ⟨e, mem, fits⟩⟩

theorem defaults_iff (sorted : Sorted entries) (known : ∀ e ∈ entries, e.known = true) :
    (∃ kind, 0 < countOf entries (true, kind)) ↔ defaultPart entries ≠ [] := by
  constructor
  · rintro ⟨kind, positive⟩ nil
    rw [← countOf_default, nil] at positive
    exact absurd positive (Nat.lt_irrefl 0)
  · intro some_there
    obtain ⟨e, mem⟩ := exists_mem_of_ne_nil _ some_there
    have whole : e ∈ entries := (dropWhile_sublist _).subset mem
    exact count_of_mem whole (known e whole) (mem_defaultPart sorted known mem)

/-- What the kernel asks of sorted entries of known types, in terms of counts. -/
structure KernelCounts (entries : List Aclent) : Prop where
  distinct : entries.Pairwise Distinct
  access : accessPart entries ≠ [] → Complete entries false ∧
    countOf entries (false, .classObj) ≤ 1 ∧
    (countOf entries (false, .group) ≠ 0 → countOf entries (false, .classObj) ≠ 0)
  default : defaultPart entries ≠ [] →
    (countOf entries (true, .userObj) ≤ 1 ∧ countOf entries (true, .groupObj) ≤ 1 ∧
      countOf entries (true, .otherObj) ≤ 1 ∧
      countOf entries (true, .classObj) ≤ 1) ∧
    (countOf entries (true, .userObj) + countOf entries (true, .groupObj) + countOf entries
      (true, .otherObj) = 0 ∨
      Complete entries true) ∧
    (countOf entries (true, .group) ≠ 0 → countOf entries (true, .classObj) ≠ 0) ∧
    (countOf entries (true, .user) ≠ 0 → ¬ Complete entries true →
      countOf entries (true, .classObj) ≠ 0)

theorem complete_access (sorted : Sorted entries) (known : ∀ e ∈ entries, e.known = true) :
    Complete (accessPart entries) false ↔ Complete entries false := by
  simp only [Complete, countOf_access sorted known]

theorem defaultCounts_default : DefaultCounts (defaultPart entries) ↔ DefaultCounts entries := by
  simp only [DefaultCounts, Complete, countOf_default]

theorem asked_iff {present distinct known counts : Prop} (is_present : present)
    (are_known : known) :
    present ∧ distinct ∧ known ∧ counts ↔ distinct ∧ (present → counts) := by
  rw [and_iff_right is_present, and_iff_right are_known, imp_iff_right is_present]

theorem kernel_iff (sorted : Sorted entries) (few : entries.length ≤ maxAclEntries)
    (perms : ∀ e ∈ entries, e.perm.toNat ≤ 0o7) (known : ∀ e ∈ entries, e.known = true) :
    KernelAccepts entries ↔ KernelCounts entries := by
  have front : (accessPart entries).Sublist entries := takeWhile_sublist _
  have back : (defaultPart entries).Sublist entries := dropWhile_sublist _
  have access : aclValidate (splitSorted entries).aclentp .aclCheck = none ↔
      (accessPart entries).Pairwise Distinct ∧ (accessPart entries ≠ [] → Complete entries false ∧
        countOf entries (false, .classObj) ≤ 1 ∧
        (countOf entries (false, .group) ≠ 0 → countOf entries (false, .classObj) ≠ 0)) := by
    rw [splitSorted_eq]
    dsimp only
    by_cases nil : accessPart entries = []
    · rw [if_pos nil, nil]
      exact iff_of_true rfl ⟨List.Pairwise.nil, fun some_there => absurd rfl some_there⟩
    · rw [if_neg nil, validate_access_iff (front.length_le.trans few),
        neighboursOk_iff (sorted.sublist front) (fun e mem => perms e (front.subset mem)),
        complete_access sorted known, countOf_access sorted known, countOf_access sorted known]
      exact asked_iff nil fun e mem => known e (front.subset mem)
  have default : aclValidate (splitSorted entries).dfaclentp .defAclCheck = none ↔
      (defaultPart entries).Pairwise Distinct ∧
        (defaultPart entries ≠ [] → DefaultCounts entries) := by
    rw [splitSorted_eq]
    dsimp only
    by_cases nil : defaultPart entries = []
    · rw [if_pos nil, nil]
      exact iff_of_true rfl ⟨List.Pairwise.nil, fun some_there => absurd rfl some_there⟩
    · rw [if_neg nil, validate_default_iff (back.length_le.trans few),
        neighboursOk_iff (sorted.sublist back) (fun e mem => perms e (back.subset mem)),
        defaultCounts_default]
      exact asked_iff nil fun e mem => known e (back.subset mem)
  rw [KernelAccepts, access, default]
  constructor
  · rintro ⟨⟨front_distinct, front_counts⟩, back_distinct, back_counts⟩
    exact ⟨(distinct_parts sorted known).2 ⟨front_distinct, back_distinct⟩, front_counts,
      back_counts⟩
  · intro counts
    obtain ⟨front_distinct, back_distinct⟩ := (distinct_parts sorted known).1 counts.distinct
    exact ⟨⟨front_distinct, counts.access⟩, back_distinct, counts.default⟩

/-- With permissions in range, the library accepts what the kernel accepts and that is complete in
the stricter sense. -/
theorem aclcheck_valid_iff (sorted : Sorted entries) (few : entries.length ≤ maxAclEntries)
    (perms : ∀ e ∈ entries, e.perm.toNat ≤ 0o7) :
    aclcheck true entries = .ok .valid ↔ KernelAccepts entries ∧ Stricter entries := by
  constructor
  · intro accepted
    obtain ⟨tallied, masked, default_masked, complete, defaults⟩ := aclcheck_valid accepted
    obtain ⟨known, once, distinct⟩ := tallied_iff.1 tallied
    have some_access : accessPart entries ≠ [] := by
      intro nil
      have none_there := complete.1
      rw [← countOf_access sorted known, nil] at none_there
      exact nomatch none_there
    have class_once := fun d => once (d, .classObj) (by simp [Kind.uniqueError])
    have mask := fun d (masked : Masked entries d) (there : countOf entries (d, .user) ≠ 0 ∨
        countOf entries (d, .group) ≠ 0) =>
      masked (there.imp Nat.pos_of_ne_zero Nat.pos_of_ne_zero)
    refine ⟨(kernel_iff sorted few perms known).2
      ⟨distinct, fun _ => ⟨complete, class_once false, fun groups => ?_⟩, fun some_there => ?_⟩, ?_⟩
    · rw [mask false masked (.inr groups)]
      exact Nat.one_ne_zero
    · have three := defaults ((defaults_iff sorted known).2 some_there)
      refine ⟨⟨three.1.le, three.2.1.le, three.2.2.le, class_once true⟩, .inr three,
        fun groups => ?_, fun _ not_three => absurd three not_three⟩
      rw [mask true default_masked (.inr groups)]
      exact Nat.one_ne_zero
    · refine ⟨fun nil => some_access (access_nil_iff.2 nil), fun users => ?_, fun users => ?_,
        fun some_there => ?_⟩
      · rw [mask false masked (.inl users)]
        exact Nat.one_ne_zero
      · rw [mask true default_masked (.inl users)]
        exact Nat.one_ne_zero
      · have three := defaults
          ((defaults_iff sorted known).2 fun nil => some_there (parts_nil_iff.1 nil))
        rw [three.1]
        exact Nat.one_ne_zero
  · rintro ⟨accepts, stricter⟩
    have known := known_of_kernel accepts
    obtain ⟨distinct, access, default⟩ := (kernel_iff sorted few perms known).1 accepts
    obtain ⟨complete, class_once, group_mask⟩ :=
      access fun nil => stricter.access (access_nil_iff.1 nil)
    have no_default : defaultPart entries = [] → ∀ kind, countOf entries (true, kind) = 0 := by
      intro nil kind
      rw [← countOf_default, nil]
      rfl
    have defaults : (∃ kind, 0 < countOf entries (true, kind)) → Complete entries true := by
      intro counted
      have some_there := (defaults_iff sorted known).1 counted
      have user := stricter.three fun nil => some_there (parts_nil_iff.2 nil)
      rcases (default some_there).2.1 with zero | three
      · omega
      · exact three
    have once : ∀ s : Slot, s.2.uniqueError ≠ none → countOf entries s ≤ 1 := by
      rintro ⟨d, kind⟩ unique
      cases d with
      | false =>
        obtain ⟨user, group, other⟩ := complete
        cases kind with
        | userObj => exact user.le
        | groupObj => exact group.le
        | otherObj => exact other.le
        | classObj => exact class_once
        | user => exact absurd rfl unique
        | group => exact absurd rfl unique
      | true =>
        by_cases nil : defaultPart entries = []
        · rw [no_default nil]
          exact Nat.zero_le 1
        · obtain ⟨user, group, other, cls⟩ := (default nil).1
          cases kind with
          | userObj => exact user
          | groupObj => exact group
          | otherObj => exact other
          | classObj => exact cls
          | user => exact absurd rfl unique
          | group => exact absurd rfl unique
    refine aclcheck_of_valid (tallied_iff.2 ⟨known, once, distinct⟩)
      (roomy_of_complete sorted complete defaults) ?_ ?_ complete defaults
    · rintro (users | groups)
      · have := stricter.mask users.ne'
        omega
      · have := group_mask groups.ne'
        omega
    · intro there
      have some_there :=
        (defaults_iff sorted known).1
          (there.elim (fun users => ⟨_, users⟩) fun groups => ⟨_, groups⟩)
      have cls := (default some_there).1.2.2.2
      rcases there with users | groups
      · have := stricter.defaultMask users.ne'
        omega
      · have := (default some_there).2.2.1 groups.ne'
        omega

def withMask : List Aclent :=
  [⟨Kind.userObj.bit, 0, 7⟩, ⟨Kind.user.bit, 5, 6⟩, ⟨Kind.groupObj.bit, 0, 5⟩,
    ⟨Kind.classObj.bit, 0, 7⟩, ⟨Kind.otherObj.bit, 0, 4⟩]

def withoutMask : List Aclent :=
  [⟨Kind.userObj.bit, 0, 7⟩, ⟨Kind.user.bit, 5, 7⟩, ⟨Kind.groupObj.bit, 0, 7⟩,
    ⟨Kind.otherObj.bit, 0, 7⟩]

theorem aclcheck_valid_iff_withMask :
    aclcheck true withMask = .ok .valid ∧ KernelAccepts withMask ∧ Stricter withMask := by
  have accepted : aclcheck true withMask = .ok .valid := by decide
  exact ⟨accepted,
    (aclcheck_valid_iff (by unfold Sorted; decide) (by decide) (by decide)).1 accepted⟩

/-- A user without a mask: the kernel takes the list, the library does not. -/
theorem kernel_takes_user_without_mask :
    ¬ ∀ entries : List Aclent, Sorted entries → entries.length ≤ maxAclEntries →
      ((splitSorted entries).aclentp ≠ none ∧ KernelAccepts entries ↔
        aclcheck true entries = .ok .valid ∧ ∀ e ∈ entries, e.perm.toNat ≤ 0o7) := by
  intro agree
  have kernel : (splitSorted withoutMask).aclentp ≠ none ∧ KernelAccepts withoutMask := by
    unfold KernelAccepts
    decide
  have library := ((agree withoutMask (by unfold Sorted; decide) (by decide)).1 kernel).1
  obtain ⟨-, masked, -⟩ := aclcheck_valid library
  exact absurd (masked (.inl (by decide))) (by decide)

end Sol25.Acl
