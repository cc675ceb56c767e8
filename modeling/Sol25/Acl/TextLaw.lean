import Mathlib.Data.List.Forall2
import Sol25.Acl.Text

/-!
# Text and back

`acltotext` and `aclfromtext` undo each other for entries whose ids have names.  An id that has
none is written as a number, which is then looked up as a name.
-/

namespace Sol25.Acl

open List Option

variable {pw gr db : Database} {e e' : Aclent} {s : Slot} {size : ℕ} {out : Export}
  {a b : List Char} {perm : Mode} {entries front back : List Aclent} {name field : List Char}

/-- Two entries that agree, but for the id where an object needs none. -/
structure Same (e e' : Aclent) : Prop where
  type : e.type = e'.type
  perm : e.perm = e'.perm
  id : ∀ s : Slot, e.fits s = true → s.2.uniqueError = none → e.id = e'.id

/-- The text of a list is read back as the list. -/
def RoundTrip (pw gr : Database) (entries : List Aclent) : Prop :=
  ∃ text entries', acltotext pw gr true (some entries) = .ok (some text) ∧
    aclfromtext pw gr (fun _ => true) (some text) = .ok (some entries') ∧
    List.Forall₂ Same entries entries'

/-- The id of an entry has a name, if it needs one. -/
def Named (pw gr : Database) (e : Aclent) : Prop :=
  ∀ s db, e.fits s = true → s.database pw gr = some db →
    ∃ name, name ≠ [] ∧ db.nameOf e.id = some name

def entryText (pw gr : Database) (e : Aclent) : List Char :=
  match e.slot with
  | none => []
  | some s =>
    match s.database pw gr with
    | none => s.label ++ permText e.perm
    | some db => s.label ++ ((db.nameOf e.id).getD [] ++ ':' :: permText e.perm)

/-- Entries as text. -/
def exported (pw gr : Database) (entries : List Aclent) : List Char :=
  ((entries.map (entryText pw gr)).map (· ++ [','])).flatten

/-! ### Writing -/

theorem strappend_strappend :
    (strappend size out a >>= fun out => strappend size out b) = strappend size out (a ++ b) := by
  rw [strappend]
  by_cases room : out.text.length + a.length < size
  · rw [if_pos room]
    simp only [bind, Except.bind, strappend, length_append, append_assoc, Nat.add_assoc]
  · rw [if_neg room, strappend, if_neg (by rw [length_append]; omega)]
    rfl

theorem convertPerm_eq :
    convertPerm size out perm = strappend size out (permText perm ++ [',']) := by
  rw [convertPerm]
  simp only [strappend_strappend]
  rfl

theorem appendEntry_named (named : Named pw gr e) (fits : e.fits s = true) :
    appendEntry pw gr size out e s = strappend size out (entryText pw gr e ++ [',']) := by
  rw [appendEntry, entryText, slot_eq_some.2 fits]
  dsimp only
  cases needs : s.database pw gr with
  | none =>
    dsimp only
    simp only [convertPerm_eq, strappend_strappend, append_assoc]
  | some db =>
    obtain ⟨name, -, found⟩ := named s db fits needs
    dsimp only
    simp only [appendName, found, convertPerm_eq, strappend_strappend, append_assoc,
      getD_some, cons_append, nil_append]

/-- Entries that have their names are written as they should be, as far as there is room. -/
theorem totextLoop_named (known : ∀ e ∈ entries, e.known = true)
    (named : ∀ e ∈ entries, Named pw gr e) (room : out.text.length < size) :
    totextLoop pw gr size out (entries ++ back) =
      strappend size out (exported pw gr entries) >>= fun out =>
        totextLoop pw gr size out back := by
  induction entries generalizing out with
  | nil =>
    have empty : strappend size out [] = .ok out := by
      rw [strappend, length_nil, Nat.add_zero, if_pos room, append_nil]
      rfl
    rw [exported, map_nil, map_nil, flatten_nil, empty]
    rfl
  | cons e entries ih =>
    obtain ⟨here, known⟩ := forall_mem_cons.1 known
    obtain ⟨e_named, named⟩ := forall_mem_cons.1 named
    obtain ⟨s, fits⟩ := known_iff.1 here
    have split : exported pw gr (e :: entries) =
        (entryText pw gr e ++ [',']) ++ exported pw gr entries := rfl
    rw [cons_append, totextLoop, slot_eq_some.2 fits]
    dsimp only
    rw [appendEntry_named e_named fits, split]
    generalize entryText pw gr e ++ [','] = text
    rw [← strappend_strappend, LawfulMonad.bind_assoc]
    by_cases enough : out.text.length + text.length < size
    · rw [strappend, if_pos enough]
      refine ih known named ?_
      rw [length_append]
      exact enough
    · rw [strappend, if_neg enough]
      rfl

/-! ### Reading -/

theorem word_plain (s : Slot) : ':' ∉ s.word ∧ ',' ∉ s.word := by
  obtain ⟨d, kind⟩ := s
  cases d <;> cases kind <;> decide

theorem many_of_database (needs : s.database pw gr = some db) : s.2.uniqueError = none := by
  obtain ⟨d, kind⟩ := s
  cases kind with
  | user | group => rfl
  | userObj | groupObj | classObj | otherObj => exact nomatch needs

theorem unique_of_database (needs : s.database pw gr = none) : s.2.uniqueError ≠ none := by
  obtain ⟨d, kind⟩ := s
  cases kind with
  | user | group => exact nomatch needs
  | userObj | groupObj | classObj | otherObj => exact nofun

theorem label_of_database (needs : s.database pw gr = some db) : s.label = s.word ++ [':'] := by
  obtain ⟨d, kind⟩ := s
  cases kind with
  | user | group => rfl
  | userObj | groupObj | classObj | otherObj => exact nomatch needs

theorem label_of_none (needs : s.database pw gr = none) : s.label = s.word ++ [':', ':'] := by
  obtain ⟨d, kind⟩ := s
  cases kind with
  | user | group => exact nomatch needs
  | userObj | groupObj | classObj | otherObj => rfl

theorem readType_object (needs : s.database pw gr = none) :
    readType s.word (some ':') = some s := by
  obtain ⟨d, kind⟩ := s
  cases kind with
  | user | group => exact nomatch needs
  | userObj | groupObj | classObj | otherObj => cases d <;> rfl

theorem readType_name {next : Option Char} (needs : s.database pw gr = some db)
    (ne : next ≠ some ':') : readType s.word next = some s := by
  obtain ⟨d, kind⟩ := s
  cases kind with
  | user | group => cases d <;> simp [readType, Slot.word, Kind.word, ne]
  | userObj | groupObj | classObj | otherObj => exact nomatch needs

theorem mem_permText {c : Char} (mem : c ∈ permText perm) : c ≠ ':' ∧ c ≠ ',' := by
  rw [permText] at mem
  split_ifs at mem <;> simp only [mem_cons, not_mem_nil, or_false] at mem <;>
    rcases mem with rfl | rfl | rfl <;> decide

theorem readPerm_permText (le : perm.toNat ≤ 0o7) : readPerm (permText perm) = some perm := by
  have eq : perm = BitVec.ofNat 16 perm.toNat := by simp
  generalize perm.toNat = n at eq le
  subst eq
  interval_cases n <;> rfl

theorem readEntry_parts {behind : List Char} (plain : ':' ∉ name) :
    readEntry pw gr (s.word ++ ':' :: (name ++ ':' :: behind)) =
      match readType s.word (name ++ ':' :: behind).head? with
      | none => .ok none
      | some s =>
        match readId pw gr s name with
        | .error fault => .error fault
        | .ok none => .ok none
        | .ok (some id) => .ok ((readPerm behind).map fun perm => ⟨s.type, id, perm⟩) := by
  rw [readEntry, cut_append (word_plain s).1]
  dsimp only
  rewrite [cut_append plain]
  rfl

/-- The text of an entry has no comma, and is read back as the entry. -/
theorem readEntry_entryText (known : e.known = true) (named : Named pw gr e)
    (le : e.perm.toNat ≤ 0o7) :
    ',' ∉ entryText pw gr e ∧
      ∃ e', readEntry pw gr (entryText pw gr e) = .ok (some e') ∧ Same e e' := by
  obtain ⟨s, fits⟩ := known_iff.1 known
  have no_comma : ',' ∉ permText e.perm := fun mem => (mem_permText mem).2 rfl
  rw [entryText, slot_eq_some.2 fits]
  dsimp only
  cases needs : s.database pw gr with
  | none =>
    have parts : s.label ++ permText e.perm = s.word ++ ':' :: ([] ++ ':' :: permText e.perm) := by
      rw [label_of_none needs, append_assoc]
      rfl
    dsimp only
    rw [parts, readEntry_parts not_mem_nil]
    refine ⟨?_, ⟨s.type, -1, e.perm⟩, ?_, fits_iff.1 fits, rfl, fun s' fits' many => ?_⟩
    · simp [(word_plain s).2, no_comma]
    · rw [nil_append, head?_cons, readType_object needs]
      dsimp only
      rw [readId, if_pos rfl, readPerm_permText le]
      rfl
    · have same := slot_eq_some.2 fits
      rw [slot_eq_some.2 fits'] at same
      cases same
      exact absurd many (unique_of_database needs)
  | some db =>
    obtain ⟨name, ne_nil, found⟩ := named s db fits needs
    obtain ⟨no_colon, name_plain⟩ := db.plain e.id name found
    dsimp only
    have parts : s.label ++ ((db.nameOf e.id).getD [] ++ ':' :: permText e.perm) =
        s.word ++ ':' :: (name ++ ':' :: permText e.perm) := by
      rw [label_of_database needs, found, append_assoc]
      rfl
    rw [parts, readEntry_parts no_colon]
    refine ⟨?_, ⟨s.type, e.id, e.perm⟩, ?_, fits_iff.1 fits, rfl, fun _ _ _ => rfl⟩
    · simp [(word_plain s).2, no_comma, name_plain]
    · obtain ⟨c, rest, rfl⟩ := exists_cons_of_ne_nil ne_nil
      have ne : c ≠ ':' := fun eq => no_colon (eq ▸ mem_cons_self)
      rw [cons_append, head?_cons, readType_name needs (by simpa using ne)]
      dsimp only
      rw [readId, if_neg ne_nil, needs]
      dsimp only
      rw [(db.one_to_one e.id _).1 found, readPerm_permText le]
      rfl

section

variable (known : ∀ e ∈ entries, e.known = true) (named : ∀ e ∈ entries, Named pw gr e)
  (le : ∀ e ∈ entries, e.perm.toNat ≤ 0o7)

include known named le

/-- Entries with their names are read back, in front of what else there is. -/
theorem fromtextLoop_named :
    ∃ read, List.Forall₂ Same entries read ∧ ∀ aclp fields,
      fromtextLoop pw gr (fun _ => true) aclp (entries.map (entryText pw gr) ++ fields) =
        fromtextLoop pw gr (fun _ => true) (aclp ++ read) fields := by
  induction entries with
  | nil => exact ⟨[], .nil, fun aclp fields => by rw [append_nil]; rfl⟩
  | cons e entries ih =>
    obtain ⟨here, known⟩ := forall_mem_cons.1 known
    obtain ⟨e_named, named⟩ := forall_mem_cons.1 named
    obtain ⟨e_le, le⟩ := forall_mem_cons.1 le
    obtain ⟨-, e', eq, same⟩ := readEntry_entryText here e_named e_le
    obtain ⟨read, all_same, later⟩ := ih known named le
    refine ⟨e' :: read, .cons same all_same, fun aclp fields => ?_⟩
    rw [map_cons, cons_append, fromtextLoop, if_neg (by simp), eq]
    dsimp only
    rw [later, append_assoc, singleton_append]

theorem pieces_exported (rest : List Char) :
    pieces ',' (exported pw gr entries ++ rest) =
      entries.map (entryText pw gr) ++ pieces ',' rest := by
  refine pieces_flatten fun f mem => ?_
  obtain ⟨e, e_mem, rfl⟩ := List.mem_map.1 mem
  exact (readEntry_entryText (known e e_mem) (named e e_mem) (le e e_mem)).1

/-- Where each id has its name, and the buffer is large enough, the text is read back. -/
theorem roundTrip_named (some_there : entries ≠ [])
    (fits : (exported pw gr entries).length < exportSize entries.length) :
    RoundTrip pw gr entries := by
  obtain ⟨read, all_same, eq⟩ := fromtextLoop_named known named le
  refine ⟨exported pw gr entries, read, ?_, ?_, all_same⟩
  · have loop := @totextLoop_named pw gr (exportSize entries.length) ⟨[], 0⟩ entries [] known named
      (by rw [length_nil]; omega)
    rw [append_nil, strappend, if_pos (by rw [length_nil, Nat.zero_add]; exact fits)]
      at loop
    rw [acltotext]
    rw [if_neg (by simp), if_neg (by omega), loop]
    rfl
  · have parts := pieces_exported known named le []
    rw [append_nil] at parts
    have read_some : read ≠ [] := by
      rintro rfl
      exact some_there (forall₂_nil_right_iff.1 all_same)
    rw [aclfromtext]
    rw [parts, eq]
    exact congrArg Except.ok (if_neg read_some)

end

/-! ### An id without a name -/

/-- A text in front that stays, with `where` behind it. -/
def Keeps (kept : List Char) (out : Export) : Prop := kept <+: out.text ∧ kept.length ≤ out.pos

variable {out' : Export} {kept : List Char} {id : ℤ}

theorem strappend_ok (eq : strappend size out a = .ok out') :
    out' = ⟨out.text ++ a, out.pos + a.length⟩ := by
  rw [strappend] at eq
  by_cases room : out.text.length + a.length < size
  · rw [if_pos room] at eq
    exact (Except.ok.inj eq).symm
  · rw [if_neg room] at eq
    exact nomatch eq

theorem Keeps.strappend (keeps : Keeps kept out) (eq : strappend size out a = .ok out') :
    Keeps kept out' := by
  rw [strappend_ok eq]
  exact ⟨keeps.1.trans (prefix_append _ _), keeps.2.trans (Nat.le_add_right _ _)⟩

theorem sprintfId_ok (eq : sprintfId size out id = .ok out') :
    out' = ⟨out.text.take out.pos ++ decimal id, out.pos⟩ := by
  rw [sprintfId] at eq
  by_cases room : out.pos + (decimal id).length < size
  · rw [if_pos room] at eq
    exact (Except.ok.inj eq).symm
  · rw [if_neg room] at eq
    exact nomatch eq

theorem Keeps.sprintfId (keeps : Keeps kept out) (eq : sprintfId size out id = .ok out') :
    Keeps kept out' := by
  rw [sprintfId_ok eq]
  refine ⟨IsPrefix.trans ?_ (prefix_append _ _), keeps.2⟩
  exact prefix_take_iff.2 keeps

theorem Keeps.appendName (keeps : Keeps kept out) (eq : appendName db size out id = .ok out') :
    Keeps kept out' := by
  rw [Acl.appendName] at eq
  cases found : db.nameOf id with
  | none =>
    rw [found] at eq
    exact keeps.sprintfId eq
  | some name =>
    rw [found] at eq
    exact keeps.strappend eq

theorem bind_ok {α β : Type} {x : Except Fault α} {f : α → Except Fault β} {y : β}
    (eq : x >>= f = .ok y) : ∃ z, x = .ok z ∧ f z = .ok y := by
  cases x with
  | error fault => exact nomatch eq
  | ok z => exact ⟨z, rfl, eq⟩

theorem Keeps.appendEntry (keeps : Keeps kept out)
    (eq : appendEntry pw gr size out e s = .ok out') : Keeps kept out' := by
  rw [Acl.appendEntry] at eq
  obtain ⟨labelled, append, eq⟩ := bind_ok eq
  have keeps := keeps.strappend append
  cases needs : s.database pw gr with
  | none =>
    rw [needs] at eq
    dsimp only at eq
    rw [convertPerm_eq] at eq
    exact keeps.strappend eq
  | some db =>
    rw [needs] at eq
    obtain ⟨named, write, eq⟩ := bind_ok eq
    obtain ⟨ended, colon, eq⟩ := bind_ok eq
    rw [convertPerm_eq] at eq
    exact ((keeps.appendName write).strappend colon).strappend eq

theorem Keeps.totextLoop (keeps : Keeps kept out)
    (eq : totextLoop pw gr size out entries = .ok (some out')) : Keeps kept out' := by
  induction entries generalizing out with
  | nil =>
    obtain rfl := some.inj (Except.ok.inj eq)
    exact keeps
  | cons e entries ih =>
    rw [Acl.totextLoop] at eq
    cases found : e.slot with
    | none =>
      rw [found] at eq
      exact nomatch eq
    | some s =>
      rw [found] at eq
      obtain ⟨next, append, eq⟩ := bind_ok eq
      exact ih (keeps.appendEntry append) eq

theorem decimal_head (id : ℤ) : ∃ c rest, decimal id = c :: rest ∧ c ≠ ':' ∧ c ≠ ',' := by
  rw [decimal]
  split_ifs
  · exact ⟨'-', _, rfl, by decide, by decide⟩
  · obtain ⟨c, rest, eq⟩ := exists_cons_of_ne_nil (@Nat.toDigits_ne_nil id.natAbs 10)
    have digit : c.isDigit := Nat.isDigit_of_mem_toDigits (by decide) le_rfl
      (eq ▸ mem_cons_self : c ∈ Nat.toDigits 10 id.natAbs)
    refine ⟨c, rest, eq, ?_, ?_⟩ <;> rintro rfl <;> exact absurd digit (by decide)

/-- What stands behind the label of an entry without a name, or with an empty one. -/
theorem appendEntry_unnamed (needs : s.database pw gr = some db)
    (unnamed : ∀ name, db.nameOf e.id = some name → name = []) (at_end : out.pos = out.text.length)
    (eq : appendEntry pw gr size out e s = .ok out') :
    ∃ c, c ≠ ',' ∧ Keeps (out.text ++ s.label ++ [c]) out' ∧
      (c ≠ ':' → db.nameOf e.id = none) := by
  rw [appendEntry] at eq
  obtain ⟨labelled, append, eq⟩ := bind_ok eq
  rw [needs] at eq
  obtain ⟨named, write, eq⟩ := bind_ok eq
  obtain ⟨ended, colon, eq⟩ := bind_ok eq
  rw [convertPerm_eq] at eq
  obtain rfl := strappend_ok append
  rw [appendName] at write
  cases found : db.nameOf e.id with
  | none =>
    obtain ⟨c, rest, digits, no_colon, no_comma⟩ := decimal_head e.id
    rw [found] at write
    obtain rfl := sprintfId_ok write
    obtain rfl := strappend_ok colon
    refine ⟨c, no_comma, Keeps.strappend ⟨?_, ?_⟩ eq, fun _ => rfl⟩
    · rw [digits, at_end, ← length_append, take_length]
      simp
    · simp [at_end]
      omega
  | some name =>
    obtain rfl := unnamed name found
    rw [found] at write
    obtain rfl := strappend_ok write
    obtain rfl := strappend_ok colon
    refine ⟨':', by decide, Keeps.strappend ⟨?_, ?_⟩ eq, fun ne => absurd rfl ne⟩
    · simp
    · simp [at_end]
      omega

theorem readType_colon {s' : Slot} (needs : s.database pw gr = some db)
    (eq : readType s.word (some ':') = some s') : s' ≠ s := by
  obtain ⟨d, kind⟩ := s
  cases kind with
  | user | group =>
    rintro rfl
    cases d <;> exact absurd eq (by decide)
  | userObj | groupObj | classObj | otherObj => exact nomatch needs

/-- The text is not read as the entry. -/
theorem readEntry_unnamed {c : Char} {behind : List Char} (fits : e.fits s = true)
    (needs : s.database pw gr = some db) (unnamed : c ≠ ':' → db.nameOf e.id = none)
    (eq : readEntry pw gr (s.label ++ c :: behind) = .ok (some e')) : ¬ Same e e' := by
  intro same
  have parts : s.label ++ c :: behind = s.word ++ ':' :: c :: behind := by
    rw [label_of_database needs, append_assoc]
    rfl
  rw [parts, readEntry, cut_append (word_plain s).1] at eq
  dsimp only at eq
  rw [head?_cons] at eq
  cases type : readType s.word (some c) with
  | none =>
    rw [type] at eq
    exact nomatch eq
  | some s' =>
    rw [type] at eq
    dsimp only at eq
    cases rest : cut ':' (c :: behind) with
    | none =>
      rw [rest] at eq
      exact nomatch eq
    | some pair =>
      obtain ⟨name, perm⟩ := pair
      rw [rest] at eq
      dsimp only at eq
      cases read : readId pw gr s' name with
      | error fault =>
        rw [read] at eq
        exact nomatch eq
      | ok found =>
        rw [read] at eq
        cases found with
        | none => exact nomatch eq
        | some id =>
          dsimp only at eq
          obtain ⟨perm, -, rfl⟩ := map_eq_some_iff.1 (Except.ok.inj eq)
          have same_type : s' = s := type_inj (same.type.symm.trans (fits_iff.1 fits))
          by_cases colon : c = ':'
          · rw [colon] at type
            exact readType_colon needs type same_type
          · subst same_type
            obtain ⟨whole, -⟩ := cut_eq_some.1 rest
            have ne_nil : name ≠ [] := by
              rintro rfl
              exact colon (cons.inj whole).1
            rw [readId, if_neg ne_nil, needs] at read
            dsimp only at read
            cases found : db.idOf name with
            | none =>
              rw [found] at read
              exact nomatch read
            | some id' =>
              rw [found] at read
              obtain rfl := some.inj (Except.ok.inj read)
              have ids : e.id = id' := same.id s' fits (many_of_database needs)
              rw [← db.one_to_one, ← ids, unnamed colon] at found
              exact nomatch found

theorem exists_unnamed (unnamed : ¬ ∀ e ∈ entries, Named pw gr e) :
    ∃ front e back, entries = front ++ e :: back ∧ (∀ x ∈ front, Named pw gr x) ∧
      ¬ Named pw gr e := by
  induction entries with
  | nil => exact absurd (fun _ mem => absurd mem not_mem_nil) unnamed
  | cons x entries ih =>
    by_cases here : Named pw gr x
    · obtain ⟨front, e, back, rfl, named, bad⟩ := ih fun all =>
        unnamed (forall_mem_cons.2 ⟨here, all⟩)
      exact ⟨x :: front, e, back, rfl, forall_mem_cons.2 ⟨here, named⟩, bad⟩
    · exact ⟨[], x, entries, rfl, fun _ mem => absurd mem not_mem_nil, here⟩

theorem fromtextLoop_prefix {memory : ℕ → Bool} {aclp read : List Aclent}
    {fields : List (List Char)}
    (eq : fromtextLoop pw gr memory aclp fields = .ok (some read)) : aclp <+: read := by
  induction fields generalizing aclp with
  | nil =>
    rw [fromtextLoop] at eq
    have eq := Except.ok.inj eq
    by_cases empty : aclp = []
    · rw [if_pos empty] at eq
      exact nomatch eq
    · rw [if_neg empty] at eq
      exact some.inj eq ▸ prefix_refl _
  | cons field fields ih =>
    rw [fromtextLoop] at eq
    split at eq
    next => exact nomatch eq
    next =>
      split at eq
      next => exact nomatch eq
      next => exact nomatch eq
      next e _ => exact (prefix_append aclp [e]).trans (ih eq)

theorem acltotext_ok {text : List Char}
    (eq : acltotext pw gr true (some entries) = .ok (some text)) :
    ∃ out, (0 < exportSize entries.length ∧
      totextLoop pw gr (exportSize entries.length) ⟨[], 0⟩ entries = .ok (some out)) ∧
        out.text = text := by
  rw [acltotext, if_neg (by simp)] at eq
  by_cases empty : exportSize entries.length = 0
  · rw [if_pos empty] at eq
    exact nomatch eq
  · rw [if_neg empty] at eq
    cases loop : totextLoop pw gr (exportSize entries.length) ⟨[], 0⟩ entries with
    | error fault =>
      rw [loop] at eq
      exact nomatch eq
    | ok found =>
      rw [loop] at eq
      obtain ⟨out, rfl, text_eq⟩ := map_eq_some_iff.1 (Except.ok.inj eq)
      exact ⟨out, ⟨Nat.pos_of_ne_zero empty, rfl⟩, text_eq⟩

/-- An entry without its name is not read back. -/
theorem not_roundTrip (known : ∀ x ∈ front ++ e :: back, x.known = true)
    (named : ∀ x ∈ front, Named pw gr x) (le : ∀ x ∈ front ++ e :: back, x.perm.toNat ≤ 0o7)
    (unnamed : ¬ Named pw gr e) : ¬ RoundTrip pw gr (front ++ e :: back) := by
  rintro ⟨text, entries', write, read, all_same⟩
  have front_known : ∀ x ∈ front, x.known = true := fun x mem => known x (mem_append_left _ mem)
  have front_le : ∀ x ∈ front, x.perm.toNat ≤ 0o7 := fun x mem => le x (mem_append_left _ mem)
  simp only [Named, not_forall, not_exists, not_and] at unnamed
  obtain ⟨s, db, fits, needs, unnamed⟩ := unnamed
  have only_empty : ∀ name, db.nameOf e.id = some name → name = [] := by
    intro name found
    by_contra ne_nil
    exact unnamed name ne_nil found
  obtain ⟨out, loop, rfl⟩ := acltotext_ok write
  obtain ⟨room, loop⟩ := loop
  rw [totextLoop_named front_known named (by rw [length_nil]; omega)] at loop
  obtain ⟨out_front, append, loop⟩ := bind_ok loop
  obtain rfl := strappend_ok append
  rw [totextLoop, slot_eq_some.2 fits] at loop
  obtain ⟨out_here, append, loop⟩ := bind_ok loop
  obtain ⟨c, no_comma, keeps, no_name⟩ := appendEntry_unnamed needs only_empty (by simp) append
  obtain ⟨rest, text_eq⟩ := (keeps.totextLoop loop).1
  obtain ⟨read_front, front_same, front_read⟩ := fromtextLoop_named front_known named front_le
  have plain : ',' ∉ s.label ++ [c] := by
    rw [label_of_database needs]
    simp [(word_plain s).2, no_comma.symm]
  rw [aclfromtext, ← text_eq] at read
  simp only [nil_append, append_assoc] at read
  rw [pieces_exported front_known named front_le, front_read, nil_append] at read
  have lengths := all_same.length_eq
  cases parts : pieces ',' (s.label ++ ([c] ++ rest)) with
  | nil =>
    rw [parts, fromtextLoop] at read
    have read := Except.ok.inj read
    split_ifs at read
    obtain rfl := some.inj read
    rw [length_append, length_cons, ← front_same.length_eq] at lengths
    omega
  | cons field fields =>
    rw [← append_assoc] at parts
    obtain ⟨behind, rfl⟩ := pieces_prefix plain parts
    rw [← append_assoc, parts, fromtextLoop, if_neg (by simp)] at read
    split at read
    next => exact nomatch read
    next => exact nomatch read
    next e' field_read =>
      obtain ⟨more, rfl⟩ := fromtextLoop_prefix read
      rw [append_assoc] at all_same field_read
      have here := forall₂_drop_append _ _ _ all_same
      rw [← front_same.length_eq, drop_left] at here
      cases here with
      | cons same _ => exact readEntry_unnamed fits needs no_name field_read same

/-! ### Every text -/

/-- A field with a name that is looked up. -/
def Asks (pw gr : Database) (field : List Char) (db : Database) (name : List Char) : Prop :=
  ∃ (s : Slot) (perm : List Char), s.database pw gr = some db ∧
    field = s.word ++ ':' :: (name ++ ':' :: perm) ∧
    ':' ∉ name ∧ name ≠ []

/-- A field that stands for an entry. -/
def WellFormed (pw gr : Database) (field : List Char) : Prop :=
  ∃ (s : Slot) (name perm : List Char), field = s.word ++ ':' :: (name ++ ':' :: perm) ∧
    ':' ∉ name ∧ readPerm perm ≠ none ∧
    ((s.database pw gr = none ∧ name = []) ∨
      ∃ db : Database, s.database pw gr = some db ∧ name ≠ [] ∧ db.idOf name ≠ none)

theorem readType_word {word : List Char} {next : Option Char}
    (eq : readType word next = some s) : word = s.word := by
  rw [readType] at eq
  split_ifs at eq <;> obtain rfl := some.inj eq <;> assumption

theorem readType_database {word : List Char} (eq : readType word (some ':') = some s) :
    s.database pw gr = none := by
  simp only [readType, if_true] at eq
  split_ifs at eq <;> obtain rfl := some.inj eq <;> rfl

theorem head_ne_colon {perm : List Char} (plain : ':' ∉ name) (ne_nil : name ≠ []) :
    (name ++ ':' :: perm).head? ≠ some ':' := by
  obtain ⟨c, rest, rfl⟩ := exists_cons_of_ne_nil ne_nil
  rw [cons_append, head?_cons]
  intro eq
  exact plain (some.inj eq ▸ mem_cons_self)

/-- The entry for a field, where there is one. -/
theorem readEntry_wellFormed (formed : WellFormed pw gr field) :
    ∃ e, readEntry pw gr field = .ok (some e) := by
  obtain ⟨s, name, perm, rfl, plain, permitted, need⟩ := formed
  obtain ⟨mode, read⟩ := ne_none_iff_exists'.1 permitted
  rw [readEntry_parts plain]
  rcases need with ⟨needs, rfl⟩ | ⟨db, needs, ne_nil, found⟩
  · rw [nil_append, head?_cons, readType_object needs]
    dsimp only
    rw [readId, if_pos rfl, read]
    exact ⟨_, rfl⟩
  · obtain ⟨id, found⟩ := ne_none_iff_exists'.1 found
    rw [readType_name needs (head_ne_colon plain ne_nil)]
    dsimp only
    rw [readId, if_neg ne_nil, needs]
    dsimp only
    rw [found, read]
    exact ⟨_, rfl⟩

theorem readEntry_asks (asks : Asks pw gr field db name) (lost : db.idOf name = none) :
    readEntry pw gr field = .error .absent := by
  obtain ⟨s, perm, needs, rfl, plain, ne_nil⟩ := asks
  rw [readEntry_parts plain, readType_name needs (head_ne_colon plain ne_nil)]
  dsimp only
  rw [readId, if_neg ne_nil, needs]
  dsimp only
  rw [lost]

/-- What comes of a field: no entry, one, or the null pointer. -/
theorem readEntry_cases (pw gr : Database) (field : List Char) :
    readEntry pw gr field = .ok none ∨
    ((∃ e, readEntry pw gr field = .ok (some e)) ∧ WellFormed pw gr field) ∨
    (readEntry pw gr field = .error .absent ∧
      ∃ db name, Asks pw gr field db name ∧ db.idOf name = none) := by
  cases first : cut ':' field with
  | none =>
    rw [readEntry, first]
    exact .inl rfl
  | some pair =>
    obtain ⟨word, behind⟩ := pair
    cases type : readType word behind.head? with
    | none =>
      rw [readEntry, first]
      dsimp only
      rw [type]
      exact .inl rfl
    | some s =>
      cases second : cut ':' behind with
      | none =>
        rw [readEntry, first]
        dsimp only
        rw [type]
        dsimp only
        rw [second]
        exact .inl rfl
      | some pair =>
        obtain ⟨name, perm⟩ := pair
        obtain ⟨rfl, -⟩ := cut_eq_some.1 first
        obtain ⟨rfl, plain⟩ := cut_eq_some.1 second
        obtain rfl := readType_word type
        rw [readEntry_parts plain, type]
        dsimp only
        rw [readId]
        by_cases empty : name = []
        · rw [if_pos empty]
          subst empty
          dsimp only
          cases read : readPerm perm with
          | none => exact .inl rfl
          | some mode =>
            refine .inr (.inl ⟨⟨_, rfl⟩, s, [], perm, rfl, plain, by rw [read]; exact nofun,
              .inl ⟨readType_database type, rfl⟩⟩)
        · rw [if_neg empty]
          cases needs : s.database pw gr with
          | none => exact .inl rfl
          | some db =>
            dsimp only
            cases found : db.idOf name with
            | none =>
              exact .inr (.inr ⟨rfl, db, name, ⟨s, perm, needs, rfl, plain, empty⟩, found⟩)
            | some id =>
              dsimp only
              cases read : readPerm perm with
              | none => exact .inl rfl
              | some mode =>
                refine .inr (.inl ⟨⟨_, rfl⟩, s, name, perm, rfl, plain,
                  by rw [read]; exact nofun, .inr ⟨db, needs, empty, ?_⟩⟩)
                rw [found]
                exact nofun

/-- No lookup that fails is used just when each name that is looked up is found. -/
theorem fromtextLoop_safe_iff {memory : ℕ → Bool} {aclp : List Aclent} {fields : List (List Char)} :
    (∃ result, fromtextLoop pw gr memory aclp fields = .ok result) ↔
      ∀ front field back, fields = front ++ field :: back → (∀ f ∈ front, WellFormed pw gr f) →
        (∀ k ≤ front.length, memory (aclp.length + k) = true) →
        ∀ db name, Asks pw gr field db name → db.idOf name ≠ none := by
  induction fields generalizing aclp with
  | nil =>
    refine iff_of_true ⟨_, rfl⟩ fun front field back eq => ?_
    exact absurd eq.symm (append_ne_nil_of_right_ne_nil _ (cons_ne_nil _ _))
  | cons first fields ih =>
    rw [fromtextLoop]
    by_cases lacking : memory aclp.length = false
    · rw [lacking]
      refine iff_of_true ⟨_, rfl⟩ fun front field back _ _ enough => ?_
      have here := enough 0 (Nat.zero_le _)
      rw [Nat.add_zero, lacking] at here
      exact nomatch here
    rw [Bool.not_eq_false] at lacking
    rw [lacking, Bool.not_true, if_neg Bool.false_ne_true]
    rcases readEntry_cases pw gr first with eq | ⟨⟨e, eq⟩, formed⟩ | ⟨eq, db, name, asks, lost⟩
    · rw [eq]
      refine iff_of_true ⟨_, rfl⟩ fun front field back whole formed _ db name asks lost => ?_
      cases front with
      | nil =>
        obtain ⟨rfl, -⟩ := cons.inj whole
        rw [readEntry_asks asks lost] at eq
        exact nomatch eq
      | cons x front =>
        obtain ⟨rfl, -⟩ := cons.inj whole
        obtain ⟨e, read⟩ := readEntry_wellFormed (formed first mem_cons_self)
        rw [eq] at read
        exact nomatch read
    · rw [eq]
      dsimp only
      rw [ih]
      constructor
      · intro later front field back whole all_formed enough db name asks lost
        cases front with
        | nil =>
          obtain ⟨rfl, -⟩ := cons.inj whole
          rw [readEntry_asks asks lost] at eq
          exact nomatch eq
        | cons x front =>
          obtain ⟨rfl, rest⟩ := cons.inj whole
          refine later front field back rest (forall_mem_cons.1 all_formed).2
            (fun k le => ?_) db name asks lost
          rw [length_append, length_singleton, Nat.add_assoc, Nat.add_comm 1]
          exact enough (k + 1) (Nat.succ_le_succ le)
      · intro all front field back rest all_formed enough
        refine all (first :: front) field back (by rw [rest, cons_append])
          (forall_mem_cons.2 ⟨formed, all_formed⟩) fun k le => ?_
        cases k with
        | zero => exact lacking
        | succ k =>
          have later := enough k (Nat.le_of_succ_le_succ le)
          rw [length_append, length_singleton, Nat.add_assoc, Nat.add_comm 1] at later
          exact later
    · rw [eq]
      refine iff_of_false (fun ⟨_, found⟩ => nomatch found) fun all => ?_
      refine all [] first fields rfl (fun _ mem => absurd mem not_mem_nil) (fun k le => ?_)
        db name asks lost
      rw [Nat.le_zero.1 le]
      exact lacking

/-! ### The claims together -/

theorem label_length (s : Slot) : s.label.length ≤ 14 := by
  obtain ⟨d, kind⟩ := s
  cases d <;> cases kind <;> decide

/-- The allowance for each entry is enough. -/
theorem exported_length (entries : List Aclent) :
    (exported pw gr entries).length ≤ entries.length * 27 := by
  induction entries with
  | nil => exact le_rfl
  | cons e entries ih =>
    have split : exported pw gr (e :: entries) =
        (entryText pw gr e ++ [',']) ++ exported pw gr entries := rfl
    have here : (entryText pw gr e).length ≤ 26 := by
      rw [entryText]
      cases e.slot with
      | none => exact Nat.zero_le _
      | some s =>
        have label := label_length s
        have perm : (permText e.perm).length = 3 := rfl
        dsimp only
        cases s.database pw gr with
        | none =>
          dsimp only
          rw [length_append]
          omega
        | some db =>
          dsimp only
          have name : ((db.nameOf e.id).getD []).length ≤ 8 := by
            cases found : db.nameOf e.id with
            | none => exact Nat.zero_le _
            | some name => exact db.short e.id name found
          rw [length_append, length_append, length_cons]
          omega
    rw [split, length_append, length_append, length_singleton, length_cons]
    omega

theorem exported_fits (some_there : entries ≠ []) (small : entries.length * 28 < 2 ^ 32) :
    (exported pw gr entries).length < exportSize entries.length := by
  have long := @exported_length pw gr entries
  have positive := length_pos_of_ne_nil some_there
  rw [exportSize, lognameMax, Nat.mod_eq_of_lt small]
  omega

theorem roundTrip_iff (accepted : aclcheck true entries = .ok .valid)
    (le : ∀ e ∈ entries, e.perm.toNat ≤ 0o7) :
    RoundTrip pw gr entries ↔ (∀ e ∈ entries, Named pw gr e) ∧
      (entries.length * 28 < 2 ^ 32 ∨
        (exported pw gr entries).length < exportSize entries.length) := by
  obtain ⟨tallied, -, -, complete, -⟩ := aclcheck_valid accepted
  have some_there : entries ≠ [] := by
    rintro rfl
    exact nomatch complete.1
  constructor
  · intro trip
    have named : ∀ e ∈ entries, Named pw gr e := by
      by_contra unnamed
      obtain ⟨front, e, back, rfl, front_named, here⟩ := exists_unnamed unnamed
      exact not_roundTrip tallied.known front_named le here trip
    refine ⟨named, .inr ?_⟩
    obtain ⟨text, -, write, -⟩ := trip
    obtain ⟨out, ⟨positive, loop⟩, -⟩ := acltotext_ok write
    rw [← append_nil entries, totextLoop_named tallied.known named
      (by rw [append_nil]; exact positive), append_nil] at loop
    obtain ⟨out', append, -⟩ := bind_ok loop
    rw [strappend, length_nil, Nat.zero_add] at append
    by_contra large
    rw [if_neg large] at append
    exact nomatch append
  · rintro ⟨named, fits⟩
    refine roundTrip_named tallied.known named le some_there (fits.elim ?_ id)
    exact exported_fits some_there

/-- An accepted list is read back from its text just when each id has a name, and the text fits;
no failed lookup is used just when the names that are looked up are found. -/
theorem acl_text (pw gr : Database) :
    (∀ entries, aclcheck true entries = .ok .valid → (∀ e ∈ entries, e.perm.toNat ≤ 0o7) →
      (RoundTrip pw gr entries ↔ (∀ e ∈ entries, Named pw gr e) ∧
        (entries.length * 28 < 2 ^ 32 ∨
          (exported pw gr entries).length < exportSize entries.length))) ∧
    ∀ memory text, (∃ result, aclfromtext pw gr memory (some text) = .ok result) ↔
      ∀ front field back, pieces ',' text = front ++ field :: back →
        (∀ f ∈ front, WellFormed pw gr f) → (∀ k ≤ front.length, memory k = true) →
        ∀ db name, Asks pw gr field db name → db.idOf name ≠ none := by
  refine ⟨fun entries accepted le => roundTrip_iff accepted le, fun memory text => ?_⟩
  have loop := @fromtextLoop_safe_iff pw gr memory [] (pieces ',' text)
  simp only [length_nil, Nat.zero_add] at loop
  exact loop

/-- A system with the user or the group `root`. -/
def rootOnly : Database where
  nameOf := fun id => if id = 0 then some ['r', 'o', 'o', 't'] else none
  idOf := fun name => if name = ['r', 'o', 'o', 't'] then some 0 else none
  one_to_one := by
    intro id name
    simp only [ite_none_right_eq_some, some.injEq]
    exact ⟨fun ⟨zero, same⟩ => ⟨same.symm, zero.symm⟩, fun ⟨same, zero⟩ => ⟨zero.symm, same.symm⟩⟩
  short := by
    intro id name found
    obtain ⟨-, same⟩ := ite_none_right_eq_some.1 found
    obtain rfl := some.inj same
    decide
  plain := by
    intro id name found
    obtain ⟨-, same⟩ := ite_none_right_eq_some.1 found
    obtain rfl := some.inj same
    decide

def withUser (id : ℤ) : List Aclent :=
  [⟨0x01, -1, 7⟩, ⟨0x02, id, 6⟩, ⟨0x04, -1, 5⟩, ⟨0x10, -1, 7⟩, ⟨0x20, -1, 5⟩]

theorem acl_text_root : RoundTrip rootOnly rootOnly (withUser 0) := by
  refine ((acl_text rootOnly rootOnly).1 (withUser 0) (by decide) (by decide)).2
    ⟨fun e mem s db fits needs => ?_, .inl (by decide)⟩
  have zero : s.2.uniqueError = none → e.id = 0 := by
    intro many
    have all : ∀ x ∈ withUser 0, ∀ kind ∈ [Kind.user, .group], ∀ d, x.fits (d, kind) = true →
        x.id = 0 := by decide
    obtain ⟨d, kind⟩ := s
    cases kind with
    | user | group => exact all e mem _ (by decide) d fits
    | userObj | groupObj | classObj | otherObj => exact nomatch many
  have same : db = rootOnly := by
    obtain ⟨d, kind⟩ := s
    cases kind with
    | user | group => exact (some.inj needs).symm
    | userObj | groupObj | classObj | otherObj => exact nomatch needs
  rw [same, zero (many_of_database needs)]
  exact ⟨_, cons_ne_nil _ _, rfl⟩

/-- The text for a user without a name. -/
def unnamedText : List Char :=
  ['u', 's', 'e', 'r', ':', ':', 'r', 'w', 'x', ',', 'u', 's', 'e', 'r', ':', '1', '0', '0', ':',
    'r', 'w', '-', ',', 'g', 'r', 'o', 'u', 'p', ':', ':', 'r', '-', 'x', ',', 'm', 'a', 's', 'k',
    ':', ':', 'r', 'w', 'x', ',', 'o', 't', 'h', 'e', 'r', ':', ':', 'r', '-', 'x', ',']

/-- A user without a name is written as a number, and that is looked up in vain. -/
theorem not_acl_text : aclcheck true (withUser 100) = .ok .valid ∧
    (∀ e ∈ withUser 100, e.perm.toNat ≤ 0o7) ∧
    acltotext rootOnly rootOnly true (some (withUser 100)) = .ok (some unnamedText) ∧
    aclfromtext rootOnly rootOnly (fun _ => true) (some unnamedText) = .error .absent ∧
    ¬ RoundTrip rootOnly rootOnly (withUser 100) := by
  have written : acltotext rootOnly rootOnly true (some (withUser 100)) =
      .ok (some unnamedText) := by
    rfl
  have read : aclfromtext rootOnly rootOnly
      (fun _ => true) (some unnamedText) = .error .absent := by
    rfl
  refine ⟨by decide, by decide, written, read, ?_⟩
  rintro ⟨text, entries', write, found, -⟩
  rw [written] at write
  obtain rfl := some.inj (Except.ok.inj write)
  rw [read] at found
  exact nomatch found

end Sol25.Acl
