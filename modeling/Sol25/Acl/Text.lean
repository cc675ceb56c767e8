import Sol25.Acl.Check
import Sol25.Data.Cut

/-!
# Lists of entries as text

`acltotext` and `aclfromtext` of `libsec/acltext.c`.  A string is the characters in front of the
first NUL.
-/

namespace Sol25.Acl

/-! ### Users and groups -/

def lognameMax : ℕ := 8

/-- The users or the groups of a system: `nameOf` is `getpwuid` or `getgrgid`, and `idOf` is
`getpwnam` or `getgrnam`. -/
structure Database where
  nameOf : ℤ → Option (List Char)
  idOf : List Char → Option ℤ
  one_to_one : ∀ id name, nameOf id = some name ↔ idOf name = some id
  short : ∀ id name, nameOf id = some name → name.length ≤ lognameMax
  plain : ∀ id name, nameOf id = some name → ':' ∉ name ∧ ',' ∉ name

def Slot.database (pw gr : Database) : Slot → Option Database
  | (_, .user) => some pw
  | (_, .group) => some gr
  | _ => none

/-! ### `acltotext` -/

/-- The text in the buffer, and where `where` points. -/
structure Export where
  text : List Char
  pos : ℕ

/-- The size of the buffer, in 32 bits. -/
def exportSize (aclcnt : ℕ) : ℕ := aclcnt * (lognameMax + 16 + 4) % 2 ^ 32

/-- `strappend`: `strcat` looks for the end of the text. -/
def strappend (size : ℕ) (out : Export) (newstr : List Char) : Except Fault Export :=
  if out.text.length + newstr.length < size then
    .ok ⟨out.text ++ newstr, out.pos + newstr.length⟩
  else .error .outside

/-- An integer as `%d` writes it. -/
def decimal (id : ℤ) : List Char :=
  if id < 0 then '-' :: Nat.toDigits 10 id.natAbs else Nat.toDigits 10 id.natAbs

/-- `sprintf(where, "%d", id)`, which leaves `where` as it is. -/
def sprintfId (size : ℕ) (out : Export) (id : ℤ) : Except Fault Export :=
  if out.pos + (decimal id).length < size then
    .ok ⟨out.text.take out.pos ++ decimal id, out.pos⟩
  else .error .outside

def permText (perm : Mode) : List Char :=
  [if perm &&& 4 ≠ 0 then 'r' else '-', if perm &&& 2 ≠ 0 then 'w' else '-',
    if perm &&& 1 ≠ 0 then 'x' else '-']

def convertPerm (size : ℕ) (out : Export) (perm : Mode) : Except Fault Export := do
  let out ← strappend size out [if perm &&& 4 ≠ 0 then 'r' else '-']
  let out ← strappend size out [if perm &&& 2 ≠ 0 then 'w' else '-']
  let out ← strappend size out [if perm &&& 1 ≠ 0 then 'x' else '-']
  strappend size out [',']

def Kind.word : Kind → List Char
  | userObj => ['u', 's', 'e', 'r']
  | user => ['u', 's', 'e', 'r']
  | groupObj => ['g', 'r', 'o', 'u', 'p']
  | group => ['g', 'r', 'o', 'u', 'p']
  | classObj => ['m', 'a', 's', 'k']
  | otherObj => ['o', 't', 'h', 'e', 'r']

def Slot.word (s : Slot) : List Char :=
  if s.1 then ['d', 'e', 'f', 'a', 'u', 'l', 't'] ++ s.2.word else s.2.word

/-- The text for an entry as far as its name, or as its permissions where it has none. -/
def Slot.label (s : Slot) : List Char :=
  match s.2 with
  | .user => s.word ++ [':']
  | .group => s.word ++ [':']
  | _ => s.word ++ [':', ':']

/-- The name for an id, or the id. -/
def appendName (db : Database) (size : ℕ) (out : Export) (id : ℤ) : Except Fault Export :=
  match db.nameOf id with
  | none => sprintfId size out id
  | some name => strappend size out name

/-- One entry. -/
def appendEntry (pw gr : Database) (size : ℕ) (out : Export) (e : Aclent) (s : Slot) :
    Except Fault Export := do
  let out ← strappend size out s.label
  match s.database pw gr with
  | none => convertPerm size out e.perm
  | some db => do
      let out ← appendName db size out e.id
      let out ← strappend size out [':']
      convertPerm size out e.perm

/-- The entries, one after the other. -/
def totextLoop (pw gr : Database) (size : ℕ) (out : Export) :
    List Aclent → Except Fault (Option Export)
  | [] => .ok (some out)
  | e :: rest =>
    match e.slot with
    | none => .ok none
    | some s => do
        let out ← appendEntry pw gr size out e s
        totextLoop pw gr size out rest

/-- `acltotext`, with memory or without. -/
def acltotext (pw gr : Database) (memory : Bool) (aclp : Option (List Aclent)) :
    Except Fault (Option (List Char)) :=
  match aclp with
  | none => .ok none
  | some entries =>
    let size := exportSize entries.length
    if !memory then .ok none
    else if size = 0 then .error .outside
    else (totextLoop pw gr size ⟨[], 0⟩ entries).map (Option.map Export.text)

/-! ### `aclfromtext` -/

/-- The type that a word and the character behind its colon stand for. -/
def readType (word : List Char) (next : Option Char) : Option Slot :=
  if word = Slot.word (false, .user) then
    some (false, if next = some ':' then .userObj else .user)
  else if word = Slot.word (false, .group) then
    some (false, if next = some ':' then .groupObj else .group)
  else if word = Slot.word (false, .otherObj) then some (false, .otherObj)
  else if word = Slot.word (false, .classObj) then some (false, .classObj)
  else if word = Slot.word (true, .user) then
    some (true, if next = some ':' then .userObj else .user)
  else if word = Slot.word (true, .group) then
    some (true, if next = some ':' then .groupObj else .group)
  else if word = Slot.word (true, .classObj) then some (true, .classObj)
  else if word = Slot.word (true, .otherObj) then some (true, .otherObj)
  else none

/-- The permissions, from three characters. -/
def readPerm : List Char → Option Mode
  | [r, w, x] =>
    if r ≠ 'r' ∧ r ≠ '-' then none
    else if w ≠ 'w' ∧ w ≠ '-' then none
    else if x ≠ 'x' ∧ x ≠ '-' then none
    else
      some ((if r = 'r' then 4 else 0) ||| (if w = 'w' then 2 else 0) |||
        (if x = 'x' then 1 else 0))
  | _ => none

/-- The id for a name: nothing where there must be no name. -/
def readId (pw gr : Database) (s : Slot) (name : List Char) : Except Fault (Option ℤ) :=
  if name = [] then .ok (some (-1))
  else
    match s.database pw gr with
    | none => .ok none
    | some db =>
      match db.idOf name with
      -- A message is printed, and then the null pointer is used.
      | none => .error .absent
      | some id => .ok (some id)

/-- One entry, from the text in front of a comma. -/
def readEntry (pw gr : Database) (field : List Char) : Except Fault (Option Aclent) :=
  match cut ':' field with
  | none => .ok none
  | some (word, behind) =>
    match readType word behind.head? with
    | none => .ok none
    | some s =>
      match cut ':' behind with
      | none => .ok none
      | some (name, perm) =>
        match readId pw gr s name with
        | .error fault => .error fault
        | .ok none => .ok none
        | .ok (some id) => .ok ((readPerm perm).map fun perm => ⟨s.type, id, perm⟩)

/-- The pieces of the text, with the entries so far. -/
def fromtextLoop (pw gr : Database) (memory : ℕ → Bool) (aclp : List Aclent) :
    List (List Char) → Except Fault (Option (List Aclent))
  | [] => .ok (if aclp = [] then none else some aclp)
  | field :: rest =>
    if !memory aclp.length then .ok none
    else
      match readEntry pw gr field with
      | .error fault => .error fault
      | .ok none => .ok none
      | .ok (some e) => fromtextLoop pw gr memory (aclp ++ [e]) rest

/-- `aclfromtext`, where the memory for each further entry is there or not. -/
def aclfromtext (pw gr : Database) (memory : ℕ → Bool) (aclimport : Option (List Char)) :
    Except Fault (Option (List Aclent)) :=
  match aclimport with
  | none => .ok none
  | some text => fromtextLoop pw gr memory [] (pieces ',' text)

end Sol25.Acl
