import Sol25.Acl.Storage

/-!
# Damaged shadow inodes

`ufs_si_load` walks over the records of a shadow inode as the sizes in them say.  The pointer of
the walk is an address of 32 bits, and `kmem_zalloc` of nothing is the null pointer.
-/

namespace Sol25.Acl

open List Option Nat

/-- The buffer of the data, `acldatalen` bytes long. -/
structure Acldata where
  addr : ℕ
  bytes : List Byte
  short : bytes.length < 2 ^ 31
  inside : addr + bytes.length < 2 ^ 32
  /-- `kmem_zalloc` hands out whole words. -/
  aligned : 4 ∣ addr

/-- The word at an address; where no word can be, the machine traps. -/
def Acldata.read (acldata : Acldata) (ptr : ℕ) : Option (List Byte) :=
  if acldata.addr ≤ ptr ∧ 4 ∣ ptr then bytesAt acldata.bytes (ptr - acldata.addr) 4 else none

/-- The lists so far, and for each one that was made the bytes asked for and the entries that were
filled in. -/
structure Loading where
  vsecattr : Vsecattr
  allocated : List (ℕ × List Aclent)

def Loading.none : Loading := ⟨⟨.none, .none⟩, []⟩

/-- A list of a record, or the null pointer where it has no entries. -/
def Loading.take (loading : Loading) (d : Bool) (entries : List Aclent) (size : ℕ) : Loading :=
  let aclp := if size = 0 then .none else some entries
  { vsecattr :=
      if d then { loading.vsecattr with dfaclentp := aclp }
      else { loading.vsecattr with aclentp := aclp }
    allocated := loading.allocated ++ [(size, entries)] }

/-- The walk of `ufs_si_load` from an address on. -/
def loadFsds (acldata : Acldata) : ℕ → ℕ → Loading → Except Fault Loading
  | 0, _, _ => .error .outside
  | fuel + 1, fsdp, loading =>
    if fsdp < acldata.addr + acldata.bytes.length then
      match acldata.read fsdp, acldata.read (fsdp + 4) with
      | some fsdType, some fsdSize =>
        let size := Xdr.word fsdSize
        let next := (fsdp + size.toNat) % 2 ^ 32
        if size.toInt ≤ 0 then .ok loading
        else if Xdr.word fsdType = 1 ∨ Xdr.word fsdType = 2 then
          let numacls := (size - 8).toNat / sizeofUfsAcl
          match entriesAt acldata.bytes (fsdp - acldata.addr + 8) numacls with
          | some entries => loadFsds acldata fuel next
              (loading.take (Xdr.word fsdType = 2) entries (numacls * sizeofAclent % 2 ^ 32))
          | none => .error .outside
        else loadFsds acldata fuel next loading
      | _, _ => .error .outside
    else .ok loading

/-- What `ufs_si_load` does with the lists. -/
def loadLists (addr dev shadow : ℕ) (vsecattr : Vsecattr) : Except Fault (Except Errno Si) :=
  match sortEntries vsecattr.aclentp with
  | none => .error .outside
  | some acl =>
    match aclValidate acl .aclCheck with
    | some err => .ok (.error err)
    | none =>
      match sortEntries vsecattr.dfaclentp with
      | none => .error .outside
      | some dfacl =>
        match aclValidate dfacl .defAclCheck with
        | some err => .ok (.error err)
        | none =>
          if acl = none ∧ dfacl = none then .ok (.error .einval)
          else
            match vsecattr2aclentry addr ⟨acl, dfacl⟩ with
            | .error fault => .error fault
            | .ok (.error err) => .ok (.error err)
            | .ok (.ok sp) => .ok (.ok { sp with dev := dev, shadow := shadow })

/-- `ufs_si_load` of any data: what it allocated for the lists, and what it returns. -/
def loadShadow (addr dev shadow : ℕ) (acldata : Acldata) :
    Except Fault (List (ℕ × List Aclent) × Except Errno Si) :=
  match loadFsds acldata (acldata.bytes.length + 1) acldata.addr .none with
  | .error fault => .error fault
  | .ok loading =>
    match loadLists addr dev shadow loading.vsecattr with
    | .error fault => .error fault
    | .ok result => .ok (loading.allocated, result)

/-! ### Records -/

/-- The records that a walk comes to, with the entries of each list. -/
inductive Records (acldata : Acldata) : ℕ → List (Bool × List Aclent) → Prop
  | ends {off : ℕ} (at_end : acldata.bytes.length ≤ off) : Records acldata off []
  | stops {off : ℕ} {fsdType fsdSize : List Byte} (inside : off < acldata.bytes.length)
      (whole : 4 ∣ off) (type_read : bytesAt acldata.bytes off 4 = some fsdType)
      (size_read : bytesAt acldata.bytes (off + 4) 4 = some fsdSize)
      (not_positive : (Xdr.word fsdSize).toInt ≤ 0) : Records acldata off []
  | other {off : ℕ} {fsdType fsdSize : List Byte} {later : List (Bool × List Aclent)}
      (inside : off < acldata.bytes.length) (whole : 4 ∣ off)
      (type_read : bytesAt acldata.bytes off 4 = some fsdType)
      (size_read : bytesAt acldata.bytes (off + 4) 4 = some fsdSize)
      (positive : 0 < (Xdr.word fsdSize).toInt)
      (no_wrap : acldata.addr + off + (Xdr.word fsdSize).toNat < 2 ^ 32)
      (no_list : Xdr.word fsdType ≠ 1 ∧ Xdr.word fsdType ≠ 2)
      (rest : Records acldata (off + (Xdr.word fsdSize).toNat) later) : Records acldata off later
  | list {off : ℕ} {fsdType fsdSize : List Byte} {later : List (Bool × List Aclent)}
      {entries : List Aclent} (d : Bool) (inside : off < acldata.bytes.length) (whole : 4 ∣ off)
      (type_read : bytesAt acldata.bytes off 4 = some fsdType)
      (size_read : bytesAt acldata.bytes (off + 4) 4 = some fsdSize)
      (positive : 0 < (Xdr.word fsdSize).toInt)
      (no_wrap : acldata.addr + off + (Xdr.word fsdSize).toNat < 2 ^ 32)
      (is_list : Xdr.word fsdType = if d then 2 else 1)
      (entries_read : entriesAt acldata.bytes (off + 8)
        ((Xdr.word fsdSize - 8).toNat / sizeofUfsAcl) = some entries)
      (rest : Records acldata (off + (Xdr.word fsdSize).toNat) later) :
      Records acldata off ((d, entries) :: later)

def Loading.record (loading : Loading) (record : Bool × List Aclent) : Loading :=
  loading.take record.1 record.2 (record.2.length * sizeofAclent % 2 ^ 32)

variable {acldata : Acldata} {off ptr n fuel : ℕ} {loading loading' : Loading} {data : List Byte}
  {entries : List Aclent} {records : List (Bool × List Aclent)}

theorem read_offset (whole : 4 ∣ off) :
    acldata.read (acldata.addr + off) = bytesAt acldata.bytes off 4 := by
  rw [Acldata.read, if_pos ⟨Nat.le_add_right _ _, Nat.dvd_add acldata.aligned whole⟩,
    Nat.add_sub_cancel_left]

theorem read_trap (part : ¬ 4 ∣ off) : acldata.read (acldata.addr + off) = none :=
  if_neg fun ok => part ((Nat.dvd_add_right acldata.aligned).1 ok.2)

theorem entriesAt_length (read : entriesAt data off n = some entries) : entries.length = n := by
  induction n generalizing off entries with
  | zero =>
    obtain rfl := some.inj read
    rfl
  | succ n ih =>
    rw [entriesAt] at read
    split at read
    next e rest _ later =>
      obtain rfl := some.inj read
      rw [length_cons, ih later]
    next => cases read

theorem loadFsds_below (below : ptr < acldata.addr) :
    loadFsds acldata fuel ptr loading = .error .outside := by
  cases fuel with
  | zero => rfl
  | succ fuel =>
    rw [loadFsds, if_pos (by omega), Acldata.read, if_neg fun ok =>
      absurd ok.1 (Nat.not_le.2 below)]

theorem size_bounds {size : BitVec 32} (positive : 0 < size.toInt) :
    0 < size.toNat ∧ size.toNat < 2 ^ 31 := by
  rw [BitVec.toInt_eq_toNat_cond] at positive
  split_ifs at positive <;> omega

theorem list_type {type : BitVec 32} {d : Bool} :
    type = (if d then 2 else 1) ↔ (type = 1 ∨ type = 2) ∧ decide (type = 2) = d := by
  constructor
  · rintro rfl
    cases d <;> decide
  · rintro ⟨rfl | rfl, rfl⟩ <;> rfl

/-- The walk over the records. -/
theorem Records.load (found : Records acldata off records)
    (enough : acldata.bytes.length - off < fuel) :
    loadFsds acldata fuel (acldata.addr + off) loading =
      .ok (records.foldl Loading.record loading) := by
  have inside := acldata.inside
  induction found generalizing fuel loading with
  | ends at_end =>
    obtain ⟨fuel, rfl⟩ := exists_eq_succ_of_ne_zero (by omega : fuel ≠ 0)
    rw [loadFsds, if_neg (by omega)]
    rfl
  | stops here whole type_read size_read not_positive =>
    obtain ⟨fuel, rfl⟩ := exists_eq_succ_of_ne_zero (by omega : fuel ≠ 0)
    rw [loadFsds, if_pos (by omega), Nat.add_assoc, read_offset whole,
      read_offset (Nat.dvd_add whole (by decide)), type_read, size_read]
    dsimp only
    rw [if_pos not_positive]
    rfl
  | other here whole type_read size_read positive no_wrap no_list rest ih =>
    obtain ⟨fuel, rfl⟩ := exists_eq_succ_of_ne_zero (by omega : fuel ≠ 0)
    have further := (size_bounds positive).1
    rw [loadFsds, if_pos (by omega), Nat.add_assoc, read_offset whole,
      read_offset (Nat.dvd_add whole (by decide)), type_read, size_read]
    dsimp only
    rw [if_neg (by omega), if_neg (by tauto), mod_eq_of_lt no_wrap, Nat.add_assoc]
    exact ih (by omega)
  | list d here whole type_read size_read positive no_wrap is_list entries_read rest ih =>
    obtain ⟨fuel, rfl⟩ := exists_eq_succ_of_ne_zero (by omega : fuel ≠ 0)
    have further := (size_bounds positive).1
    obtain ⟨either, default_eq⟩ := list_type.1 is_list
    rw [loadFsds, if_pos (by omega), Nat.add_assoc, read_offset whole,
      read_offset (Nat.dvd_add whole (by decide)), type_read, size_read]
    dsimp only
    rw [if_neg (by omega), if_pos either, Nat.add_sub_cancel_left, entries_read]
    dsimp only
    rw [mod_eq_of_lt no_wrap, Nat.add_assoc, default_eq, ← entriesAt_length entries_read]
    exact ih (by omega)

/-- A walk that ends well has come to records. -/
theorem records_of_load (eq : loadFsds acldata fuel (acldata.addr + off) loading = .ok loading') :
    ∃ records, Records acldata off records ∧ loading' = records.foldl Loading.record loading := by
  have inside := acldata.inside
  have short := acldata.short
  induction fuel generalizing off loading with
  | zero => exact nomatch eq
  | succ fuel ih =>
    rw [loadFsds] at eq
    by_cases at_end : acldata.bytes.length ≤ off
    · rw [if_neg (by omega)] at eq
      exact ⟨[], .ends at_end, (Except.ok.inj eq).symm⟩
    rw [Nat.not_le] at at_end
    rw [if_pos (by omega), Nat.add_assoc] at eq
    by_cases whole : 4 ∣ off
    swap
    · rw [read_trap whole] at eq
      exact nomatch eq
    rw [read_offset whole, read_offset (Nat.dvd_add whole (by decide))] at eq
    cases type_read : bytesAt acldata.bytes off 4 with
    | none =>
      rw [type_read] at eq
      exact nomatch eq
    | some fsdType =>
    cases size_read : bytesAt acldata.bytes (off + 4) 4 with
    | none =>
      rw [type_read, size_read] at eq
      exact nomatch eq
    | some fsdSize =>
    rw [type_read, size_read] at eq
    dsimp only at eq
    by_cases positive : (Xdr.word fsdSize).toInt ≤ 0
    · rw [if_pos positive] at eq
      exact ⟨[], .stops at_end whole type_read size_read positive, (Except.ok.inj eq).symm⟩
    rw [if_neg positive] at eq
    rw [Int.not_le] at positive
    have bounds := size_bounds positive
    -- A pointer that wraps around is one in front of the buffer.
    have no_wrap : ∀ {next : Loading},
        loadFsds acldata fuel ((acldata.addr + off + (Xdr.word fsdSize).toNat) % 2 ^ 32) next =
          .ok loading' → acldata.addr + off + (Xdr.word fsdSize).toNat < 2 ^ 32 := by
      intro next later
      by_contra wraps
      rw [loadFsds_below (by omega)] at later
      exact nomatch later
    by_cases is_list : Xdr.word fsdType = 1 ∨ Xdr.word fsdType = 2
    · rw [if_pos is_list, Nat.add_sub_cancel_left] at eq
      cases entries_read : entriesAt acldata.bytes (off + 8)
          ((Xdr.word fsdSize - 8).toNat / sizeofUfsAcl) with
      | none =>
        rw [entries_read] at eq
        exact nomatch eq
      | some entries =>
        rw [entries_read] at eq
        dsimp only at eq
        have in_space := no_wrap eq
        rw [mod_eq_of_lt in_space, Nat.add_assoc, ← entriesAt_length entries_read] at eq
        obtain ⟨records, found, all⟩ := ih eq
        exact ⟨_, .list _ at_end whole type_read size_read positive in_space
          (list_type.2 ⟨is_list, rfl⟩) entries_read found, all⟩
    · rw [if_neg is_list] at eq
      have in_space := no_wrap eq
      rw [mod_eq_of_lt in_space, Nat.add_assoc] at eq
      obtain ⟨records, found, all⟩ := ih eq
      exact ⟨records, .other at_end whole type_read size_read positive in_space (not_or.1 is_list)
        found, all⟩

/-! ### The lists of the records -/

/-- The last list of a sort, unless it has no entries. -/
def lastList (records : List (Bool × List Aclent)) (d : Bool) : Option (List Aclent) :=
  ((records.filter fun record => record.1 = d).getLast?.map Prod.snd).filter (· ≠ [])

theorem lastList_concat (record : Bool × List Aclent) (d : Bool) :
    lastList (records ++ [record]) d =
      if record.1 = d then (if record.2 = [] then none else some record.2)
      else lastList records d := by
  rw [lastList, filter_append, filter_singleton]
  by_cases same : record.1 = d
  · rw [if_pos same, decide_eq_true same, cond_true, getLast?_concat, map_some, filter_some]
    simp
  · rw [if_neg same, decide_eq_false same, cond_false, append_nil, lastList]

theorem Records.small (found : Records acldata off records) :
    ∀ record ∈ records, record.2.length * sizeofAclent < 2 ^ 32 := by
  induction found with
  | ends | stops => exact fun _ mem => absurd mem not_mem_nil
  | other _ _ _ _ _ _ _ _ ih => exact ih
  | list d _ _ _ size_read _ _ _ entries_read _ ih =>
    refine forall_mem_cons.2 ⟨?_, ih⟩
    rw [entriesAt_length entries_read, sizeofAclent, sizeofUfsAcl]
    omega

theorem take_vsecattr (d : Bool) (small : entries.length * sizeofAclent < 2 ^ 32) :
    (loading.record (d, entries)).vsecattr =
      ⟨if d = false then (if entries = [] then none else some entries)
        else loading.vsecattr.aclentp,
        if d = true then (if entries = [] then none else some entries)
        else loading.vsecattr.dfaclentp⟩ := by
  have empty : entries.length * sizeofAclent % 2 ^ 32 = 0 ↔ entries = [] := by
    rw [mod_eq_of_lt small, ← length_eq_zero_iff, sizeofAclent]
    omega
  simp only [Loading.record, Loading.take, empty]
  cases d <;> rfl

theorem record_foldl (small : ∀ record ∈ records, record.2.length * sizeofAclent < 2 ^ 32) :
    (records.foldl Loading.record .none).vsecattr =
        ⟨lastList records false, lastList records true⟩ ∧
      ∀ made ∈ (records.foldl Loading.record .none).allocated,
        made.1 = made.2.length * sizeofAclent := by
  induction records using List.reverseRecOn with
  | nil => exact ⟨rfl, fun _ mem => absurd mem not_mem_nil⟩
  | append_singleton records record ih =>
    obtain ⟨vsecattr, allocated⟩ := ih fun r mem => small r (mem_append_left _ mem)
    have here := small record (mem_append_right _ (mem_singleton.2 rfl))
    obtain ⟨d, entries⟩ := record
    rw [foldl_append, foldl_cons, foldl_nil]
    refine ⟨?_, forall_mem_append.2 ⟨allocated, forall_mem_singleton.2 ?_⟩⟩
    · rw [take_vsecattr d here, vsecattr, lastList_concat, lastList_concat]
    · exact mod_eq_of_lt here

/-- `acl_validate` takes the entries as defaults, once they are sorted. -/
def Defaults (entries : List Aclent) : Prop :=
  ∃ sorted, sortEntries (some entries) = some sorted ∧ aclValidate sorted .defAclCheck = none

/-- What is to come of any data: no read outside, room for the entries of each list, and a list
with the entries for the owner, the group and others, or an error. -/
def Harmless (addr dev shadow : ℕ) (acldata : Acldata) : Prop :=
  ∃ allocated result, loadShadow addr dev shadow acldata = .ok (allocated, result) ∧
    (∀ made ∈ allocated, made.1 = made.2.length * sizeofAclent) ∧
    ∀ sp, result = .ok sp → sp.a.owner ≠ [] ∧ sp.a.group ≠ [] ∧ sp.a.other ≠ []

theorem sortEntries_inside (aclentp : Option (List Aclent)) :
    ∃ sorted, sortEntries aclentp = some sorted := by
  cases aclentp with
  | none => exact ⟨none, rfl⟩
  | some entries =>
    obtain ⟨sorted, eq⟩ := @ksort_inside Aclent cmp2acls entries entries.length rfl
    exact ⟨some sorted, by rw [sortEntries, eq]; rfl⟩

variable {addr dev shadow : ℕ} {vsecattr : Vsecattr} {dfaclentp : Option (List Aclent)} {sp : Si}

theorem loadLists_inside : ∃ result, loadLists addr dev shadow vsecattr = .ok result := by
  obtain ⟨acl, acl_eq⟩ := sortEntries_inside vsecattr.aclentp
  obtain ⟨dfacl, dfacl_eq⟩ := sortEntries_inside vsecattr.dfaclentp
  obtain ⟨accepted, accepted_eq⟩ := vsecattr2aclentry_inside addr ⟨acl, dfacl⟩
  rw [loadLists, acl_eq]
  dsimp only
  split
  next => exact ⟨_, rfl⟩
  next =>
    rw [dfacl_eq]
    dsimp only
    split
    next => exact ⟨_, rfl⟩
    next =>
      split
      next => exact ⟨_, rfl⟩
      next =>
        rw [accepted_eq]
        cases accepted <;> exact ⟨_, rfl⟩

/-- A list for the file has its three entries. -/
theorem loadLists_access (eq : loadLists addr dev shadow ⟨some entries, dfaclentp⟩ = .ok (.ok sp)) :
    sp.a.owner ≠ [] ∧ sp.a.group ≠ [] ∧ sp.a.other ≠ [] := by
  obtain ⟨acl, acl_eq⟩ := sortEntries_inside (some entries)
  obtain ⟨dfacl, dfacl_eq⟩ := sortEntries_inside dfaclentp
  obtain ⟨l, rfl, -⟩ := sortEntries_some acl_eq
  rw [loadLists, acl_eq] at eq
  dsimp only at eq
  split at eq
  next => exact nomatch eq
  next =>
    rw [dfacl_eq] at eq
    dsimp only at eq
    split at eq
    next => exact nomatch eq
    next =>
      rw [if_neg (by simp)] at eq
      split at eq
      next => exact nomatch eq
      next => exact nomatch eq
      next made made_eq =>
        obtain rfl := Except.ok.inj (Except.ok.inj eq)
        have holds := Holds.of_accepted made_eq
        obtain ⟨owner, owner_eq, -⟩ := holds.owner
        obtain ⟨group, group_eq, -⟩ := holds.group
        obtain ⟨other, other_eq, -⟩ := holds.other
        exact ⟨by simp [owner_eq], by simp [group_eq], by simp [other_eq]⟩

/-- Defaults by themselves are taken, too. -/
theorem loadLists_defaults (defaults : Defaults entries) :
    ∃ sp, loadLists addr dev shadow ⟨none, some entries⟩ = .ok (.ok sp) ∧ sp.a.owner = [] := by
  obtain ⟨sorted, eq, valid⟩ := defaults
  obtain ⟨l, rfl, -⟩ := sortEntries_some eq
  have again : sortEntries (some l) = some (some l) := by
    obtain ⟨l', ksort_eq', same⟩ := map_eq_some_iff.1 eq
    obtain rfl := some.inj same
    rw [sortEntries, ksort_eq (List.Perm.refl l')
      (ksort_sorted cmp2acls_total cmp2acls_trans rfl ksort_eq')]
    rfl
  have no_access : aclValidate none .aclCheck = none := rfl
  have made : vsecattr2aclentry addr ⟨none, some l⟩ =
      .ok (.ok ⟨addr, 0, 0, .empty, formAll Aclent.isDef l⟩) := by
    rw [vsecattr2aclentry, sortEntries, again]
    dsimp only
    rw [no_access]
    dsimp only
    rw [valid]
    rfl
  refine ⟨⟨addr, dev, shadow, .empty, formAll Aclent.isDef l⟩, ?_, rfl⟩
  rw [loadLists, sortEntries]
  dsimp only
  rw [no_access]
  dsimp only
  rw [eq]
  dsimp only
  rw [valid]
  dsimp only
  rw [if_neg (by simp), made]

theorem not_defaults (refused : ¬ Defaults entries) :
    ∃ err, loadLists addr dev shadow ⟨none, some entries⟩ = .ok (.error err) := by
  obtain ⟨sorted, eq⟩ := sortEntries_inside (some entries)
  have no_access : aclValidate none .aclCheck = none := rfl
  cases valid : aclValidate sorted .defAclCheck with
  | none => exact absurd ⟨sorted, eq, valid⟩ refused
  | some err =>
    refine ⟨err, ?_⟩
    rw [loadLists, sortEntries]
    dsimp only
    rw [no_access]
    dsimp only
    rw [eq]
    dsimp only
    rw [valid]

/-- `ufs_si_load` does no harm just when each record it comes to is inside the buffer, and there is
a list for the file or no list of defaults that is taken. -/
theorem load_harmless (addr dev shadow : ℕ) (acldata : Acldata) :
    Harmless addr dev shadow acldata ↔
      ∃ records, Records acldata 0 records ∧
        (lastList records false = none →
          ∀ entries, lastList records true = some entries → ¬ Defaults entries) := by
  have start : acldata.addr = acldata.addr + 0 := rfl
  constructor
  · rintro ⟨allocated, result, eq, -, whole⟩
    rw [loadShadow] at eq
    cases walk : loadFsds acldata (acldata.bytes.length + 1) acldata.addr .none with
    | error fault =>
      rw [walk] at eq
      exact nomatch eq
    | ok loading =>
      rw [walk] at eq
      rw [start] at walk
      obtain ⟨records, found, rfl⟩ := records_of_load walk
      refine ⟨records, found, fun no_access entries some_defaults defaults => ?_⟩
      obtain ⟨sp, taken, no_owner⟩ := @loadLists_defaults entries addr dev shadow defaults
      dsimp only at eq
      rw [(record_foldl found.small).1, no_access, some_defaults, taken] at eq
      obtain ⟨-, rfl⟩ := Prod.mk.inj (Except.ok.inj eq)
      exact (whole sp rfl).1 no_owner
  · rintro ⟨records, found, no_stray⟩
    have walk := @Records.load acldata 0 (acldata.bytes.length + 1) .none records found (by omega)
    obtain ⟨vsecattr, allocated⟩ := record_foldl found.small
    obtain ⟨result, result_eq⟩ := @loadLists_inside addr dev shadow
      ⟨lastList records false, lastList records true⟩
    refine ⟨_, result, ?_, allocated, ?_⟩
    · rw [loadShadow, start, walk]
      dsimp only
      rw [vsecattr, result_eq]
    · rintro sp rfl
      cases access : lastList records false with
      | some entries =>
        rw [access] at result_eq
        exact loadLists_access result_eq
      | none =>
        rw [access] at result_eq
        cases defaults : lastList records true with
        | none =>
          rw [defaults] at result_eq
          exact nomatch result_eq
        | some entries =>
          obtain ⟨err, refused⟩ := @not_defaults entries addr dev shadow
            (no_stray access entries defaults)
          rw [defaults, refused] at result_eq
          exact nomatch result_eq

/-- A record of entries that are not there. -/
def shortData : Acldata := ⟨0x1000, [0, 0, 0, 1, 0, 0, 0, 20], by decide, by decide, by decide⟩

/-- A record of the three default entries, and nothing for the file. -/
def onlyDefaults : Acldata where
  addr := 0x1000
  bytes := [0, 0, 0, 2, 0, 0, 0, 44] ++ diskEntry 0x1001 7 0 ++ diskEntry 0x1004 5 0 ++
    diskEntry 0x1020 5 0
  short := by decide
  inside := by decide
  aligned := by decide

/-- Entries are read behind the buffer; and a list without an owner is attached. -/
theorem not_load_harmless :
    loadShadow 0 0 0 shortData = .error .outside ∧ ¬ Harmless 0 0 0 shortData ∧
      ¬ Harmless 0 0 0 onlyDefaults := by
  have outside : loadShadow 0 0 0 shortData = .error .outside := by rfl
  refine ⟨outside, ?_, ?_⟩
  · rintro ⟨allocated, result, eq, -⟩
    rw [outside] at eq
    exact nomatch eq
  · rintro ⟨allocated, result, eq, -, whole⟩
    have attached : ∃ made sp, loadShadow 0 0 0 onlyDefaults = .ok (made, .ok sp) ∧
        sp.a.owner = [] := ⟨_, _, rfl, rfl⟩
    obtain ⟨made, sp, eq', no_owner⟩ := attached
    rw [eq'] at eq
    obtain ⟨-, rfl⟩ := Prod.mk.inj (Except.ok.inj eq)
    exact (whole sp rfl).1 no_owner

end Sol25.Acl
