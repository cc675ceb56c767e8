import Mathlib.Data.List.Sort
import Sol25.Acl.Disk

/-!
# Lists survive storage

What `vsecattr2aclentry` makes of entries is the same after it has been written to a shadow inode
and read back, and `aclentry2vsecattr` gives the entries back, sorted, with the ids of masks
replaced.
-/

namespace Sol25.Acl

open List Option

variable {e : Aclent} {s : Slot} {entries sorted : List Aclent} {d : Bool} {c : ℤ} {acl : IcAcl}
  {data pre post : List Byte}

/-! ### Bytes -/

theorem short_shortBytes (v : BitVec 16) : short (shortBytes v) = v := by
  simp only [short, shortBytes]
  ext i small
  simp only [BitVec.getElem_append, BitVec.getElem_extractLsb']
  split_ifs <;> (rw [← BitVec.getLsbD_eq_getElem]; congr 1; omega)

theorem bytesAt_append {mid : List Byte} {off n : ℕ} (off_eq : off = pre.length)
    (n_eq : n = mid.length) :
    bytesAt (pre ++ (mid ++ post)) off n = some mid := by
  subst off_eq n_eq
  rw [bytesAt, if_pos (by simp), drop_left, take_left]

/-- An entry that the fields on disk have room for. -/
structure Aclent.Storable (e : Aclent) : Prop where
  type : (e.type.setWidth 16).setWidth 32 = e.type
  id : -2 ^ 31 ≤ e.id ∧ e.id < 2 ^ 31

def Aclent.onDisk (e : Aclent) : List Byte := diskEntry e.type e.perm e.id

theorem length_onDisk : e.onDisk.length = sizeofUfsAcl := rfl

theorem entryAt_onDisk (storable : e.Storable) :
    entryAt (pre ++ (e.onDisk ++ post)) pre.length = some e := by
  have tag : bytesAt (pre ++ (e.onDisk ++ post)) pre.length 2 =
      some (shortBytes (e.type.setWidth 16)) := by
    simp only [Aclent.onDisk, diskEntry, append_assoc]
    exact bytesAt_append rfl rfl
  have perm : bytesAt (pre ++ (e.onDisk ++ post)) (pre.length + 4) 2 =
      some (shortBytes e.perm) := by
    have split : pre ++ (e.onDisk ++ post) = (pre ++ (shortBytes (e.type.setWidth 16) ++ [0, 0])) ++
        (shortBytes e.perm ++ ([0, 0] ++ Xdr.bytes (BitVec.ofInt 32 e.id) ++ post)) := by
      simp [Aclent.onDisk, diskEntry]
    rw [split]
    exact bytesAt_append (by simp [shortBytes]) rfl
  have who : bytesAt (pre ++ (e.onDisk ++ post)) (pre.length + 8) 4 =
      some (Xdr.bytes (BitVec.ofInt 32 e.id)) := by
    have split : pre ++ (e.onDisk ++ post) =
      (pre ++ (shortBytes (e.type.setWidth 16) ++ [0, 0] ++ shortBytes e.perm ++ [0, 0])) ++
        (Xdr.bytes (BitVec.ofInt 32 e.id) ++ post) := by
      simp [Aclent.onDisk, diskEntry]
    rw [split]
    exact bytesAt_append (by simp [shortBytes]) rfl
  have id_eq : (BitVec.ofInt 32 e.id).toInt = e.id := by
    have := storable.id
    rw [BitVec.toInt_ofInt]
    exact Int.bmod_eq_of_le (by omega) (by omega)
  rw [entryAt, tag, perm, who]
  simp only [short_shortBytes, Xdr.word_bytes, id_eq, storable.type]

theorem entriesAt_onDisk (storable : ∀ e ∈ entries, e.Storable) :
    entriesAt (pre ++ (entries.flatMap Aclent.onDisk ++ post)) pre.length entries.length =
      some entries := by
  induction entries generalizing pre with
  | nil => rfl
  | cons e entries ih =>
    obtain ⟨here, storable⟩ := forall_mem_cons.1 storable
    have split : pre ++ ((e :: entries).flatMap Aclent.onDisk ++ post) =
        pre ++ (e.onDisk ++ (entries.flatMap Aclent.onDisk ++ post)) := by
      rw [flatMap_cons, append_assoc]
    have later := @ih (pre ++ e.onDisk) storable
    rw [append_assoc, length_append, length_onDisk] at later
    rw [split, length_cons, entriesAt, entryAt_onDisk here, later]

theorem length_flatMap_onDisk :
    (entries.flatMap Aclent.onDisk).length = entries.length * sizeofUfsAcl := by
  induction entries with
  | nil => rfl
  | cons e entries ih =>
    rw [flatMap_cons, length_append, ih, length_onDisk, length_cons, Nat.add_mul,
      Nat.one_mul, Nat.add_comm]

/-- The entries of a list by kind, in some order, with an id for the mask. -/
def IcAcl.tagged (acl : IcAcl) (d : Bool) (c : ℤ) (kind : Kind) : List Aclent :=
  match kind with
  | .userObj => formvsec (Slot.type (d, .userObj)) acl.owner
  | .user => formvsec (Slot.type (d, .user)) acl.users
  | .groupObj => formvsec (Slot.type (d, .groupObj)) acl.group
  | .group => formvsec (Slot.type (d, .group)) acl.groups
  | .otherObj => formvsec (Slot.type (d, .otherObj)) acl.other
  | .classObj => acl.mask.elim [] fun bits => [⟨Slot.type (d, .classObj), c, bits⟩]

/-- The kinds in the order of `aclentry2vsecattr`. -/
def givenOrder : List Kind := [.userObj, .user, .groupObj, .group, .otherObj, .classObj]

/-- The kinds in the order of `ufs_sectobuf`. -/
def diskOrder : List Kind := [.userObj, .groupObj, .otherObj, .user, .group, .classObj]

theorem entries_eq : acl.entries d = givenOrder.flatMap (acl.tagged d 0) := by
  simp [IcAcl.entries, givenOrder, IcAcl.tagged, flatMap_cons]

def IcAcl.diskEntries (acl : IcAcl) (d : Bool) : List Aclent := diskOrder.flatMap (acl.tagged d 1)

theorem aclMove_eq {l : List UfsAcl} {tag : BitVec 32} :
    aclMove l tag = (formvsec tag l).flatMap Aclent.onDisk := by
  rw [aclMove, formvsec, flatMap_map]
  rfl

theorem diskData_eq : acl.diskData d = (acl.diskEntries d).flatMap Aclent.onDisk := by
  have mask_eq : (acl.mask.elim [] fun bits => diskEntry (Slot.type (d, .classObj)) bits 1) =
      (acl.tagged d 1 .classObj).flatMap Aclent.onDisk := by
    rw [IcAcl.tagged]
    cases acl.mask with
    | none => rfl
    | some bits => simp [Aclent.onDisk]
  rw [IcAcl.diskData, mask_eq]
  simp only [aclMove_eq, IcAcl.diskEntries, diskOrder, flatMap_cons, flatMap_nil,
    flatMap_append, append_nil, append_assoc, IcAcl.tagged]

theorem length_diskEntries :
    (acl.diskEntries d).length = acl.owner.length + acl.group.length + acl.other.length +
    acl.users.length + acl.groups.length + acl.mask.elim 0 fun _ => 1 := by
  have mask_eq : (acl.mask.elim [] fun bits =>
      [(⟨Slot.type (d, .classObj), 1, bits⟩ : Aclent)]).length = acl.mask.elim 0 fun _ => 1 := by
    cases acl.mask <;> rfl
  simp only [IcAcl.diskEntries, diskOrder, flatMap_cons, flatMap_nil, length_append,
    length_nil, mask_eq, IcAcl.tagged, formvsec, length_map]
  omega

theorem diskSize_eq :
    acl.diskSize = if acl.diskEntries d = [] then 0 else
      (acl.diskEntries d).length * sizeofUfsAcl + 8 := by
  rw [IcAcl.diskSize, ← length_diskEntries (d := d)]
  by_cases nil : acl.diskEntries d = []
  · rw [if_pos nil, nil]
    rfl
  · have pos := length_pos_of_ne_nil nil
    rw [if_neg nil, if_neg (by rw [sizeofUfsAcl]; omega)]

theorem fsd_eq : acl.fsd d = if acl.diskEntries d = [] then [] else
    Xdr.bytes (if d then 2 else 1) ++ Xdr.bytes
      (BitVec.ofNat 32 ((acl.diskEntries d).length * sizeofUfsAcl + 8)) ++
      (acl.diskEntries d).flatMap Aclent.onDisk := by
  rw [IcAcl.fsd, diskSize_eq (d := d), diskData_eq]
  by_cases nil : acl.diskEntries d = []
  · simp [nil]
  · rw [if_neg nil, if_neg nil, if_neg (by omega)]

theorem length_fsd : (acl.fsd d).length = acl.diskSize := by
  rw [fsd_eq, diskSize_eq (d := d)]
  by_cases nil : acl.diskEntries d = []
  · rw [if_pos nil, if_pos nil]
    rfl
  · rw [if_neg nil, if_neg nil, length_append, length_append, length_flatMap_onDisk,
      Xdr.length_bytes, Xdr.length_bytes]
    omega

def Vsecattr.put (vsap : Vsecattr) (d : Bool) (entries : List Aclent) : Vsecattr :=
  if d then { vsap with dfaclentp := some entries } else { vsap with aclentp := some entries }

/-- A list is read back. -/
theorem parse_fsd {fuel : ℕ} {vsap : Vsecattr} (few : entries.length ≤ 2 ^ 20)
    (storable : ∀ e ∈ entries, e.Storable)
    (data_eq : data = pre ++ (Xdr.bytes (if d then 2 else 1) ++ Xdr.bytes
        (BitVec.ofNat 32 (entries.length * sizeofUfsAcl + 8)) ++
          entries.flatMap Aclent.onDisk ++ post)) :
    parseFsds data (fuel + 1) pre.length vsap =
      parseFsds data fuel (pre.length + (entries.length * sizeofUfsAcl + 8))
        (vsap.put d entries) := by
  have inside : pre.length < data.length := by
    rw [data_eq]
    simp
  have type_at : bytesAt data pre.length 4 = some (Xdr.bytes (if d then 2 else 1)) := by
    rw [data_eq]
    simp only [append_assoc]
    exact bytesAt_append rfl (by simp)
  have size_at : bytesAt data (pre.length + 4) 4 =
      some (Xdr.bytes (BitVec.ofNat 32 (entries.length * sizeofUfsAcl + 8))) := by
    have split : data = (pre ++ Xdr.bytes (if d then 2 else 1)) ++
        (Xdr.bytes (BitVec.ofNat 32 (entries.length * sizeofUfsAcl + 8)) ++
            (entries.flatMap Aclent.onDisk ++ post)) := by
      rw [data_eq]
      simp
    rw [split]
    exact bytesAt_append (by simp) (by simp)
  have entries_at : entriesAt data (pre.length + 8) entries.length = some entries := by
    have split : data =
      (pre ++ Xdr.bytes (if d then 2 else 1) ++ Xdr.bytes
        (BitVec.ofNat 32 (entries.length * sizeofUfsAcl + 8))) ++
        (entries.flatMap Aclent.onDisk ++ post) := by
      rw [data_eq]
      simp
    have found := @entriesAt_onDisk entries (pre ++ Xdr.bytes (if d then 2 else 1) ++ Xdr.bytes
        (BitVec.ofNat 32 (entries.length * sizeofUfsAcl + 8))) post storable
    rw [← split] at found
    simpa using found
  have size_lt : entries.length * sizeofUfsAcl + 8 < 2 ^ 31 := by
    rw [sizeofUfsAcl]
    omega
  have count_eq : (BitVec.ofNat 32 (entries.length * sizeofUfsAcl + 8) - 8).toNat / sizeofUfsAcl =
      entries.length := by
    rw [BitVec.toNat_sub_of_le, BitVec.toNat_ofNat, Nat.mod_eq_of_lt (by omega)]
    · simp [sizeofUfsAcl]
    · rw [BitVec.le_def, BitVec.toNat_ofNat, Nat.mod_eq_of_lt (by omega)]
      simp
  have size_nat : (BitVec.ofNat 32 (entries.length * sizeofUfsAcl + 8)).toNat =
      entries.length * sizeofUfsAcl + 8 := by
    rw [BitVec.toNat_ofNat, Nat.mod_eq_of_lt (by omega)]
  have positive : ¬ (BitVec.ofNat 32 (entries.length * sizeofUfsAcl + 8)).toInt ≤ 0 := by
    rw [BitVec.toInt_eq_toNat_cond, size_nat]
    omega
  rw [parseFsds, if_pos inside, type_at, size_at]
  dsimp only
  rw [Xdr.word_bytes, if_neg positive, Xdr.word_bytes, count_eq, entries_at, size_nat]
  cases d <;> rfl

theorem parse_end {fuel off : ℕ} {vsap : Vsecattr} (at_end : data.length ≤ off) :
    parseFsds data (fuel + 1) off vsap = .ok vsap := by
  rw [parseFsds, if_neg (by omega)]

/-- What `ufs_sectobuf` writes is read back. -/
theorem parse_sectobuf {sp : Si} (some_access : sp.a.diskEntries false ≠ [])
    (few : (sp.a.diskEntries false).length ≤ 2 ^ 20)
    (few' : (sp.d.diskEntries true).length ≤ 2 ^ 20)
    (storable : ∀ e ∈ sp.a.diskEntries false, e.Storable)
    (storable' : ∀ e ∈ sp.d.diskEntries true, e.Storable) :
    parseFsds (sp.a.fsd false ++ sp.d.fsd true) ((sp.a.fsd false ++ sp.d.fsd true).length + 1) 0
      ⟨none, none⟩ =
      .ok ⟨some (sp.a.diskEntries false),
        if sp.d.diskEntries true = [] then none else some (sp.d.diskEntries true)⟩ := by
  have access_eq := @fsd_eq false sp.a
  have default_eq := @fsd_eq true sp.d
  have access_length :
      (sp.a.fsd false).length = (sp.a.diskEntries false).length * sizeofUfsAcl + 8 := by
    rw [length_fsd, diskSize_eq (d := false), if_neg some_access]
  rw [if_neg some_access] at access_eq
  have first := @parse_fsd (sp.a.diskEntries false) false (sp.a.fsd false ++ sp.d.fsd true)
    [] (sp.d.fsd true)
    (sp.a.fsd false ++ sp.d.fsd true).length ⟨none, none⟩ few storable (by rw [access_eq]; rfl)
  rw [length_nil, Nat.zero_add, ← access_length] at first
  rw [first]
  obtain ⟨fuel, fuel_eq⟩ : ∃ fuel, (sp.a.fsd false ++ sp.d.fsd true).length = fuel + 1 + 1 :=
    ⟨(sp.a.fsd false ++ sp.d.fsd true).length - 2, by rw [length_append]; omega⟩
  rw [fuel_eq]
  by_cases no_defaults : sp.d.diskEntries true = []
  · rw [if_pos no_defaults] at default_eq ⊢
    rw [default_eq, append_nil]
    exact parse_end (le_refl _)
  · rw [if_neg no_defaults] at default_eq ⊢
    have second := @parse_fsd (sp.d.diskEntries true) true (sp.a.fsd false ++ sp.d.fsd true)
      (sp.a.fsd false) []
      (fuel + 1) (Vsecattr.put ⟨none, none⟩ false (sp.a.diskEntries false)) few' storable'
      (by rw [default_eq, append_nil])
    have default_length :
        (sp.d.fsd true).length = (sp.d.diskEntries true).length * sizeofUfsAcl + 8 := by
      rw [length_fsd, diskSize_eq (d := true), if_neg no_defaults]
    rw [second]
    refine parse_end ?_
    rw [length_append, default_length]

/-! ### Entries by kind -/

/-- The entries of a type, as they are kept. -/
def keptOf (entries : List Aclent) (s : Slot) : List UfsAcl :=
  (entries.filter fun e => e.fits s).map fun e => ⟨e.perm, e.id⟩

variable {kind : Kind} {l : List Aclent}

theorem fits_iff_of_fits (fits : e.fits (d, kind) = true) (kind' : Kind) :
    e.fits (d, kind') = decide (kind = kind') := by
  by_cases same : kind = kind'
  · rw [← same, fits, decide_eq_true rfl]
  · rw [decide_eq_false same]
    exact fits_of_ne fits fun eq => same (Prod.mk.inj eq).2.symm

/-- A list in memory is its entries, by kind. -/
theorem formAll_fits (d : Bool) (entries : List Aclent) :
    formAll (fun e kind => e.fits (d, kind)) entries =
    ⟨keptOf entries (d, .userObj), keptOf entries (d, .groupObj), keptOf entries (d, .otherObj),
      keptOf entries (d, .user),
      keptOf entries (d, .group),
        (entries.find? fun e => e.fits (d, .classObj)).map Aclent.perm⟩ := by
  induction entries with
  | nil => rfl
  | cons e entries ih =>
    have step : formAll (fun e kind => e.fits (d, kind)) (e :: entries) =
        form (fun e kind => e.fits (d, kind)) e
            (formAll (fun e kind => e.fits (d, kind)) entries) := rfl
    rw [step, ih, form]
    simp only [keptOf, filter_cons, find?_cons]
    by_cases of_kind : ∃ kind, e.fits (d, kind) = true
    · obtain ⟨kind, fits⟩ := of_kind
      simp only [fits_iff_of_fits fits]
      cases kind <;> simp
    · have fits_not : ∀ kind, e.fits (d, kind) = false :=
        fun kind => Bool.eq_false_iff.2 fun fits => of_kind ⟨kind, fits⟩
      simp [fits_not]

/-- The mask gets an id. -/
def Aclent.reclass (c : ℤ) (e : Aclent) : Aclent :=
  if e.fits (false, .classObj) || e.fits (true, .classObj) then { e with id := c } else e

theorem reclass_type : (e.reclass c).type = e.type := by
  rw [Aclent.reclass]
  split_ifs <;> rfl

theorem reclass_perm : (e.reclass c).perm = e.perm := by
  rw [Aclent.reclass]
  split_ifs <;> rfl

theorem reclass_fits : (e.reclass c).fits s = e.fits s := by
  rw [Bool.eq_iff_iff, fits_iff, fits_iff, reclass_type]

theorem reclass_of_ne (fits : e.fits (d, kind) = true) (other : kind ≠ .classObj) :
    e.reclass c = e := by
  have not_class : ∀ d', e.fits (d', .classObj) = false := fun d' => fits_of_ne fits fun eq =>
    other (Prod.mk.inj eq).2.symm
  rw [Aclent.reclass, not_class, not_class, Bool.or_false, if_neg (by simp)]

theorem reclass_of_class (fits : e.fits (d, .classObj) = true) :
    e.reclass c = { e with id := c } := by
  rw [Aclent.reclass, if_pos]
  cases d <;> simp [fits]

theorem formvsec_keptOf (other : kind ≠ .classObj) :
    formvsec (Slot.type (d, kind)) (keptOf entries (d, kind)) =
      (entries.filter fun e => e.fits (d, kind)).map (Aclent.reclass c) := by
  rw [formvsec, keptOf, List.map_map]
  refine map_congr_left fun e mem => ?_
  have fits := (mem_filter.1 mem).2
  rw [reclass_of_ne fits other, Function.comp]
  dsimp only
  rw [← fits_iff.1 fits]

/-- The entries of a list in memory are those it was made of. -/
theorem tagged_formAll (few : countOf entries (d, .classObj) ≤ 1) (kind : Kind) :
    (formAll (fun e kind => e.fits (d, kind)) entries).tagged d c kind =
      (entries.filter fun e => e.fits (d, kind)).map (Aclent.reclass c) := by
  rw [formAll_fits]
  cases kind with
  | classObj =>
    have length_le : (entries.filter fun e => e.fits (d, .classObj)).length ≤ 1 := by
      rw [← countP_eq_length_filter]
      exact few
    rw [IcAcl.tagged]
    dsimp only
    rw [← head?_filter]
    cases filtered : entries.filter fun e => e.fits (d, .classObj) with
    | nil => rfl
    | cons e others =>
      rw [filtered, length_cons] at length_le
      have no_others : others = [] := length_eq_zero_iff.1 (by omega)
      have mem : e ∈ entries.filter fun e => e.fits (d, .classObj) := by
        rw [filtered]
        exact mem_cons_self
      have fits := (mem_filter.1 mem).2
      rw [no_others, map_singleton, reclass_of_class fits, ← fits_iff.1 fits]
      rfl
  | userObj => exact formvsec_keptOf nofun
  | user => exact formvsec_keptOf nofun
  | groupObj => exact formvsec_keptOf nofun
  | group => exact formvsec_keptOf nofun
  | otherObj => exact formvsec_keptOf nofun

/-- Elements sorted out by kinds are the same elements. -/
theorem flatMap_filter_perm {α κ : Type*} [DecidableEq κ] {p : κ → α → Bool} {order : List κ}
    (nodup : order.Nodup) {l : List α}
    (kinds_of : ∀ x ∈ l, ∃ k ∈ order, ∀ k' ∈ order, p k' x = decide (k = k')) :
    (order.flatMap fun k => l.filter (p k)).Perm l := by
  induction l with
  | nil => simp
  | cons x l ih =>
    obtain ⟨⟨k, mem, only⟩, rest⟩ := forall_mem_cons.1 kinds_of
    obtain ⟨front, back, rfl⟩ := append_of_mem mem
    rw [nodup_append, nodup_cons] at nodup
    have passed : ∀ ks : List κ, (∀ k' ∈ ks, k' ∈ front ++ k :: back) → k ∉ ks →
        (ks.flatMap fun k' => (x :: l).filter (p k')) = ks.flatMap fun k' => l.filter (p k') := by
      intro ks inside absent
      refine flatMap_congr fun k' k_mem => filter_cons_of_neg ?_
      have other : k ≠ k' := fun same => absent (same ▸ k_mem)
      rw [only k' (inside k' k_mem), decide_eq_false other]
      exact Bool.false_ne_true
    have here : (x :: l).filter (p k) = x :: l.filter (p k) :=
      filter_cons_of_pos (by rw [only k mem]; simp)
    rw [flatMap_append, flatMap_cons, here,
      passed front (fun k' k_mem => mem_append_left _ k_mem) fun k_mem =>
        nodup.2.2 k k_mem k mem_cons_self rfl,
      passed back (fun k' k_mem => mem_append_right front (mem_cons_of_mem k k_mem))
        nodup.2.1.1]
    refine perm_middle.trans (List.Perm.cons x ?_)
    have later := ih rest
    rwa [flatMap_append, flatMap_cons] at later

/-- All entries are for the file, or all are defaults. -/
def AllOf (entries : List Aclent) (d : Bool) : Prop :=
  ∀ e ∈ entries, ∃ kind, e.fits (d, kind) = true

theorem tagged_perm (few : countOf entries (d, .classObj) ≤ 1) (all_of : AllOf entries d)
    {order : List Kind} (nodup : order.Nodup) (whole : ∀ kind, kind ∈ order) :
    (order.flatMap ((formAll (fun e kind => e.fits (d, kind)) entries).tagged d c)).Perm
      (entries.map (Aclent.reclass c)) := by
  have by_kind : order.flatMap ((formAll (fun e kind => e.fits (d, kind)) entries).tagged d c) =
      (order.flatMap fun kind => entries.filter fun e => e.fits (d, kind)).map
          (Aclent.reclass c) := by
    rw [map_flatMap]
    exact flatMap_congr fun kind _ => tagged_formAll few kind
  rw [by_kind]
  refine (flatMap_filter_perm nodup fun e mem => ?_).map _
  obtain ⟨kind, fits⟩ := all_of e mem
  exact ⟨kind, whole kind, fun kind' _ => fits_iff_of_fits fits kind'⟩

/-! ### Masks with other ids -/

theorem cmp2acls_antisymm {x y : Aclent} (le : cmp2acls x y ≠ .gt) (ge : cmp2acls y x ≠ .gt) :
    x = y := by
  rw [cmp2acls_ne_gt] at le ge
  obtain ⟨type, id, perm⟩ := x
  obtain ⟨type', id', perm'⟩ := y
  dsimp only at le ge
  have type_eq : type = type' := BitVec.eq_of_toInt_eq (by omega)
  have perm_eq : perm = perm' := BitVec.eq_of_toNat_eq (by omega)
  rw [type_eq, perm_eq, show id = id' by omega]

theorem ksort_eq (perm : l.Perm sorted) (is_sorted : Sorted sorted) :
    ksort cmp2acls l l.length = some sorted := by
  obtain ⟨result, eq⟩ := @ksort_inside _ cmp2acls l l.length rfl
  have result_sorted := ksort_sorted cmp2acls_total cmp2acls_trans rfl eq
  rw [eq, ((ksort_perm eq).trans perm).eq_of_pairwise
      (fun _ _ _ _ => cmp2acls_antisymm) result_sorted is_sorted]

/-- At most one mask of each sort. -/
def FewMasks (entries : List Aclent) : Prop := ∀ d, countOf entries (d, .classObj) ≤ 1

theorem reclass_same {x y : Aclent}
    (apart : ∀ d, ¬ (x.fits (d, .classObj) = true ∧ y.fits (d, .classObj) = true))
    (same : x.type = y.type) : x.reclass c = x ∧ y.reclass c = y := by
  have fits_eq : ∀ s, x.fits s = y.fits s := fun s => by
    rw [Bool.eq_iff_iff, fits_iff, fits_iff, same]
  have not_class : ∀ d, x.fits (d, .classObj) = false := fun d => by
    rw [Bool.eq_false_iff]
    exact fun fits => apart d ⟨fits, fits_eq _ ▸ fits⟩
  constructor
  · rw [Aclent.reclass, not_class, not_class, Bool.or_false, if_neg (by simp)]
  · rw [Aclent.reclass, ← fits_eq, ← fits_eq, not_class, not_class, Bool.or_false, if_neg (by simp)]

theorem FewMasks.same_ids (few : FewMasks entries) :
    entries.Pairwise fun x y => x.type = y.type → x.reclass c = x ∧ y.reclass c = y := by
  have apart := fun d => countP_le_one_iff.1 (few d)
  refine ((apart false).and (apart true)).imp fun not_both => reclass_same fun d => ?_
  cases d with
  | false => exact not_both.1
  | true => exact not_both.2

theorem reclass_sorted (few : FewMasks entries) (is_sorted : Sorted entries) :
    Sorted (entries.map (Aclent.reclass c)) := by
  refine pairwise_map.2 ((is_sorted.and (few.same_ids (c := c))).imp fun {x y} both => ?_)
  obtain ⟨le, same_ids⟩ := both
  by_cases same : x.type = y.type
  · rw [(same_ids same).1, (same_ids same).2]
    exact le
  · rw [cmp2acls_ne_gt] at le ⊢
    rw [reclass_type, reclass_type]
    have ne : x.type.toInt ≠ y.type.toInt := fun eq => same (BitVec.eq_of_toInt_eq eq)
    omega

theorem neighboursOk_reclass (few : FewMasks entries) :
    neighboursOk (entries.map (Aclent.reclass c)) = neighboursOk entries := by
  have same_ids := few.same_ids (c := c)
  clear few
  induction entries with
  | nil => rfl
  | cons x rest ih =>
    obtain ⟨x_ids, rest_ids⟩ := pairwise_cons.1 same_ids
    have later := ih rest_ids
    cases rest with
    | nil => rfl
    | cons y rest =>
      rw [map_cons] at later
      rw [map_cons, map_cons, neighboursOk, neighboursOk, later, reclass_type,
        reclass_type, reclass_perm]
      by_cases same : x.type = y.type
      · rw [(x_ids y mem_cons_self same).1, (x_ids y mem_cons_self same).2]
      · simp [same]

theorem reclass_is : (e.reclass c).is kind = e.is kind := by
  rw [Aclent.is, Aclent.is, reclass_type]

theorem reclass_isDef : (e.reclass c).isDef kind = e.isDef kind := by
  rw [Aclent.isDef, Aclent.isDef, reclass_type]

theorem aclValidate_reclass (few : FewMasks entries) (flag : Flag) :
    aclValidate (some (entries.map (Aclent.reclass c))) flag = aclValidate (some entries) flag := by
  have known_eq : (entries.map (Aclent.reclass c)).all Aclent.known = entries.all Aclent.known := by
    rw [List.all_map]
    congr 1
    funext e
    simp only [Function.comp, Aclent.known, reclass_is, reclass_isDef]
  simp only [aclValidate, map_eq_nil_iff, neighboursOk_reclass few, known_eq, countP_map,
    Function.comp_def, reclass_is, reclass_isDef]

theorem keptOf_reclass (other : kind ≠ .classObj) :
    keptOf (entries.map (Aclent.reclass c)) (d, kind) = keptOf entries (d, kind) := by
  rw [keptOf, keptOf, List.filter_map, List.map_map]
  simp only [Function.comp_def, reclass_fits]
  refine map_congr_left fun e mem => ?_
  rw [reclass_of_ne (mem_filter.1 mem).2 other]

theorem formAll_reclass :
    formAll (fun e kind => e.fits (d, kind)) (entries.map (Aclent.reclass c)) =
    formAll (fun e kind => e.fits (d, kind)) entries := by
  have kept : ∀ kind, kind ≠ .classObj →
      keptOf (entries.map (Aclent.reclass c)) (d, kind) = keptOf entries (d, kind) :=
    fun kind other => keptOf_reclass other
  rw [formAll_fits, formAll_fits, find?_map, Option.map_map, kept .userObj nofun,
    kept .groupObj nofun, kept .otherObj nofun, kept .user nofun, kept .group nofun]
  simp only [Function.comp_def, reclass_fits, reclass_perm]

/-! ### There and back -/

/-- The check for the list of a file or for defaults. -/
def flagOf (d : Bool) : Flag := if d then .defAclCheck else .aclCheck

/-- Entries that `acl_validate` has accepted, all for the file or all defaults. -/
structure Accepted (entries : List Aclent) (d : Bool) : Prop where
  sorted : Sorted entries
  valid : aclValidate (some entries) (flagOf d) = none
  all_of : AllOf entries d

/-- The list in memory. -/
def made (entries : List Aclent) (d : Bool) : IcAcl :=
  formAll (fun e kind => e.fits (d, kind)) entries

theorem valid_counts (valid : aclValidate (some entries) (flagOf d) = none) :
    entries ≠ [] ∧ countOf entries (d, .classObj) ≤ 1 ∧
    countOf entries (d, .userObj) + countOf entries (d, .groupObj) + countOf entries
      (d, .otherObj) +
      countOf entries (d, .classObj) + countOf entries (d, .group) + countOf entries (d, .user) ≤
        maxAclEntries := by
  have counts : ∀ kind, (entries.countP fun e => e.is kind) = countOf entries (false, kind) :=
    fun _ => rfl
  have counts' : ∀ kind, (entries.countP fun e => e.isDef kind) = countOf entries (true, kind) :=
    fun _ => rfl
  cases d with
  | false =>
    rw [show flagOf false = .aclCheck from rfl] at valid
    simp only [aclValidate, ite_some_eq_none, counts] at valid
    obtain ⟨h1, -, -, h4, h5, h6, -⟩ := valid
    exact ⟨h1, by omega, by omega⟩
  | true =>
    rw [show flagOf true = .defAclCheck from rfl] at valid
    simp only [aclValidate, ite_some_eq_none, counts'] at valid
    obtain ⟨h1, -, -, h4, h5, h6, h7, h8, -⟩ := valid
    exact ⟨h1, by omega, by omega⟩

variable (accepted : Accepted entries d)

include accepted

theorem Accepted.fewMasks : FewMasks entries := by
  intro d'
  by_cases same : d' = d
  · rw [same]
    exact (valid_counts accepted.valid).2.1
  · rw [countOf_eq_zero]
    · exact Nat.zero_le 1
    · intro e mem
      obtain ⟨kind, fits⟩ := accepted.all_of e mem
      rw [default_of_fits fits]
      cases d <;> cases d' <;> simp_all

theorem Accepted.length_le : entries.length ≤ maxAclEntries := by
  have perm := @flatMap_filter_perm _ _ _ (fun kind e => Aclent.fits e (d, kind)) diskOrder
      (by decide) entries fun e mem => by
    obtain ⟨kind, fits⟩ := accepted.all_of e mem
    exact ⟨kind, by cases kind <;> decide, fun kind' _ => fits_iff_of_fits fits kind'⟩
  have few := (valid_counts accepted.valid).2.2
  have length_eq := perm.length_eq
  simp only [diskOrder, flatMap_cons, flatMap_nil, length_append,
    ← countP_eq_length_filter, length_nil] at length_eq
  rw [← length_eq]
  simp only [countOf] at few
  omega

theorem Accepted.diskEntries_perm :
    ((made entries d).diskEntries d).Perm (entries.map (Aclent.reclass 1)) :=
  tagged_perm (accepted.fewMasks d) accepted.all_of (by decide) fun kind => by cases kind <;> decide

theorem Accepted.entries_perm :
    ((made entries d).entries d).Perm (entries.map (Aclent.reclass 0)) := by
  rw [entries_eq]
  exact tagged_perm (accepted.fewMasks d) accepted.all_of
    (by decide) fun kind => by cases kind <;> decide

theorem Accepted.diskEntries_ne_nil : (made entries d).diskEntries d ≠ [] := by
  intro nil
  have perm := accepted.diskEntries_perm
  rw [nil] at perm
  exact (valid_counts accepted.valid).1 (map_eq_nil_iff.1 perm.nil_eq.symm)

/-- The entries read back, sorted, are those that were set, with another id for the mask. -/
theorem Accepted.sortEntries_disk :
    sortEntries (some ((made entries d).diskEntries d)) =
      some (some (entries.map (Aclent.reclass 1))) := by
  rw [sortEntries,
    ksort_eq accepted.diskEntries_perm (reclass_sorted accepted.fewMasks accepted.sorted)]
  rfl

theorem Accepted.sortEntries_reclass :
    sortEntries (some (entries.map (Aclent.reclass c))) =
      some (some (entries.map (Aclent.reclass c))) := by
  rw [sortEntries, ksort_eq (List.Perm.refl _) (reclass_sorted accepted.fewMasks accepted.sorted)]
  rfl

theorem Accepted.giveEntries_made :
    giveEntries (made entries d) d (flagOf d) =
      .ok (.ok (some (entries.map (Aclent.reclass 0)))) := by
  have perm := accepted.entries_perm
  have not_empty : ¬ ((made entries d).entries d).length = 0 := by
    rw [perm.length_eq, length_map]
    exact fun zero => (valid_counts accepted.valid).1 (length_eq_zero_iff.1 zero)
  rw [giveEntries, if_neg not_empty,
    ksort_eq perm (reclass_sorted accepted.fewMasks accepted.sorted)]
  dsimp only
  rw [aclValidate_reclass accepted.fewMasks, accepted.valid]

theorem Accepted.storable (ids : ∀ e ∈ entries, -2 ^ 31 ≤ e.id ∧ e.id < 2 ^ 31) :
    ∀ e ∈ (made entries d).diskEntries d, e.Storable := by
  intro e mem
  obtain ⟨e', mem', rfl⟩ := List.mem_map.1 (accepted.diskEntries_perm.mem_iff.1 mem)
  obtain ⟨kind, fits⟩ := accepted.all_of e' mem'
  constructor
  · rw [reclass_type, fits_iff.1 fits]
    cases d <;> cases kind <;> decide
  · rw [Aclent.reclass]
    split_ifs
    · dsimp only
      decide
    · exact ids e' mem'

omit accepted

theorem allOf_of_default {flag : Flag} (valid : aclValidate (some entries) flag = none)
    (default_eq : ∀ e ∈ entries, e.default = d) :
    AllOf entries d := by
  intro e mem
  obtain ⟨⟨d', kind⟩, fits⟩ := known_iff.1 (known_of_valid valid e mem)
  have same := default_of_fits fits
  rw [default_eq e mem] at same
  dsimp only at same
  subst same
  exact ⟨kind, fits⟩

theorem accepted_of_sorted (sort_eq : sortEntries (some l) = some (some entries))
    (valid : aclValidate (some entries) (flagOf d) = none) (default_eq : ∀ e ∈ l, e.default = d) :
    Accepted entries d := by
  rw [sortEntries] at sort_eq
  obtain ⟨l', ksort_eq, same⟩ := map_eq_some_iff.1 sort_eq
  obtain rfl := some.inj same
  refine ⟨ksort_sorted cmp2acls_total cmp2acls_trans rfl ksort_eq, valid,
    allOf_of_default valid fun e mem => ?_⟩
  exact default_eq e ((ksort_perm ksort_eq).mem_iff.1 mem)

theorem sorted_perm (sort_eq : sortEntries (some l) = some (some entries)) : entries.Perm l := by
  obtain ⟨l', same, perm⟩ := sortEntries_some sort_eq
  obtain rfl := some.inj same
  exact perm

/-- The defaults of a list, or none. -/
def AcceptedDefaults (dfsorted : Option (List Aclent)) : Prop :=
  ∀ entries ∈ dfsorted, Accepted entries true

variable {dfsorted : Option (List Aclent)}

section

variable (defaults : AcceptedDefaults dfsorted)

include defaults

theorem AcceptedDefaults.few :
    ((made (dfsorted.getD []) true).diskEntries true).length ≤ 2 ^ 20 := by
  cases dfsorted with
  | none => decide
  | some entries =>
    have accepted := defaults entries rfl
    have le := accepted.length_le
    rw [getD_some, accepted.diskEntries_perm.length_eq, length_map]
    rw [maxAclEntries] at le
    omega

theorem AcceptedDefaults.storable
    (ids : ∀ entries ∈ dfsorted, ∀ e ∈ entries, -2 ^ 31 ≤ e.id ∧ e.id < 2 ^ 31) :
    ∀ e ∈ (made (dfsorted.getD []) true).diskEntries true, e.Storable := by
  cases dfsorted with
  | none => exact fun e mem => nomatch mem
  | some entries => exact (defaults entries rfl).storable (ids entries rfl)

theorem AcceptedDefaults.sortEntries_disk :
    sortEntries (if (made (dfsorted.getD []) true).diskEntries true = [] then none
      else some ((made (dfsorted.getD []) true).diskEntries true)) =
        some (dfsorted.map (List.map (Aclent.reclass 1))) := by
  cases dfsorted with
  | none => rfl
  | some entries =>
    have accepted := defaults entries rfl
    rw [getD_some, if_neg accepted.diskEntries_ne_nil, accepted.sortEntries_disk]
    rfl

theorem AcceptedDefaults.sortEntries_reclass :
    sortEntries (dfsorted.map (List.map (Aclent.reclass c))) =
      some (dfsorted.map (List.map (Aclent.reclass c))) := by
  cases dfsorted with
  | none => rfl
  | some entries => exact (defaults entries rfl).sortEntries_reclass

theorem AcceptedDefaults.valid :
    aclValidate (dfsorted.map (List.map (Aclent.reclass c))) .defAclCheck = none := by
  cases dfsorted with
  | none => rfl
  | some entries =>
    have accepted := defaults entries rfl
    rw [map_some, aclValidate_reclass accepted.fewMasks]
    exact accepted.valid

end

theorem AcceptedDefaults.made_reclass :
    made ((dfsorted.map (List.map (Aclent.reclass c))).getD []) true =
      made (dfsorted.getD []) true := by
  cases dfsorted with
  | none => rfl
  | some entries => exact formAll_reclass

theorem AcceptedDefaults.giveEntries_made (defaults : AcceptedDefaults dfsorted) :
    giveEntries (made (dfsorted.getD []) true) true .defAclCheck =
      .ok (.ok (dfsorted.map (List.map (Aclent.reclass 0)))) := by
  cases dfsorted with
  | none => rfl
  | some entries => exact (defaults entries rfl).giveEntries_made

theorem vsecattr2aclentry_accepted {acl : List Aclent} {dfacl : Option (List Aclent)} (addr : ℕ)
    (sort_eq : sortEntries (some acl) = some (some sorted))
    (dfsort_eq : sortEntries dfacl = some dfsorted)
    (valid : aclValidate (some sorted) .aclCheck = none)
    (dfvalid : aclValidate dfsorted .defAclCheck = none) :
    vsecattr2aclentry addr ⟨some acl, dfacl⟩ =
      .ok (.ok ⟨addr, 0, 0, made sorted false, made (dfsorted.getD []) true⟩) := by
  rw [vsecattr2aclentry]
  dsimp only
  rw [sort_eq, dfsort_eq]
  dsimp only
  rw [valid]
  dsimp only
  rw [dfvalid]
  rfl

/-- Entries survive storage: the list in memory is the same after it was written and read back, and
both give the entries that were set. -/
theorem acl_survives_storage {acl : List Aclent} {dfacl : Option (List Aclent)}
    (addr addr' dev shadow : ℕ) (sort_eq : sortEntries (some acl) = some (some sorted))
    (dfsort_eq : sortEntries dfacl = some dfsorted)
    (valid : aclValidate (some sorted) .aclCheck = none)
    (dfvalid : aclValidate dfsorted .defAclCheck = none) (access : ∀ e ∈ acl, e.default = false)
    (defaults : ∀ l ∈ dfacl, ∀ e ∈ l, e.default = true)
    (ids : ∀ e ∈ acl, -2 ^ 31 ≤ e.id ∧ e.id < 2 ^ 31)
    (dfids : ∀ l ∈ dfacl, ∀ e ∈ l, -2 ^ 31 ≤ e.id ∧ e.id < 2 ^ 31) :
    ∃ sp buf sp', vsecattr2aclentry addr ⟨some acl, dfacl⟩ = .ok (.ok sp) ∧
      ufsSectobuf sp = some (buf, buf.length) ∧
      ufsSiLoad addr' dev shadow buf = .ok (.ok sp') ∧ siCmp { sp with dev := dev } sp' = false ∧
      aclentry2vsecattr sp =
        .ok (.ok ⟨some (sorted.map (Aclent.reclass 0)),
          dfsorted.map (List.map (Aclent.reclass 0))⟩) ∧
      aclentry2vsecattr sp' =
        .ok (.ok ⟨some (sorted.map (Aclent.reclass 0)),
          dfsorted.map (List.map (Aclent.reclass 0))⟩) := by
  have accepted : Accepted sorted false := accepted_of_sorted sort_eq valid access
  have ids' : ∀ e ∈ sorted, -2 ^ 31 ≤ e.id ∧ e.id < 2 ^ 31 :=
    fun e mem => ids e ((sorted_perm sort_eq).mem_iff.1 mem)
  obtain ⟨dfaccepted, dfids'⟩ : AcceptedDefaults dfsorted ∧ ∀ l ∈ dfsorted, ∀ e ∈ l,
      -2 ^ 31 ≤ e.id ∧ e.id < 2 ^ 31 := by
    cases dfacl with
    | none =>
      obtain rfl := some.inj dfsort_eq
      exact ⟨fun _ => nofun, fun _ => nofun⟩
    | some l =>
      obtain ⟨entries, rfl, perm⟩ := sortEntries_some dfsort_eq
      constructor
      · intro _ mem
        obtain rfl := mem_some.1 mem
        exact accepted_of_sorted dfsort_eq dfvalid (defaults l rfl)
      · intro _ l_mem e mem
        obtain rfl := mem_some.1 l_mem
        exact dfids l rfl e (perm.mem_iff.1 mem)
  have few : ((made sorted false).diskEntries false).length ≤ 2 ^ 20 := by
    have le := accepted.length_le
    rw [accepted.diskEntries_perm.length_eq, length_map]
    rw [maxAclEntries] at le
    omega
  have parsed := @parse_sectobuf
    ⟨addr, 0, 0, made sorted false, made (dfsorted.getD []) true⟩ accepted.diskEntries_ne_nil few
    dfaccepted.few (accepted.storable ids') (dfaccepted.storable dfids')
  have given : ∀ addr dev shadow,
    aclentry2vsecattr ⟨addr, dev, shadow, made sorted false, made (dfsorted.getD []) true⟩ =
      .ok (.ok ⟨some (sorted.map (Aclent.reclass 0)),
          dfsorted.map (List.map (Aclent.reclass 0))⟩) := by
    intro addr dev shadow
    have access_given := accepted.giveEntries_made
    rw [show flagOf false = .aclCheck from rfl] at access_given
    rw [aclentry2vsecattr, access_given, dfaccepted.giveEntries_made]
  refine ⟨_, (made sorted false).fsd false ++ (made (dfsorted.getD []) true).fsd true,
    ⟨addr', dev, shadow, made sorted false, made (dfsorted.getD []) true⟩,
    vsecattr2aclentry_accepted addr sort_eq dfsort_eq valid dfvalid, ?_, ?_, ?_, given _ _ _,
      given _ _ _⟩
  · have some_there :
        ¬ (made sorted false).diskSize + (made (dfsorted.getD []) true).diskSize = 0 := by
      rw [diskSize_eq (d := false), if_neg accepted.diskEntries_ne_nil]
      omega
    rw [ufsSectobuf, if_neg some_there, length_append, length_fsd, length_fsd]
  · have reloaded :=
      @vsecattr2aclentry_accepted _ _ _ _ addr' (accepted.sortEntries_reclass (c := 1))
      (dfaccepted.sortEntries_reclass (c := 1))
        (by rw [aclValidate_reclass accepted.fewMasks]; exact valid) dfaccepted.valid
    rw [ufsSiLoad, parsed]
    dsimp only
    rw [accepted.sortEntries_disk]
    dsimp only
    rw [aclValidate_reclass accepted.fewMasks, valid]
    dsimp only
    rw [dfaccepted.sortEntries_disk]
    dsimp only
    rw [dfaccepted.valid]
    dsimp only
    rw [if_neg (by simp), reloaded]
    dsimp only
    rw [AcceptedDefaults.made_reclass, made, formAll_reclass]
    rfl
  · simp [siCmp]

def fileEntries : List Aclent :=
  [⟨Kind.otherObj.bit, 0, 4⟩, ⟨Kind.userObj.bit, 3, 7⟩, ⟨Kind.user.bit, 5, 6⟩,
    ⟨Kind.classObj.bit, 9, 6⟩, ⟨Kind.groupObj.bit, 2, 5⟩]

def defaultEntries : List Aclent :=
  [⟨aclDefault ||| Kind.classObj.bit, 9, 6⟩, ⟨aclDefault ||| Kind.user.bit, 5, 6⟩]

theorem acl_survives_storage_five :
    ∃ sp buf sp', vsecattr2aclentry 1 ⟨some fileEntries, some defaultEntries⟩ = .ok (.ok sp) ∧
    ufsSectobuf sp = some (buf, buf.length) ∧ ufsSiLoad 2 3 4 buf = .ok (.ok sp') ∧
      siCmp { sp with dev := 3 } sp' = false ∧
    (aclentry2vsecattr sp').toOption.isSome := by
  obtain ⟨sp, buf, sp', made_eq, written, loaded, same, -, given⟩ := acl_survives_storage 1 2 3 4
    (show sortEntries (some fileEntries) =
      some (some [⟨Kind.userObj.bit, 3, 7⟩, ⟨Kind.user.bit, 5, 6⟩, ⟨Kind.groupObj.bit, 2, 5⟩,
      ⟨Kind.classObj.bit, 9, 6⟩, ⟨Kind.otherObj.bit, 0, 4⟩]) by decide)
    (show sortEntries (some defaultEntries) = some (some [⟨aclDefault ||| Kind.user.bit, 5, 6⟩,
      ⟨aclDefault ||| Kind.classObj.bit, 9, 6⟩]) by decide)
    (by decide) (by decide) (by decide) (by decide) (by decide) (by decide)
  exact ⟨sp, buf, sp', made_eq, written, loaded, same, by rw [given]; rfl⟩

/-- An entry of a default among those of the file is accepted and lost. -/
theorem stray_default_lost :
    ¬ ∀ (acl : List Aclent) (dfacl dfsorted : Option (List Aclent)) (sorted : List Aclent),
    sortEntries (some acl) = some (some sorted) → sortEntries dfacl = some dfsorted →
    aclValidate (some sorted) .aclCheck = none → aclValidate dfsorted .defAclCheck = none →
    (∀ e ∈ acl, -2 ^ 31 ≤ e.id ∧ e.id < 2 ^ 31) →
      (∀ l ∈ dfacl, ∀ e ∈ l, -2 ^ 31 ≤ e.id ∧ e.id < 2 ^ 31) →
    ∃ sp, vsecattr2aclentry 1 ⟨some acl, dfacl⟩ = .ok (.ok sp) ∧
      aclentry2vsecattr sp =
        .ok (.ok ⟨some (sorted.map (Aclent.reclass 0)),
          dfsorted.map (List.map (Aclent.reclass 0))⟩) := by
  intro survives
  obtain ⟨sp, made_eq, given⟩ := survives
    [⟨Kind.userObj.bit, 3, 7⟩, ⟨Kind.groupObj.bit, 2, 5⟩, ⟨Kind.otherObj.bit, 0, 4⟩,
      ⟨aclDefault ||| Kind.user.bit, 5, 6⟩] none none
    [⟨Kind.userObj.bit, 3, 7⟩, ⟨Kind.groupObj.bit, 2, 5⟩, ⟨Kind.otherObj.bit, 0, 4⟩,
      ⟨aclDefault ||| Kind.user.bit, 5, 6⟩]
    (by decide) rfl (by decide) rfl (by decide) (by simp)
  have made : sp = ⟨1, 0, 0, ⟨[⟨7, 3⟩], [⟨5, 2⟩], [⟨4, 0⟩], [], [], none⟩, .empty⟩ :=
    Except.ok.inj (Except.ok.inj (made_eq.symm.trans (by decide)))
  rw [made] at given
  exact absurd given (by decide)

end Sol25.Acl
