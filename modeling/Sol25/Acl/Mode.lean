import Mathlib.Tactic.IntervalCases
import Sol25.Acl.Model

/-!
# The mode of a file follows its list

The permission bits of the mode after `ufs_acl_set`, and what `ufs_acl_access` grants.
-/

namespace Sol25.Acl

open List Option

variable {entries entries' : List Aclent} {ip ip' : Inode} {sp : Si} {env : Env}

/-! ### The entries of a list -/

variable {e : Aclent} {kind : Kind} {addr : ℕ}

theorem kind_eq_of_is {kind' : Kind} (is : e.is kind = true) (is' : e.is kind' = true) :
    kind = kind' := by
  simp only [Aclent.is, decide_eq_true_eq] at is is'
  rw [is] at is'
  cases kind <;> cases kind' <;> first | rfl | exact absurd is' (by decide)

theorem is_iff (is : e.is kind = true) (kind' : Kind) : e.is kind' = decide (kind = kind') := by
  by_cases same : kind = kind'
  · rw [← same, is, decide_eq_true rfl]
  · rw [decide_eq_false same, Bool.eq_false_iff]
    exact fun is' => same (kind_eq_of_is is is')

def entriesOf (entries : List Aclent) (kind : Kind) : List UfsAcl :=
  (entries.filter fun e => e.is kind).map fun e => ⟨e.perm, e.id⟩

/-- The list of a file is its entries, by kind. -/
theorem formAll_is (entries : List Aclent) : formAll Aclent.is entries =
    ⟨entriesOf entries .userObj, entriesOf entries .groupObj, entriesOf entries .otherObj,
      entriesOf entries .user,
      entriesOf entries .group, (entries.find? fun e => e.is .classObj).map Aclent.perm⟩ := by
  induction entries with
  | nil => rfl
  | cons e entries ih =>
    have step : formAll Aclent.is (e :: entries) = form Aclent.is e (formAll Aclent.is entries) :=
      rfl
    rw [step, ih, form]
    simp only [entriesOf, filter_cons, find?_cons]
    by_cases of_kind : ∃ kind, e.is kind = true
    · obtain ⟨kind, is⟩ := of_kind
      simp only [is_iff is]
      cases kind <;> simp
    · have is_not : ∀ kind, e.is kind = false := fun kind => Bool.eq_false_iff.2 fun is =>
        of_kind ⟨kind, is⟩
      simp [is_not]

/-! ### Permission bits -/

/-- The nine permission bits for the permissions of owner, group and others under a mask. -/
def listMode (owner group other : Mode) (mask : Option Mode) : Mode :=
  (owner &&& 0o7) <<< 6 ||| ((group &&& 0o7) &&& (mask.getD 0o7 &&& 0o7)) <<< 3 ||| (other &&& 0o7)

theorem listMode_le (owner group other : Mode) (mask : Option Mode) :
    listMode owner group other mask &&& ~~~(0o777 : Mode) = 0 := by
  rw [listMode]
  generalize mask.getD 0o7 = bits
  ext i inside
  interval_cases i <;> simp

theorem followAcl_eq (mode : Mode) (owner group other : UfsAcl) (mask : Option Mode) :
    followAcl mode owner group other mask =
      (mode &&& ~~~(0o777 : Mode)) ||| listMode owner.perm group.perm other.perm mask := by
  cases mask with
  | none =>
    simp only [followAcl, listMode, getD_none]
    ext i inside
    interval_cases i <;> simp
  | some bits =>
    simp only [followAcl, listMode, getD_some]
    ext i inside
    interval_cases i <;> simp [Bool.and_comm]

theorem plainMode_eq (mode : Mode) (owner group other : UfsAcl) :
    plainMode mode owner group other = (mode &&& ~~~(777 : Mode)) |||
      listMode owner.perm group.perm other.perm none := by
  simp only [plainMode, listMode, getD_none]
  ext i inside
  interval_cases i <;> simp

/-- Two masks do the same in front of some bits if these cover what the masks differ in. -/
theorem masked_or_eq_iff (m a b n : Mode) :
    m &&& ~~~a ||| n = m &&& ~~~b ||| n ↔ m &&& (a ^^^ b) &&& ~~~n = 0 := by
  simp only [BitVec.eq_of_getLsbD_eq_iff]
  refine forall_congr' fun i => forall_congr' fun inside => ?_
  simp only [BitVec.getLsbD_or, BitVec.getLsbD_and, BitVec.getLsbD_not, BitVec.getLsbD_xor, inside,
    decide_true, Bool.true_and]
  rw [show (0 : Mode).getLsbD i = false by simp]
  cases m.getLsbD i <;> cases a.getLsbD i <;> cases b.getLsbD i <;> cases n.getLsbD i <;> decide

/-- A mode has some permission bits, and the other bits of an older mode. -/
theorem mode_eq_iff {mode mode' n : Mode} (nine : n &&& ~~~(0o777 : Mode) = 0) :
    (mode' &&& 0o777 = n ∧ mode' &&& ~~~(0o777 : Mode) = mode &&& ~~~(0o777 : Mode)) ↔
      mode' = mode &&& ~~~(0o777 : Mode) ||| n := by
  constructor
  · rintro ⟨low, high⟩
    rw [← low, ← high]
    ext i inside
    interval_cases i <;> simp
  · rintro rfl
    rw [BitVec.eq_of_getLsbD_eq_iff] at nine
    refine ⟨?_, ?_⟩
    · ext i inside
      have bit := nine i inside
      interval_cases i <;> simp at bit ⊢ <;> exact bit
    · ext i inside
      have bit := nine i inside
      interval_cases i <;> simp at bit ⊢ <;> simp [bit]

def ownerBits (mode : Mode) : BitVec 3 := (mode >>> 6).setWidth 3

def otherBits (mode : Mode) : BitVec 3 := mode.setWidth 3

theorem ownerBits_listMode (mode owner group other : Mode) (mask : Option Mode) :
    ownerBits (mode &&& ~~~(0o777 : Mode) ||| listMode owner group other mask) =
      owner.setWidth 3 := by
  rw [ownerBits, listMode]
  generalize mask.getD 0o7 = bits
  ext i inside
  interval_cases i <;> simp

theorem otherBits_listMode (mode owner group other : Mode) (mask : Option Mode) :
    otherBits (mode &&& ~~~(0o777 : Mode) ||| listMode owner group other mask) =
      other.setWidth 3 := by
  rw [otherBits, listMode]
  generalize mask.getD 0o7 = bits
  ext i inside
  interval_cases i <;> simp

/-- An access asked for with three bits, in the place of the owner's. -/
def accessMode (bits : BitVec 3) : BitVec 32 := bits.setWidth 32 <<< 6

/-- Three bits are granted if they are among some others. -/
def grants (granted bits : BitVec 3) : Option Errno :=
  if bits &&& granted = bits then none else some .eacces

theorem modeCheck_accessMode (bits : BitVec 3) (perm : Mode) :
    modeCheck (accessMode bits) (perm.setWidth 32 <<< 6) = grants (perm.setWidth 3) bits := by
  have same : accessMode bits &&& perm.setWidth 32 <<< 6 = accessMode bits ↔
      bits &&& perm.setWidth 3 = bits := by
    simp only [BitVec.eq_of_getLsbD_eq_iff]
    constructor
    · intro all i inside
      have bit := all (i + 6) (by omega)
      interval_cases i <;> simpa [accessMode] using bit
    · intro all i inside
      have bit0 := all 0 (by omega)
      have bit1 := all 1 (by omega)
      have bit2 := all 2 (by omega)
      interval_cases i <;> simp [accessMode] at bit0 bit1 bit2 ⊢ <;> assumption
  rw [modeCheck, grants]
  simp only [same]

/-! ### Lists that are accepted -/

/-- The permissions that entries have for a kind. -/
def permOf (entries : List Aclent) (kind : Kind) : Mode :=
  (entries.find? fun e => e.is kind).elim 0 Aclent.perm

/-- The mask among some entries. -/
def maskOf (entries : List Aclent) : Option Mode :=
  (entries.find? fun e => e.is .classObj).map Aclent.perm

/-- The permission bits that entries ask for: those of the owner, of the group under the mask, and
of others. -/
def aclMode (entries : List Aclent) : Mode :=
  listMode (permOf entries .userObj) (permOf entries .groupObj) (permOf entries .otherObj)
    (maskOf entries)

theorem filter_eq_of_perm {α : Type*} {l l' : List α} {p : α → Bool} (perm : l.Perm l')
    (few : l.countP p ≤ 1) :
    l.filter p = l'.filter p := by
  have filtered := perm.filter p
  rw [countP_eq_length_filter] at few
  match same : l.filter p, few with
  | [], _ =>
    rw [same] at filtered
    exact filtered.nil_eq
  | [x], _ =>
    rw [same] at filtered
    exact (perm_singleton.1 filtered.symm).symm
  | _ :: _ :: _, few =>
    simp only [length_cons] at few
    omega

theorem find?_eq_of_perm {α : Type*} {l l' : List α} {p : α → Bool} (perm : l.Perm l')
    (few : l.countP p ≤ 1) :
    l.find? p = l'.find? p := by
  rw [← head?_filter, ← head?_filter, filter_eq_of_perm perm few]

theorem counts_of_valid (valid : aclValidate (some entries) .aclCheck = none) :
    (entries.countP fun e => e.is .userObj) = 1 ∧ (entries.countP fun e => e.is .groupObj) = 1 ∧
      (entries.countP fun e => e.is .otherObj) = 1 ∧
        (entries.countP fun e => e.is .classObj) ≤ 1 := by
  simp only [aclValidate, ite_some_eq_none] at valid
  obtain ⟨-, -, -, counts, -⟩ := valid
  rw [not_or, not_or, not_or, not_not, not_not, not_not, Nat.not_lt] at counts
  exact counts

theorem entriesOf_single (one : (entries.countP fun e => e.is kind) = 1) :
    ∃ entry, entriesOf entries kind = [entry] ∧ entry.perm = permOf entries kind := by
  rw [countP_eq_length_filter] at one
  obtain ⟨e, filtered⟩ := length_eq_one_iff.1 one
  refine ⟨⟨e.perm, e.id⟩, by rw [entriesOf, filtered]; rfl, ?_⟩
  rw [permOf, ← head?_filter, filtered]
  rfl

/-- A list in memory that holds what entries ask for. -/
structure Holds (acl : IcAcl) (entries : List Aclent) : Prop where
  owner : ∃ entry, acl.owner = [entry] ∧ entry.perm = permOf entries .userObj
  group : ∃ entry, acl.group = [entry] ∧ entry.perm = permOf entries .groupObj
  other : ∃ entry, acl.other = [entry] ∧ entry.perm = permOf entries .otherObj
  users : acl.users.Perm (entriesOf entries .user)
  groups : acl.groups.Perm (entriesOf entries .group)
  mask : acl.mask = maskOf entries

theorem Holds.of_valid {sorted : List Aclent} (perm : sorted.Perm entries)
    (valid : aclValidate (some sorted) .aclCheck = none) :
    Holds (formAll Aclent.is sorted) entries := by
  obtain ⟨owners, groups, others, classes⟩ := counts_of_valid valid
  have same : ∀ kind, (sorted.countP fun e => e.is kind) = 1 →
      permOf sorted kind = permOf entries kind := by
    intro kind one
    rw [permOf, permOf, find?_eq_of_perm perm one.le]
  obtain ⟨owner, owner_eq, owner_perm⟩ := entriesOf_single owners
  obtain ⟨group, group_eq, group_perm⟩ := entriesOf_single groups
  obtain ⟨other, other_eq, other_perm⟩ := entriesOf_single others
  rw [formAll_is]
  refine ⟨⟨owner, owner_eq, owner_perm.trans (same _ owners)⟩,
    ⟨group, group_eq, group_perm.trans (same _ groups)⟩,
    ⟨other, other_eq, other_perm.trans (same _ others)⟩, ?_, ?_, ?_⟩
  · exact (perm.filter _).map _
  · exact (perm.filter _).map _
  · rw [maskOf, ← find?_eq_of_perm perm classes]

theorem sortEntries_some {sorted : Option (List Aclent)}
    (eq : sortEntries (some entries) = some sorted) :
    ∃ l, sorted = some l ∧ l.Perm entries := by
  rw [sortEntries] at eq
  obtain ⟨l, sorted_eq, rfl⟩ := map_eq_some_iff.1 eq
  exact ⟨l, rfl, ksort_perm sorted_eq⟩

/-- `vsecattr2aclentry` makes a list that holds what the entries ask for. -/
theorem Holds.of_accepted {dfaclentp : Option (List Aclent)}
    (eq : vsecattr2aclentry addr ⟨some entries, dfaclentp⟩ = .ok (.ok sp)) :
    Holds sp.a entries := by
  rw [vsecattr2aclentry] at eq
  split at eq
  next acl dfacl sorted_acl sorted_dfacl =>
    split at eq
    next => exact nomatch eq
    next valid =>
      split at eq
      next => exact nomatch eq
      next =>
        obtain ⟨l, rfl, perm⟩ := sortEntries_some sorted_acl
        obtain rfl := Except.ok.inj (Except.ok.inj eq)
        exact Holds.of_valid perm valid
  next => exact nomatch eq

theorem setWho_single (who : ℤ) (entry : UfsAcl) :
    setWho who [entry] = [{ entry with who := who }] :=
  rfl

/-- The list of the file has its owner and group. -/
structure HoldsFor (acl : IcAcl) (entries : List Aclent)
    (ip : Inode) : Prop extends Holds acl entries where
  owner_who : ∀ entry ∈ acl.owner, entry.who = ip.uid
  group_who : ∀ entry ∈ acl.group, entry.who = ip.gid

theorem Holds.ownedBy (holds : Holds sp.a entries) (ip : Inode) :
    HoldsFor (sp.ownedBy ip).a entries ip := by
  obtain ⟨owner, owner_eq, owner_perm⟩ := holds.owner
  obtain ⟨group, group_eq, group_perm⟩ := holds.group
  refine ⟨⟨⟨{ owner with who := ip.uid }, ?_, owner_perm⟩,
    ⟨{ group with who := ip.gid }, ?_, group_perm⟩, holds.other,
    holds.users, holds.groups, holds.mask⟩, fun entry member => ?_, fun entry member => ?_⟩
  · simp only [Si.ownedBy, owner_eq, setWho_single]
  · simp only [Si.ownedBy, group_eq, setWho_single]
  · simp only [Si.ownedBy, owner_eq, setWho_single, mem_singleton] at member
    rw [member]
  · simp only [Si.ownedBy, group_eq, setWho_single, mem_singleton] at member
    rw [member]

/-! ### Access -/

/-- A user who is not the owner, is not listed, and is in neither the group of the file nor a listed
one. -/
structure Unlisted (ip : Inode) (entries : List Aclent) (cr : Cred) : Prop where
  not_owner : cr.uid ≠ ip.uid
  not_user : ∀ e ∈ entries, e.is .user = true → e.id ≠ cr.uid
  not_group : groupmember ip.gid cr = false
  not_member : ∀ e ∈ entries, e.is .group = true → groupmember e.id cr = false

theorem ufsAclAccess_owner (holds : HoldsFor sp.a entries ip) {cr : Cred}
    (is_owner : cr.uid = ip.uid) (bits : BitVec 3) :
    ufsAclAccess sp (accessMode bits) cr =
      .ok (grants ((permOf entries .userObj).setWidth 3) bits) := by
  obtain ⟨owner, owner_eq, owner_perm⟩ := holds.owner
  have who_eq := holds.owner_who owner (by rw [owner_eq]; exact mem_singleton.2 rfl)
  simp only [ufsAclAccess, owner_eq, who_eq, is_owner, if_true, modeCheck_accessMode, owner_perm]

theorem ufsAclAccess_unlisted (holds : HoldsFor sp.a entries ip) {cr : Cred}
    (unlisted : Unlisted ip entries cr) (bits : BitVec 3) :
    ufsAclAccess sp (accessMode bits) cr =
      .ok (grants ((permOf entries .otherObj).setWidth 3) bits) := by
  obtain ⟨owner, owner_eq, -⟩ := holds.owner
  obtain ⟨group, group_eq, -⟩ := holds.group
  obtain ⟨other, other_eq, other_perm⟩ := holds.other
  have owner_who := holds.owner_who owner (by rw [owner_eq]; exact mem_singleton.2 rfl)
  have group_who := holds.group_who group (by rw [group_eq]; exact mem_singleton.2 rfl)
  have no_user : (sp.a.users.find? fun entry => entry.who = cr.uid) = none := by
    rw [find?_eq_none]
    intro entry member
    rw [holds.users.mem_iff, entriesOf, List.mem_map] at member
    obtain ⟨e, in_filter, rfl⟩ := member
    obtain ⟨in_entries, is_user⟩ := mem_filter.1 in_filter
    rw [decide_eq_true_eq]
    exact unlisted.not_user e in_entries is_user
  have no_group : (sp.a.groups.filter fun entry => groupmember entry.who cr) = [] := by
    rw [filter_eq_nil_iff]
    intro entry member
    rw [holds.groups.mem_iff, entriesOf, List.mem_map] at member
    obtain ⟨e, in_filter, rfl⟩ := member
    obtain ⟨in_entries, is_group⟩ := mem_filter.1 in_filter
    rw [unlisted.not_member e in_entries is_group]
    exact nofun
  simp only [ufsAclAccess, owner_eq, owner_who, if_neg unlisted.not_owner, no_user, group_eq,
    group_who, unlisted.not_group, no_group, other_eq, modeCheck_accessMode, other_perm]
  rfl

/-! ### Storing -/

theorem siCacheaGet_same {chain : List Cached} {csp : Si}
    (found : siCacheaGet chain sp = some csp) : csp.a = sp.a := by
  rw [siCacheaGet] at found
  obtain ⟨entry, in_chain, rfl⟩ := map_eq_some_iff.1 found
  have matching := find?_some in_chain
  simp only [decide_eq_true_eq] at matching
  obtain ⟨-, -, -, -, same⟩ := matching
  simp only [siCmp, Bool.not_eq_true', Bool.or_eq_false_iff, decide_eq_false_iff_not,
    not_not] at same
  exact same.1.2

/-- The loop ends with a list of the same entries: the one that the file has, or another one. -/
theorem search_same {views : List View} :
    (search ip sp views = .own → ∃ csp, ip.ufsAcl = some csp ∧ csp.a = sp.a) ∧
      ∀ csp, search ip sp views = .cached csp → csp.a = sp.a := by
  induction views with
  | nil => exact ⟨nofun, fun _ => nofun⟩
  | cons view views ih =>
    rw [search]
    split
    next => exact ⟨nofun, fun _ => nofun⟩
    next csp found =>
      split
      next own => exact ⟨fun _ => ⟨csp, own, siCacheaGet_same found⟩, fun _ => nofun⟩
      next =>
        split
        next => exact ⟨nofun, fun _ => nofun⟩
        next =>
          split
          next => exact ih
          next =>
            split
            next => exact ih
            next csp' found' =>
              split
              next => exact ih
              next =>
                refine ⟨nofun, fun csp'' eq => ?_⟩
                obtain rfl := Search.cached.inj eq
                exact siCacheaGet_same found'

/-- A list that is switched to gives the file its permission bits. -/
theorem switchshadows_mode (holds : HoldsFor sp.a entries ip)
    (eq : switchshadows env ip sp = .returns none ip') :
    ip'.mode = ip.mode &&& ~~~(0o777 : Mode) ||| aclMode entries ∧ ip'.ufsAcl = some sp ∧
      ip'.uid = ip.uid ∧
      ip'.gid = ip.gid := by
  obtain ⟨owner, owner_eq, owner_perm⟩ := holds.owner
  obtain ⟨group, group_eq, group_perm⟩ := holds.group
  obtain ⟨other, other_eq, other_perm⟩ := holds.other
  have owner_who := holds.owner_who owner (by rw [owner_eq]; exact mem_singleton.2 rfl)
  have group_who := holds.group_who group (by rw [group_eq]; exact mem_singleton.2 rfl)
  simp only [switchshadows, owner_eq, group_eq, other_eq] at eq
  split at eq
  next => exact nomatch eq
  next =>
    obtain ⟨-, rfl⟩ := Result.returns.inj eq
    refine ⟨?_, rfl, owner_who, group_who⟩
    rw [followAcl_eq, owner_perm, group_perm, other_perm, holds.mask]
    rfl

/-- `ufs_si_store` either finds the list that the file has and leaves the file alone, or switches to
a list of the same entries. -/
theorem ufsSiStore_mode (holds : HoldsFor sp.a entries ip) (same_dev : sp.dev = ip.dev)
    (eq : ufsSiStore env ip sp = .returns none ip') :
    (search ip sp env.views = .own ∧ ip' = ip ∧ ∃ csp, ip.ufsAcl = some csp ∧
      HoldsFor csp.a entries ip) ∨
      search ip sp env.views ≠ .own ∧ ip'.mode = ip.mode &&& ~~~(0o777 : Mode) ||| aclMode entries ∧
        ip'.uid = ip.uid ∧
        ip'.gid = ip.gid ∧ ∃ csp, ip'.ufsAcl = some csp ∧ HoldsFor csp.a entries ip := by
  have on_dev : { sp with dev := ip.dev } = sp := by rw [← same_dev]
  obtain ⟨own, cached⟩ := @search_same ip sp env.views
  simp only [ufsSiStore, on_dev] at eq
  split at eq
  next => exact nomatch eq
  next is_own =>
    obtain ⟨-, rfl⟩ := Result.returns.inj eq
    obtain ⟨csp, has, same⟩ := own is_own
    exact Or.inl ⟨is_own, rfl, csp, has, by rwa [same]⟩
  next => exact nomatch (Result.returns.inj eq).1
  next csp is_cached =>
    have holds' : HoldsFor csp.a entries ip := by rwa [cached csp is_cached]
    obtain ⟨mode_eq, has, uid_eq, gid_eq⟩ := switchshadows_mode holds' eq
    exact Or.inr ⟨by rw [is_cached]; exact nofun, mode_eq, uid_eq, gid_eq, csp, has, holds'⟩
  next is_miss =>
    split at eq
    next => exact nomatch (Result.returns.inj eq).1
    next => exact nomatch (Result.returns.inj eq).1
    next shadow _ _ =>
      have holds' : HoldsFor { sp with dev := ip.dev, shadow := shadow }.a entries ip := holds
      obtain ⟨mode_eq, has, uid_eq, gid_eq⟩ := switchshadows_mode holds' eq
      exact Or.inr ⟨by rw [is_miss]; exact nofun, mode_eq, uid_eq, gid_eq, _, has, holds'⟩

/-- Entries that the mode can hold: no listed users or groups, no mask, and no defaults. -/
def Plain (entries : List Aclent) (dfaclentp : Option (List Aclent)) : Prop :=
  (∀ e ∈ entries, e.is .user = false ∧ e.is .group = false ∧ e.is .classObj = false) ∧
    ∀ e ∈ dfaclentp.getD [], ∀ kind, e.isDef kind = false

theorem form_ne_empty {test : Aclent → Kind → Bool} {acl : IcAcl} (is : test e kind = true) :
    form test e acl ≠ .empty := by
  rw [form, IcAcl.empty]
  split_ifs with owner group other user mask groups
  · exact fun eq => cons_ne_nil _ _ (congrArg IcAcl.owner eq)
  · exact fun eq => cons_ne_nil _ _ (congrArg IcAcl.group eq)
  · exact fun eq => cons_ne_nil _ _ (congrArg IcAcl.other eq)
  · exact fun eq => cons_ne_nil _ _ (congrArg IcAcl.users eq)
  · exact fun eq => some_ne_none _ (congrArg IcAcl.mask eq)
  · exact fun eq => cons_ne_nil _ _ (congrArg IcAcl.groups eq)
  · cases kind <;> contradiction

theorem formAll_eq_empty {test : Aclent → Kind → Bool} {entries : List Aclent} :
    formAll test entries = .empty ↔ ∀ e ∈ entries, ∀ kind, test e kind = false := by
  induction entries with
  | nil => exact ⟨fun _ _ => nofun, fun _ => rfl⟩
  | cons e entries ih =>
    have step : formAll test (e :: entries) = form test e (formAll test entries) := rfl
    rw [step, forall_mem_cons]
    by_cases of_kind : ∃ kind, test e kind = true
    · obtain ⟨kind, is⟩ := of_kind
      refine iff_of_false (form_ne_empty is) fun all => ?_
      rw [all.1 kind] at is
      exact nomatch is
    · have is_not : ∀ kind, test e kind = false := fun kind => Bool.eq_false_iff.2 fun is =>
        of_kind ⟨kind, is⟩
      rw [form]
      simp only [is_not]
      exact ih.trans ⟨fun all => ⟨fun _ => trivial, all⟩, fun all => all.2⟩

theorem entriesOf_eq_nil : entriesOf entries kind = [] ↔ ∀ e ∈ entries, e.is kind = false := by
  rw [entriesOf, map_eq_nil_iff, filter_eq_nil_iff]
  simp only [Bool.not_eq_true]

theorem maskOf_eq_none : maskOf entries = none ↔ ∀ e ∈ entries, e.is .classObj = false := by
  rw [maskOf, map_eq_none_iff, find?_eq_none]
  simp only [Bool.not_eq_true]

theorem accepted_defaults {vsap : Vsecattr} (eq : vsecattr2aclentry addr vsap = .ok (.ok sp)) :
    sp.d = .empty ↔ ∀ e ∈ vsap.dfaclentp.getD [], ∀ kind, e.isDef kind = false := by
  rw [vsecattr2aclentry] at eq
  split at eq
  next acl dfacl sorted_acl sorted_dfacl =>
    split at eq
    next => exact nomatch eq
    next =>
      split at eq
      next => exact nomatch eq
      next =>
        obtain rfl := Except.ok.inj (Except.ok.inj eq)
        dsimp only
        rw [formAll_eq_empty]
        cases given : vsap.dfaclentp with
        | none =>
          rw [given] at sorted_dfacl
          obtain rfl := some.inj sorted_dfacl
          exact Iff.rfl
        | some entries =>
          rw [given] at sorted_dfacl
          obtain ⟨l, rfl, perm⟩ := sortEntries_some sorted_dfacl
          simp only [getD_some, perm.mem_iff]
  next => exact nomatch eq

/-- The list needs no shadow inode if the mode can hold its entries. -/
theorem plain_iff {dfaclentp : Option (List Aclent)}
    (eq : vsecattr2aclentry addr ⟨some entries, dfaclentp⟩ = .ok (.ok sp)) :
    (sp.ownedBy ip).plain = true ↔ Plain entries dfaclentp := by
  have holds := (Holds.of_accepted eq).ownedBy ip
  obtain ⟨owner, owner_eq, -⟩ := holds.owner
  obtain ⟨group, group_eq, -⟩ := holds.group
  obtain ⟨other, other_eq, -⟩ := holds.other
  have users_nil : (sp.ownedBy ip).a.users = [] ↔ ∀ e ∈ entries, e.is .user = false := by
    rw [← entriesOf_eq_nil]
    exact ⟨fun nil => (nil ▸ holds.users).nil_eq.symm, fun nil => (nil ▸ holds.users).eq_nil⟩
  have groups_nil : (sp.ownedBy ip).a.groups = [] ↔ ∀ e ∈ entries, e.is .group = false := by
    rw [← entriesOf_eq_nil]
    exact ⟨fun nil => (nil ▸ holds.groups).nil_eq.symm, fun nil => (nil ▸ holds.groups).eq_nil⟩
  have mask_none : (sp.ownedBy ip).a.mask = none ↔ ∀ e ∈ entries, e.is .classObj = false := by
    rw [holds.mask, maskOf_eq_none]
  have defaults : (sp.ownedBy ip).d = .empty ↔ ∀ e ∈ dfaclentp.getD [], ∀ kind,
      e.isDef kind = false :=
    @accepted_defaults sp addr ⟨some entries, dfaclentp⟩ eq
  simp only [Si.plain, owner_eq, group_eq, other_eq, Bool.and_eq_true, decide_eq_true_eq,
    isNone_iff_eq_none, mask_none, users_nil, groups_nil, defaults, Plain]
  constructor
  · rintro ⟨⟨⟨⟨-, no_mask⟩, no_user⟩, no_group⟩, no_default⟩
    exact ⟨fun e member => ⟨no_user e member, no_group e member, no_mask e member⟩, no_default⟩
  · rintro ⟨none_of, no_default⟩
    exact ⟨⟨⟨⟨by simp, fun e member => (none_of e member).2.2⟩,
      fun e member => (none_of e member).1⟩,
      fun e member => (none_of e member).2.1⟩, no_default⟩

/-- The permission bits of the mode are what the entries ask for, and the other bits are as they
were. -/
def ModeFollows (ip ip' : Inode) (entries : List Aclent) : Prop :=
  ip'.mode &&& 0o777 = aclMode entries ∧
    ip'.mode &&& ~~~(0o777 : Mode) = ip.mode &&& ~~~(0o777 : Mode)

/-- A stored list grants the owner and unlisted users what the mode says. -/
def AccessFollows (ip' : Inode) (entries : List Aclent) : Prop :=
  ∀ sp, ip'.ufsAcl = some sp → ∀ cr bits,
    (cr.uid = ip'.uid →
      ufsAclAccess sp (accessMode bits) cr = .ok (grants (ownerBits ip'.mode) bits)) ∧
      (Unlisted ip' entries cr →
        ufsAclAccess sp (accessMode bits) cr = .ok (grants (otherBits ip'.mode) bits))

/-- The cache has the very list that the file has already for these entries. -/
def FindsOwn (env : Env) (ip : Inode) (vsap : Vsecattr) : Prop :=
  ∃ sp, vsecattr2aclentry env.addr vsap = .ok (.ok sp) ∧ search ip (sp.ownedBy ip) env.views = .own

/-- Where the mode comes out right: entries that the mode can hold cover the bits 0366 of the old
mode, which is not sticky; and a file that has the list for the entries already has its mode too. -/
def ModeReady (env : Env) (ip : Inode) (entries : List Aclent)
    (dfaclentp : Option (List Aclent)) : Prop :=
  (Plain entries dfaclentp → ip.mode &&& 0o1366 &&& ~~~aclMode entries = 0) ∧
    (¬ Plain entries dfaclentp → FindsOwn env ip ⟨some entries, dfaclentp⟩ →
      ip.mode &&& 0o777 = aclMode entries)

theorem modeFollows_iff :
    ModeFollows ip ip' entries ↔ ip'.mode = ip.mode &&& ~~~(0o777 : Mode) ||| aclMode entries :=
  mode_eq_iff (listMode_le _ _ _ _)

theorem AccessFollows.of_mode (same_uid : ip'.uid = ip.uid) (same_gid : ip'.gid = ip.gid)
    (mode_eq : ip'.mode = ip.mode &&& ~~~(0o777 : Mode) ||| aclMode entries)
    (holds : ∀ sp, ip'.ufsAcl = some sp → HoldsFor sp.a entries ip) :
    AccessFollows ip' entries := by
  intro sp has cr bits
  have holds_sp := holds sp has
  refine ⟨fun is_owner => ?_, fun unlisted => ?_⟩
  · rw [ufsAclAccess_owner holds_sp (is_owner.trans same_uid), mode_eq, aclMode, ownerBits_listMode]
  · obtain ⟨not_owner, not_user, not_group, not_member⟩ := unlisted
    rw [same_uid] at not_owner
    rw [same_gid] at not_group
    rw [ufsAclAccess_unlisted holds_sp ⟨not_owner, not_user, not_group, not_member⟩, mode_eq,
      aclMode, otherBits_listMode]

/-- After `ufs_acl_set` the mode follows the entries, and the stored list grants what the mode says,
exactly if the old mode was ready for it. -/
theorem mode_follows_acl (env : Env) (ip ip' : Inode) (entries : List Aclent)
    (dfaclentp : Option (List Aclent)) (uid : ℤ)
    (eq : ufsAclSet env ip ⟨some entries, dfaclentp⟩ uid = .returns none ip') :
    ModeFollows ip ip' entries ∧ AccessFollows ip' entries ↔
      ModeReady env ip entries dfaclentp := by
  rw [ufsAclSet] at eq
  split at eq
  next => exact nomatch (Result.returns.inj eq).1
  next =>
    split at eq
    next => exact nomatch (Result.returns.inj eq).1
    next =>
      split at eq
      next => exact nomatch eq
      next => exact nomatch (Result.returns.inj eq).1
      next sp accepted =>
        have holds := (Holds.of_accepted accepted).ownedBy ip
        have finds_own : FindsOwn env ip ⟨some entries, dfaclentp⟩ ↔
            search ip (sp.ownedBy ip) env.views = .own := by
          refine ⟨?_, fun own => ⟨sp, accepted, own⟩⟩
          rintro ⟨sp', accepted', own⟩
          rw [accepted] at accepted'
          obtain rfl := Except.ok.inj (Except.ok.inj accepted')
          exact own
        obtain ⟨owner, owner_eq, owner_perm⟩ := holds.owner
        obtain ⟨group, group_eq, group_perm⟩ := holds.group
        obtain ⟨other, other_eq, other_perm⟩ := holds.other
        rw [ufsAclStore] at eq
        by_cases plain : Plain entries dfaclentp
        · rw [if_pos ((plain_iff accepted).2 plain)] at eq
          simp only [owner_eq, group_eq, other_eq] at eq
          obtain ⟨-, rfl⟩ := Result.returns.inj eq
          have no_mask : maskOf entries = none := maskOf_eq_none.2 fun e member =>
            (plain.1 e member).2.2
          have ready : ModeFollows ip
              { ip with
                ufsAcl := none, shadow := 0, mode := plainMode ip.mode owner group other } entries ↔
                ip.mode &&& 0o1366 &&& ~~~aclMode entries = 0 := by
            rw [modeFollows_iff, plainMode_eq, owner_perm, group_perm, other_perm, ← no_mask]
            exact masked_or_eq_iff ip.mode 777 0o777 (aclMode entries)
          rw [ready]
          refine ⟨fun follows => ⟨fun _ => follows.1, fun not_plain => absurd plain not_plain⟩,
            fun all => ⟨all.1 plain, ?_⟩⟩
          exact fun _ impossible => nomatch impossible
        · rw [if_neg fun is_plain => plain ((plain_iff accepted).1 is_plain),
            if_neg (by rw [owner_eq, group_eq]; simp)]
            at eq
          have ready : ModeReady env ip entries dfaclentp ↔
              (search ip (sp.ownedBy ip) env.views = .own →
                  ip.mode &&& 0o777 = aclMode entries) := by
            rw [ModeReady, finds_own]
            exact ⟨fun all => all.2 plain,
              fun own => ⟨fun is_plain => absurd is_plain plain, fun _ => own⟩⟩
          rw [ready]
          rcases ufsSiStore_mode holds rfl eq with
            ⟨own, rfl, csp, has, holds'⟩ | ⟨not_own, mode_eq, uid_eq, gid_eq, csp, has, holds'⟩
          · refine ⟨fun follows _ => follows.1.1, fun bits => ⟨⟨bits own, rfl⟩, ?_⟩⟩
            refine AccessFollows.of_mode rfl rfl (modeFollows_iff.1 ⟨bits own, rfl⟩) fun sp' has' =>
              ?_
            rw [has] at has'
            rwa [← some.inj has']
          · refine ⟨fun _ own => absurd own not_own, fun _ => ⟨modeFollows_iff.2 mode_eq, ?_⟩⟩
            refine AccessFollows.of_mode uid_eq gid_eq mode_eq fun sp' has' => ?_
            rw [has] at has'
            rwa [← some.inj has']

def quietEnv : Env := ⟨[⟨[], .error .eio, []⟩], .ok 9, none, none, 5⟩

/-- Entries for owner, group and others. -/
def threeEntries (owner group other : Mode) : List Aclent :=
  [⟨Kind.userObj.bit, 0, owner⟩, ⟨Kind.groupObj.bit, 0, group⟩, ⟨Kind.otherObj.bit, 0, other⟩]

def plainFile (mode : Mode) : Inode := ⟨mode, 10, 20, 1, 0, none⟩

theorem mode_follows_acl_plain :
    ModeFollows (plainFile 0o100400) (plainFile 0o100640) (threeEntries 0o6 0o4 0) ∧
      AccessFollows (plainFile 0o100640) (threeEntries 0o6 0o4 0) := by
  refine (mode_follows_acl quietEnv (plainFile 0o100400) (plainFile 0o100640)
    (threeEntries 0o6 0o4 0) none 10
    (by decide)).2 ⟨fun _ => by decide, fun not_plain => absurd ?_ not_plain⟩
  exact ⟨by decide, fun _ => nofun⟩

/-- A file with mode 0644 that is given the permissions 0444 keeps its mode. -/
theorem mode_not_cleared :
    ufsAclSet quietEnv (plainFile 0o100644) ⟨some (threeEntries 0o4 0o4 0o4), none⟩ 10 =
        .returns none (plainFile 0o100644) ∧
      ¬ ModeFollows (plainFile 0o100644) (plainFile 0o100644) (threeEntries 0o4 0o4 0o4) := by
  refine ⟨by decide, fun follows => ?_⟩
  exact absurd follows.1 (by decide)

end Sol25.Acl
