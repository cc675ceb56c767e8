import Sol25.Acl.Mode

/-!
# Setting a list is safe

`acl(SETACL)` stays inside its buffer, reads no entry that is not there, and changes nothing when it
fails; except where the size of the buffer wraps around, where all entries are defaults, and where
the old shadow inode cannot be read again.
-/

namespace Sol25.Acl

open List Option

variable {fs : Fs} {env : Env} {ip : Inode} {sp : Si} {uap : Uap} {uid : ℤ}
  {entries user buf : List Aclent}
  {result : Result}

/-- Others leave the cache alone while the loop of `ufs_si_store` looks at it. -/
def View.Calm (view : View) : Prop :=
  view.again = view.chain ∧ ∀ mode nlink, view.iget = .ok (mode, nlink) →
    mode &&& ifmt = ifshad ∧ 0 < nlink

/-- The file is as before: its mode, the link to its shadow inode, and its list in memory. -/
def Unchanged (ip ip' : Inode) : Prop :=
  ip'.mode = ip.mode ∧ ip'.shadow = ip.shadow ∧ ip'.ufsAcl = ip.ufsAcl

/-- A call without wild accesses, that leaves the file as it was if it fails, and comes back once
others leave the cache alone. -/
def Safe (env : Env) (ip : Inode) : Result → Prop
  | .fault _ => False
  | .retrying => ∀ view ∈ env.views, ¬ view.Calm
  | .returns none _ => True
  | .returns (some _) ip' => Unchanged ip ip'

theorem safe_error (err : Errno) : Safe env ip (.returns (some err) ip) := ⟨rfl, rfl, rfl⟩

/-! ### The cache -/

theorem search_retrying {views : List View} (retrying : search ip sp views = .retrying) :
    ∀ view ∈ views, ¬ view.Calm := by
  induction views with
  | nil => exact fun _ => (by rintro ⟨⟩)
  | cons view views ih =>
    rw [search] at retrying
    rw [forall_mem_cons]
    split at retrying
    next => cases retrying
    next csp found =>
      split at retrying
      next => cases retrying
      next =>
        split at retrying
        next => cases retrying
        next mode nlink got =>
          split at retrying
          next dead =>
            refine ⟨fun calm => ?_, ih retrying⟩
            obtain ⟨is_shadow, linked⟩ := calm.2 mode nlink got
            rcases dead with not_shadow | unlinked
            · exact not_shadow is_shadow
            · omega
          next =>
            split at retrying
            next lost =>
              refine ⟨fun calm => ?_, ih retrying⟩
              rw [calm.1, found] at lost
              cases lost
            next csp' found' =>
              split at retrying
              next differs =>
                refine ⟨fun calm => ?_, ih retrying⟩
                rw [calm.1, found] at found'
                exact differs (congrArg Si.shadow (some.inj found').symm)
              next => cases retrying

/-- The list that `ufs_si_store` switches the file to. -/
def target (env : Env) (ip : Inode) (sp : Si) : Option Si :=
  match search ip sp env.views, env.ialloc, env.rdwri with
  | .cached csp, _, _ => some csp
  | .miss, .ok shadow, none => some { sp with shadow := shadow }
  | _, _, _ => none

/-- A file that is switched to a list and stays as it is. -/
def Unmoved (ip : Inode) (sp : Si) : Prop :=
  ip.ufsAcl = some sp ∧ ip.shadow = sp.shadow ∧
    ∀ owner ∈ sp.a.owner, ∀ group ∈ sp.a.group, ∀ other ∈ sp.a.other,
      followAcl ip.mode owner group other sp.a.mask = ip.mode

/-- The switch to a list is safe if nothing has to be cleaned up, or if the old shadow inode can be
read. -/
theorem switchshadows_safe (holds : Holds sp.a entries) :
    Safe env ip (switchshadows env ip sp) ↔
      (ip.ufsAcl.isSome → env.oldIget.isSome → Unmoved ip sp) := by
  obtain ⟨owner, owner_eq, -⟩ := holds.owner
  obtain ⟨group, group_eq, -⟩ := holds.group
  obtain ⟨other, other_eq, -⟩ := holds.other
  simp only [switchshadows, owner_eq, group_eq, other_eq]
  split
  next failed =>
    simp only [failed, true_imp_iff, Safe, Unchanged, Unmoved, owner_eq, group_eq, other_eq,
      mem_singleton, forall_eq]
    constructor
    · rintro ⟨mode_eq, shadow_eq, acl_eq⟩
      exact ⟨acl_eq.symm, shadow_eq.symm, mode_eq⟩
    · rintro ⟨acl_eq, shadow_eq, mode_eq⟩
      exact ⟨mode_eq, shadow_eq.symm, acl_eq.symm⟩
  next fine => exact iff_of_true trivial fun has failed => absurd ⟨has, failed⟩ fine

/-- `ufs_si_store` is safe if the switch is. -/
theorem ufsSiStore_safe (holds : Holds sp.a entries) (same_dev : sp.dev = ip.dev) :
    Safe env ip (ufsSiStore env ip sp) ↔
      ∀ csp, target env ip sp = some csp → ip.ufsAcl.isSome → env.oldIget.isSome →
        Unmoved ip csp := by
  have on_dev : { sp with dev := ip.dev } = sp := by rw [← same_dev]
  simp only [ufsSiStore, on_dev, target]
  cases found : search ip sp env.views with
  | own => exact iff_of_true trivial fun _ => (by rintro ⟨⟩)
  | failed => exact iff_of_true (safe_error _) fun _ => (by rintro ⟨⟩)
  | retrying => exact iff_of_true (search_retrying found) fun _ => (by rintro ⟨⟩)
  | cached csp =>
    have holds' : Holds csp.a entries := by rwa [search_same.2 csp found]
    simp only [some.injEq, forall_eq']
    exact switchshadows_safe holds'
  | miss =>
    cases env.ialloc with
    | error err => exact iff_of_true (safe_error _) fun _ => (by rintro ⟨⟩)
    | ok shadow =>
      cases env.rdwri with
      | some err => exact iff_of_true (safe_error _) fun _ => (by rintro ⟨⟩)
      | none =>
        have holds' : Holds { sp with dev := ip.dev, shadow := shadow }.a entries := holds
        simp only [some.injEq, forall_eq', same_dev]
        exact switchshadows_safe holds'

/-! ### Sorting and splitting -/

theorem cmp2acls_ne_gt {x y : Aclent} : cmp2acls x y ≠ .gt ↔
    x.type.toInt < y.type.toInt ∨ x.type.toInt = y.type.toInt ∧
      (x.id < y.id ∨ x.id = y.id ∧ x.perm.toNat ≤ y.perm.toNat) := by
  rw [cmp2acls]
  split_ifs <;> simp <;> omega

theorem cmp2acls_total (x y : Aclent) : cmp2acls x y ≠ .gt ∨ cmp2acls y x ≠ .gt := by
  rw [cmp2acls_ne_gt, cmp2acls_ne_gt]
  omega

theorem cmp2acls_trans (x y z : Aclent) (le : cmp2acls x y ≠ .gt) (le' : cmp2acls y z ≠ .gt) :
    cmp2acls x z ≠ .gt := by
  rw [cmp2acls_ne_gt] at le le' ⊢
  omega

theorem cmp2acls_type {x y : Aclent} (le : cmp2acls x y ≠ .gt) : x.type.toInt ≤ y.type.toInt := by
  rw [cmp2acls_ne_gt] at le
  omega

theorem firstDefault_inside {n k : ℕ} (inside : k + n ≤ buf.length) :
    firstDefault buf n k = some (k + ((buf.drop k).take n).findIdx Aclent.default) := by
  induction n generalizing k with
  | zero => rw [firstDefault, take_zero, findIdx_nil, Nat.add_zero]
  | succ n ih =>
    have at_k : buf[k]? = some buf[k] := getElem?_eq_getElem (by omega)
    rw [firstDefault, at_k, drop_eq_getElem_cons (by omega), take_succ_cons, findIdx_cons]
    dsimp only
    cases is_default : buf[k].default with
    | true => rfl
    | false =>
      rw [if_neg nofun, ih (by omega)]
      simp only [cond_false]
      congr 1
      omega

/-- What `cacl` makes of sorted entries: those in front of the first default, and the rest. -/
def splitSorted (buf : List Aclent) : Vsecattr :=
  let numacls := buf.findIdx Aclent.default
  ⟨if numacls = 0 then none else some (buf.take numacls), if numacls < buf.length then
    some (buf.drop numacls) else none⟩

theorem caclSplit_eq : caclSplit fs env ip buf.length buf uid =
    if (splitSorted buf).dfaclentp ≠ none ∧ ip.mode &&& ifmt ≠ ifdir then .returns (some .einval) ip
    else ufsSetsecattr fs env ip (splitSorted buf) uid := by
  have found : firstDefault buf buf.length 0 = some (buf.findIdx Aclent.default) := by
    rw [firstDefault_inside (by omega), Nat.zero_add, drop_zero, take_length]
  rw [caclSplit, found, splitSorted]
  by_cases has_default : buf.findIdx Aclent.default < buf.length
  · simp [has_default]
  · simp [has_default]

theorem default_of_le {e e' : Aclent} (is_default : e.default = true) (is_known : e.known = true)
    (is_known' : e'.known = true) (le : e.type.toInt ≤ e'.type.toInt) : e'.default = true := by
  simp only [Aclent.known, kinds, any_cons, any_nil, Bool.or_false, Bool.or_eq_true,
    Aclent.is, Aclent.isDef, decide_eq_true_eq] at is_known is_known'
  simp only [Aclent.default, decide_eq_true_eq] at is_default ⊢
  rcases is_known with (h | h) | (h | h) | (h | h) | (h | h) | (h | h) | (h | h) <;>
    rcases is_known' with (h' | h') | (h' | h') | (h' | h') | (h' | h') | (h' | h') | (h' | h') <;>
    rw [h] at is_default le <;> rw [h'] at le ⊢ <;> revert is_default le <;> decide

theorem known_of_valid {flag : Flag} (valid : aclValidate (some entries) flag = none) :
    ∀ e ∈ entries, e.known = true := by
  simp only [aclValidate, ite_some_eq_none] at valid
  simpa using valid.2.2.1

theorem accepted_known {addr : ℕ} {aclentp : Option (List Aclent)}
    (eq : vsecattr2aclentry addr ⟨aclentp, some entries⟩ = .ok (.ok sp)) :
    ∀ e ∈ entries, e.known = true := by
  rw [vsecattr2aclentry] at eq
  split at eq
  next acl dfacl sorted_acl sorted_dfacl =>
    split at eq
    next => cases eq
    next =>
      split at eq
      next => cases eq
      next valid =>
        obtain ⟨l, rfl, perm⟩ := sortEntries_some sorted_dfacl
        exact fun e member => known_of_valid valid e (perm.mem_iff.2 member)
  next => cases eq

/-- Accepted entries have no list for the file exactly if all of them are defaults. -/
theorem aclentp_eq_none_iff {addr : ℕ} (nonempty : buf ≠ [])
    (sorted : buf.Pairwise fun x y => cmp2acls x y ≠ .gt)
    (accepted : vsecattr2aclentry addr (splitSorted buf) = .ok (.ok sp)) :
    (splitSorted buf).aclentp = none ↔ ∀ e ∈ buf, e.default = true := by
  obtain ⟨first, rest, rfl⟩ := exists_cons_of_ne_nil nonempty
  have none_iff : (splitSorted (first :: rest)).aclentp = none ↔ first.default = true := by
    rw [splitSorted, findIdx_cons]
    cases first.default <;> simp
  rw [none_iff, forall_mem_cons]
  refine ⟨fun is_default => ⟨is_default, fun e member => ?_⟩, fun all => all.1⟩
  have split_eq : splitSorted (first :: rest) = ⟨none, some (first :: rest)⟩ := by
    rw [splitSorted, findIdx_cons, is_default]
    simp
  rw [split_eq] at accepted
  have known := accepted_known accepted
  have le := cmp2acls_type ((pairwise_cons.1 sorted).1 e member)
  exact default_of_le is_default (known first mem_cons_self)
    (known e (mem_cons_of_mem first member)) le

/-! ### Setting a list -/

/-- A list without entries for the file is stored through an entry that is not there. -/
theorem ufsAclStore_absent {addr : ℕ} {dfaclentp : Option (List Aclent)}
    (accepted : vsecattr2aclentry addr ⟨none, dfaclentp⟩ = .ok (.ok sp)) :
    ufsAclStore env ip sp = .fault .absent := by
  have empty : sp.a = .empty := by
    rw [vsecattr2aclentry] at accepted
    split at accepted
    next acl dfacl sorted_acl sorted_dfacl =>
      obtain rfl := some.inj sorted_acl
      split at accepted
      next => cases accepted
      next =>
        split at accepted
        next => cases accepted
        next =>
          obtain rfl := Except.ok.inj (Except.ok.inj accepted)
          rfl
    next => cases accepted
  have no_owner : (sp.ownedBy ip).a.owner = [] := by
    rw [Si.ownedBy, empty]
    rfl
  have not_plain : (sp.ownedBy ip).plain = false := by
    simp only [Si.plain, no_owner]
    rfl
  rw [ufsAclStore, not_plain, if_neg (by rintro ⟨⟩), if_pos (.inl no_owner)]

theorem ufsAclStore_safe {addr : ℕ} {dfaclentp : Option (List Aclent)}
    (accepted : vsecattr2aclentry addr ⟨some entries, dfaclentp⟩ = .ok (.ok sp)) :
    Safe env ip (ufsAclStore env ip sp) ↔ ((sp.ownedBy ip).plain = false →
      ∀ csp, target env ip (sp.ownedBy ip) = some csp → ip.ufsAcl.isSome → env.oldIget.isSome →
        Unmoved ip csp) := by
  have holds := (Holds.of_accepted accepted).ownedBy ip
  obtain ⟨owner, owner_eq, -⟩ := holds.owner
  obtain ⟨group, group_eq, -⟩ := holds.group
  obtain ⟨other, other_eq, -⟩ := holds.other
  rw [ufsAclStore]
  cases plain : (sp.ownedBy ip).plain with
  | true =>
    rw [if_pos rfl]
    simp only [owner_eq, group_eq, other_eq]
    exact iff_of_true trivial (by rintro ⟨⟩)
  | false =>
    rw [if_neg (by rintro ⟨⟩), if_neg (by rw [owner_eq, group_eq]; simp),
      ufsSiStore_safe holds.toHolds rfl]
    exact ⟨fun moves _ => moves, fun moves => moves rfl⟩

/-- The file system lets a user set the list of a file. -/
structure Permitted (fs : Fs) (ip : Inode) (uid : ℤ) : Prop where
  nosetsec : fs.nosetsec = false
  lockfs : fs.lockfs = none
  type : ip.mode &&& ifmt = ifreg ∨ ip.mode &&& ifmt = ifdir ∨ ip.mode &&& ifmt = ififo
  owner : uid = ip.uid

theorem vsecattr2aclentry_inside (addr : ℕ) (vsap : Vsecattr) :
    ∃ accepted, vsecattr2aclentry addr vsap = .ok accepted := by
  have sorts : ∀ aclentp, ∃ sorted, sortEntries aclentp = some sorted := by
    intro aclentp
    cases aclentp with
    | none => exact ⟨none, rfl⟩
    | some entries =>
      obtain ⟨sorted, eq⟩ := @ksort_inside Aclent cmp2acls entries entries.length rfl
      exact ⟨some sorted, by rw [sortEntries, eq]; rfl⟩
  obtain ⟨acl, acl_eq⟩ := sorts vsap.aclentp
  obtain ⟨dfacl, dfacl_eq⟩ := sorts vsap.dfaclentp
  rw [vsecattr2aclentry, acl_eq, dfacl_eq]
  dsimp only
  split
  next => exact ⟨_, rfl⟩
  next => split <;> exact ⟨_, rfl⟩

theorem ufsSetsecattr_safe {vsap : Vsecattr} : Safe env ip (ufsSetsecattr fs env ip vsap uid) ↔
    (Permitted fs ip uid → ∀ sp, vsecattr2aclentry env.addr vsap = .ok (.ok sp) →
      Safe env ip (ufsAclStore env ip sp)) := by
  rw [ufsSetsecattr]
  split
  next refused =>
    refine iff_of_true (safe_error _) fun permitted => ?_
    rw [permitted.nosetsec] at refused
    cases refused
  next allowed =>
    split
    next err locked =>
      refine iff_of_true (safe_error _) fun permitted => ?_
      rw [permitted.lockfs] at locked
      cases locked
    next unlocked =>
      rw [ufsAclSet]
      split
      next other_type =>
        refine iff_of_true (safe_error _) fun permitted => ?_
        exact absurd permitted.type (by rw [not_or, not_or]; exact other_type)
      next type_ok =>
        split
        next not_owner =>
          exact iff_of_true (safe_error _) fun permitted => absurd permitted.owner not_owner
        next is_owner =>
          have permitted : Permitted fs ip uid := by
            refine ⟨Bool.eq_false_iff.2 allowed, unlocked, ?_, not_not.1 is_owner⟩
            by_contra other_type
            rw [not_or, not_or] at other_type
            exact type_ok other_type
          obtain ⟨accepted, eq⟩ := vsecattr2aclentry_inside env.addr vsap
          rw [eq]
          cases accepted with
          | error err =>
            exact iff_of_true (safe_error _) fun _ _ impossible => by
              cases Except.ok.inj impossible
          | ok sp =>
            refine ⟨fun safe _ sp' same => ?_, fun safe => safe permitted sp rfl⟩
            rwa [← Except.ok.inj (Except.ok.inj same)]

/-! ### The system call -/

/-- What `cacl` makes of the entries of a user. -/
def sortAndSplit (user : List Aclent) : Vsecattr :=
  splitSorted ((ksort cmp2acls user user.length).getD user)

/-- Where storing a list is safe.  If the request passes all checks, not all entries are defaults,
and a switch from one stored list to another finds the old shadow inode again, or changes
nothing. -/
def StoreReady (fs : Fs) (env : Env) (ip : Inode) (user : List Aclent) (uid : ℤ) : Prop :=
  Permitted fs ip uid → ((∃ e ∈ user, e.default = true) → ip.mode &&& ifmt = ifdir) →
    ∀ sp, vsecattr2aclentry env.addr (sortAndSplit user) = .ok (.ok sp) →
      (∃ e ∈ user, e.default = false) ∧ ((sp.ownedBy ip).plain = false →
        ∀ csp, target env ip (sp.ownedBy ip) = some csp → ip.ufsAcl.isSome → env.oldIget.isSome →
          Unmoved ip csp)

/-- Where setting a list is safe.  Once the entries are copied in, their size does not wrap around
and they can be stored. -/
def SetReady (fs : Fs) (env : Env) (ip : Inode) (uap : Uap) (uid : ℤ) : Prop :=
  ∀ user, fs.setsecattr = true → uap.aclbuf = some user → 0 < uap.nentries → uap.copyin = true →
    uap.nentries * sizeofAclent < 2 ^ 32 ∧ StoreReady fs env ip user uid

theorem short_of_wraps {n : ℕ} (wraps : 2 ^ 32 ≤ n * sizeofAclent) :
    aclbsize n / sizeofAclent < n := by
  have small : n * sizeofAclent % 2 ^ 32 < 2 ^ 32 := Nat.mod_lt _ (by decide)
  rw [aclbsize, Nat.div_lt_iff_lt_mul (by decide)]
  omega

theorem dfaclentp_ne_none : (splitSorted buf).dfaclentp ≠ none ↔ ∃ e ∈ buf, e.default = true := by
  rw [splitSorted, ← findIdx_lt_length]
  by_cases has_default : buf.findIdx Aclent.default < buf.length <;> simp [has_default]

/-- Sorted entries are stored safely where the entries are ready for it. -/
theorem caclSplit_safe (nonempty : user ≠ [])
    (sorted_eq : ksort cmp2acls user user.length = some buf) :
    Safe env ip (caclSplit fs env ip user.length buf uid) ↔ StoreReady fs env ip user uid := by
  have perm := ksort_perm sorted_eq
  have sorted := ksort_sorted cmp2acls_total cmp2acls_trans rfl sorted_eq
  have nonempty' : buf ≠ [] := fun empty => nonempty (empty ▸ perm).nil_eq.symm
  have split_eq : sortAndSplit user = splitSorted buf := by
    rw [sortAndSplit, sorted_eq, getD_some]
  have same_default : (∃ e ∈ user, e.default = true) ↔ (splitSorted buf).dfaclentp ≠ none := by
    simp only [dfaclentp_ne_none, perm.mem_iff]
  have default_iff : ∀ sp, vsecattr2aclentry env.addr (splitSorted buf) = .ok (.ok sp) →
      ((splitSorted buf).aclentp ≠ none ↔ ∃ e ∈ user, e.default = false) := by
    intro sp accepted
    rw [Ne, aclentp_eq_none_iff nonempty' sorted accepted]
    simp only [not_forall, perm.mem_iff, Bool.not_eq_true, exists_prop]
  rw [← perm.length_eq, caclSplit_eq, StoreReady, split_eq, same_default]
  split
  next not_dir =>
    exact iff_of_true (safe_error _) fun _ is_dir => absurd (is_dir not_dir.1) not_dir.2
  next dir_ok =>
    have is_dir : (splitSorted buf).dfaclentp ≠ none → ip.mode &&& ifmt = ifdir := by
      intro has_defaults
      by_contra not_dir
      exact dir_ok ⟨has_defaults, not_dir⟩
    rw [ufsSetsecattr_safe]
    refine forall_congr' fun permitted => ?_
    rw [forall_prop_of_true is_dir]
    refine forall_congr' fun sp => forall_congr' fun accepted => ?_
    rw [← default_iff sp accepted]
    generalize splitSorted buf = vsap at accepted
    obtain ⟨aclentp, dfaclentp⟩ := vsap
    cases aclentp with
    | none =>
      rw [ufsAclStore_absent accepted]
      exact iff_of_false id fun all => all.1 rfl
    | some entries =>
      rw [ufsAclStore_safe accepted]
      exact ⟨fun moves => ⟨nofun, moves⟩, fun all => all.2⟩

/-- Setting a list is safe exactly where the request is ready for it. -/
theorem set_acl_safe (fs : Fs) (env : Env) (ip : Inode) (uap : Uap) (uid : ℤ)
    (given : ∀ user, uap.aclbuf = some user → user.length = uap.nentries) :
    Safe env ip (cacl fs env ip uap uid) ↔ SetReady fs env ip uap uid := by
  rw [cacl]
  split
  next no_op =>
    refine iff_of_true (safe_error _) fun _ has_op => ?_
    rw [has_op] at no_op
    exact nomatch no_op
  next has_op =>
    split
    next no_buf =>
      refine iff_of_true (safe_error _) fun user _ has_buf => ?_
      rw [no_buf] at has_buf
      exact nomatch has_buf
    next user has_buf =>
      have length_eq := given user has_buf
      split
      next none_given =>
        exact iff_of_true (safe_error _) fun _ _ _ pos => absurd none_given (by omega)
      next some_given =>
        split
        next failed =>
          refine iff_of_true (safe_error _) fun _ _ _ _ copied => ?_
          rw [copied] at failed
          exact nomatch failed
        next copied =>
          have ready : SetReady fs env ip uap uid ↔
              uap.nentries * sizeofAclent < 2 ^ 32 ∧ StoreReady fs env ip user uid := by
            refine ⟨fun all => all user (by simpa using has_op) has_buf (by omega)
              (by simpa using copied), ?_⟩
            rintro all user' - has_buf' - -
            rw [has_buf] at has_buf'
            obtain rfl := some.inj has_buf'
            exact all
          rw [ready]
          dsimp only
          by_cases wraps : 2 ^ 32 ≤ uap.nentries * sizeofAclent
          · -- Some entry is read behind the end of the buffer, by the sort or by the loop after it.
            have short := short_of_wraps wraps
            have many : 1 < uap.nentries := by
              simp only [sizeofAclent] at wraps
              omega
            have short' : (user.take (aclbsize uap.nentries / sizeofAclent)).length <
                uap.nentries := by
              rw [length_take]
              omega
            refine iff_of_false ?_ fun all => absurd all.1 (Nat.not_lt.2 wraps)
            by_cases no_bytes : aclbsize uap.nentries = 0
            · obtain ⟨n, n_eq⟩ : ∃ n, uap.nentries = n + 1 := ⟨uap.nentries - 1, by omega⟩
              rw [if_pos no_bytes, no_bytes, Nat.zero_div, take_zero]
              dsimp only
              rw [caclSplit, n_eq]
              exact id
            · rw [if_neg no_bytes, ksort_outside many short']
              exact id
          · have size_eq : aclbsize uap.nentries = uap.nentries * sizeofAclent :=
              Nat.mod_eq_of_lt (Nat.not_le.1 wraps)
            have has_bytes : aclbsize uap.nentries ≠ 0 := by
              rw [size_eq, sizeofAclent]
              omega
            have whole : user.take (aclbsize uap.nentries / sizeofAclent) = user := by
              rw [size_eq, Nat.mul_div_cancel _ (by decide), ← length_eq, take_length]
            have nonempty : user ≠ [] := by
              rintro rfl
              exact some_given length_eq.symm
            obtain ⟨buf, sorted_eq⟩ := @ksort_inside Aclent cmp2acls user user.length rfl
            rw [if_neg has_bytes, whole, ← length_eq, sorted_eq]
            dsimp only
            rw [caclSplit_safe nonempty sorted_eq]
            exact ⟨fun stores => ⟨by rw [length_eq]; exact Nat.not_le.1 wraps, stores⟩,
              fun all => all.2⟩

/-- A file system without peculiarities. -/
def plainFs : Fs := ⟨true, false, none⟩

theorem set_acl_safe_three :
    Safe quietEnv (plainFile 0o100644) (cacl plainFs quietEnv (plainFile 0o100644)
      ⟨3, some (threeEntries 0o6 0o4 0o4), true⟩ 10) := by
  refine (set_acl_safe plainFs quietEnv (plainFile 0o100644)
    ⟨3, some (threeEntries 0o6 0o4 0o4), true⟩ 10 ?_).2 ?_
  · intro user given
    rw [← some.inj given]
    rfl
  · intro user _ given _ _
    obtain rfl := some.inj given
    refine ⟨by decide,
      fun _ _ sp _ => ⟨⟨_, mem_cons_self, by decide⟩, fun _ _ _ impossible => nomatch impossible⟩⟩

/-- The three defaults of a directory, and no entries for the directory itself. -/
def threeDefaults : List Aclent :=
  [⟨aclDefault ||| Kind.userObj.bit, 0, 0o7⟩, ⟨aclDefault ||| Kind.groupObj.bit, 0, 0o5⟩,
    ⟨aclDefault ||| Kind.otherObj.bit, 0, 0o5⟩]

/-- Setting only defaults goes through an entry for the owner that is not there. -/
theorem only_defaults_fault :
    cacl plainFs quietEnv (plainFile 0o040755) ⟨3, some threeDefaults, true⟩ 10 = .fault .absent ∧
      ¬ Safe quietEnv (plainFile 0o040755)
        (cacl plainFs quietEnv (plainFile 0o040755) ⟨3, some threeDefaults, true⟩ 10) := by
  have faults : cacl plainFs quietEnv (plainFile 0o040755) ⟨3, some threeDefaults, true⟩ 10 =
      .fault .absent := by decide
  refine ⟨faults, ?_⟩
  rw [faults]
  exact id

end Sol25.Acl
