import Sol25.Acl.Ksort

/-!
# Access control lists of files

`acl(SETACL)` as far as the inode of the file: `cacl` of `syscall/acl.c` copies the entries in,
sorts them and splits them into the list of the file and the defaults of a directory; `ufs_acl_set`
of `fs/ufs/ufs_acl.c` checks both and stores them, with a shadow inode unless the mode says it all;
`ufs_acl_access` checks an access against a stored list.
-/

namespace Sol25.Acl

/-- The short modes of files and entries. -/
abbrev Mode := BitVec 16

/-- The type of a file, within its mode. -/
def ifmt : Mode := 0o170000

def ififo : Mode := 0o010000

def ifdir : Mode := 0o040000

def ifreg : Mode := 0o100000

def ifshad : Mode := 0o130000

/-- An `aclent_t`. -/
structure Aclent where
  type : BitVec 32
  id : ℤ
  perm : Mode
  deriving DecidableEq, Repr

/-- The kinds of entries, the bits of `a_type` without `ACL_DEFAULT`. -/
inductive Kind where
  | userObj
  | user
  | groupObj
  | group
  | classObj
  | otherObj
  deriving DecidableEq, Repr

/-- The bit of `a_type` for a kind of entries. -/
def Kind.bit : Kind → BitVec 32
  | userObj => 0x01
  | user => 0x02
  | groupObj => 0x04
  | group => 0x08
  | classObj => 0x10
  | otherObj => 0x20

def aclDefault : BitVec 32 := 0x1000

/-- The entry is of a kind, in the list of the file. -/
def Aclent.is (e : Aclent) (kind : Kind) : Bool := e.type = kind.bit

/-- The entry is of a kind, in the defaults. -/
def Aclent.isDef (e : Aclent) (kind : Kind) : Bool := e.type = aclDefault ||| kind.bit

def kinds : List Kind := [.userObj, .user, .groupObj, .group, .classObj, .otherObj]

/-- `a_type & ACL_DEFAULT`. -/
def Aclent.default (e : Aclent) : Bool := e.type &&& aclDefault ≠ 0

/-- The type of the entry is one that there is. -/
def Aclent.known (e : Aclent) : Bool := kinds.any fun kind => e.is kind || e.isDef kind

def cmp2acls (x y : Aclent) : Ordering :=
  if x.type.toInt < y.type.toInt then .lt
  else if x.type.toInt > y.type.toInt then .gt
  else if x.id < y.id then .lt
  else if x.id > y.id then .gt
  else if x.perm.toNat < y.perm.toNat then .lt
  else if x.perm.toNat > y.perm.toNat then .gt
  else .eq

inductive Errno where
  | einval
  | eacces
  | efault
  | eio
  | enosys
  | other (code : ℕ)
  deriving DecidableEq, Repr

/-! ### Checking -/

/-- The lists that `acl_validate` is called for. -/
inductive Flag where
  | aclCheck
  | defAclCheck
  deriving DecidableEq, Repr

def maxAclEntries : ℕ := 1024

/-- The first loop of `acl_validate`: no two neighbours of one type and id, and no permissions
beyond the three bits in front of another entry. -/
def neighboursOk : List Aclent → Bool
  | x :: y :: rest =>
    !((x.type = y.type && x.id = y.id) || 0o7 < x.perm.toNat) && neighboursOk (y :: rest)
  | _ => true

def aclValidate (aclentp : Option (List Aclent)) (flag : Flag) : Option Errno :=
  match aclentp with
  | none => none
  | some entries =>
    let n := fun kind => entries.countP fun e => e.is kind
    let nDef := fun kind => entries.countP fun e => e.isDef kind
    if entries = [] then some .einval
    else if !neighboursOk entries then some .einval
    else if !entries.all Aclent.known then some .einval
    else
      match flag with
      | .aclCheck =>
        if n .userObj ≠ 1 ∨ n .groupObj ≠ 1 ∨ n .otherObj ≠ 1 ∨ 1 < n .classObj then some .einval
        else if n .group ≠ 0 ∧ n .classObj = 0 then some .einval
        else if maxAclEntries <
            n .userObj + n .groupObj + n .otherObj + n .classObj + n .group + n .user then
              some .einval
        else none
      | .defAclCheck =>
        let numdefs := nDef .otherObj + nDef .userObj + nDef .groupObj
        if 1 < nDef .otherObj ∨ 1 < nDef .userObj ∨ 1 < nDef .groupObj ∨
          1 < nDef .classObj then some .einval
        else if numdefs ≠ 0 ∧ numdefs ≠ 3 then some .einval
        else if nDef .group ≠ 0 ∧ nDef .classObj = 0 then some .einval
        else if (nDef .user ≠ 0 ∨ nDef .group ≠ 0) ∧ numdefs ≠ 3 ∧
          nDef .classObj = 0 then some .einval
        else if maxAclEntries <
            nDef .userObj + nDef .groupObj + nDef .otherObj + nDef .classObj + nDef .user +
              nDef .group then
          some .einval
        else none

theorem ite_some_eq_none {α : Type*} {c : Prop} [Decidable c] {e : α} {x : Option α} :
    (if c then some e else x) = none ↔ ¬ c ∧ x = none := by
  by_cases holds : c <;> simp [holds]

/-! ### Lists in memory -/

/-- A `ufs_acl_t`. -/
structure UfsAcl where
  perm : Mode
  who : ℤ
  deriving DecidableEq, Repr

/-- An `ic_acl_t`.  The mask is there if `acl_ismask` is set. -/
structure IcAcl where
  owner : List UfsAcl
  group : List UfsAcl
  other : List UfsAcl
  users : List UfsAcl
  groups : List UfsAcl
  mask : Option Mode
  deriving DecidableEq, Repr

def IcAcl.empty : IcAcl := ⟨[], [], [], [], [], none⟩

/-- An `si_t`, with its address. -/
structure Si where
  addr : ℕ
  dev : ℕ
  shadow : ℕ
  a : IcAcl
  d : IcAcl
  deriving DecidableEq, Repr

/-- One entry is taken into a list, for the file or as a default as the test says. -/
def form (test : Aclent → Kind → Bool) (e : Aclent) (acl : IcAcl) : IcAcl :=
  if test e .userObj then { acl with owner := ⟨e.perm, e.id⟩ :: acl.owner }
  else if test e .groupObj then { acl with group := ⟨e.perm, e.id⟩ :: acl.group }
  else if test e .otherObj then { acl with other := ⟨e.perm, e.id⟩ :: acl.other }
  else if test e .user then { acl with users := ⟨e.perm, e.id⟩ :: acl.users }
  else if test e .classObj then { acl with mask := some e.perm }
  else if test e .group then { acl with groups := ⟨e.perm, e.id⟩ :: acl.groups }
  else acl

/-- The entries of an array, from the last to the first. -/
def formAll (test : Aclent → Kind → Bool) (entries : List Aclent) : IcAcl :=
  entries.foldr (form test) .empty

/-- What a caller gives: the list of the file and the defaults. -/
structure Vsecattr where
  aclentp : Option (List Aclent)
  dfaclentp : Option (List Aclent)
  deriving DecidableEq, Repr

/-- `ksort` of an array of entries, or of none. -/
def sortEntries : Option (List Aclent) → Option (Option (List Aclent))
  | none => some none
  | some entries => (ksort cmp2acls entries entries.length).map some

/-- What goes wrong beside errors: a read outside the buffer or of a misaligned word, or a read of
an entry that is not there. -/
inductive Fault where
  | outside
  | absent
  deriving DecidableEq, Repr

def vsecattr2aclentry (addr : ℕ) (vsap : Vsecattr) : Except Fault (Except Errno Si) :=
  match sortEntries vsap.aclentp, sortEntries vsap.dfaclentp with
  | some acl, some dfacl =>
    match aclValidate acl .aclCheck with
    | some err => .ok (.error err)
    | none =>
      match aclValidate dfacl .defAclCheck with
      | some err => .ok (.error err)
      | none => .ok (.ok ⟨addr, 0, 0, formAll Aclent.is (acl.getD []),
          formAll Aclent.isDef (dfacl.getD [])⟩)
  | _, _ => .error .outside

/-! ### The cache of lists -/

def aclcksum (acl : List UfsAcl) : ℤ :=
  (acl.map fun entry => (entry.perm.toNat : ℤ) + entry.who).sum

def IcAcl.cksum (acl : IcAcl) : ℤ :=
  aclcksum acl.owner + aclcksum acl.group + aclcksum acl.other + aclcksum acl.users +
    aclcksum acl.groups

def siSignature (sp : Si) : BitVec 32 :=
  BitVec.ofInt 32 (sp.dev + sp.a.cksum + sp.d.cksum +
    (sp.a.mask.elim 0 fun bits => (bits.toNat : ℤ)) +
    sp.d.mask.elim 0 fun bits => (bits.toNat : ℤ))

/-- `si_cmp`: whether the two differ. -/
def siCmp (sp1 sp2 : Si) : Bool := sp1.dev ≠ sp2.dev || sp1.a ≠ sp2.a || sp1.d ≠ sp2.d

def maxlink : ℤ := 32767

/-- A list on a chain of the cache, with its use count. -/
structure Cached where
  si : Si
  use : ℤ
  deriving DecidableEq, Repr

/-- `si_cachea_get`, on the chain for the signature. -/
def siCacheaGet (chain : List Cached) (spi : Si) : Option Si :=
  (chain.find? fun entry =>
    siSignature entry.si = siSignature spi ∧ entry.si.dev = spi.dev ∧ 0 < entry.use ∧
      entry.use ≤ maxlink - 1 ∧
      !siCmp entry.si spi).map Cached.si

/-! ### Storing -/

/-- The fields of an inode that lists are about. -/
structure Inode where
  mode : Mode
  uid : ℤ
  gid : ℤ
  dev : ℕ
  shadow : ℕ
  ufsAcl : Option Si
  deriving DecidableEq, Repr

/-- What one pass of the loop in `ufs_si_store` sees: the chain of the cache, the shadow inode with
its mode and links, or the error of `ufs_iget`, and the chain again. -/
structure View where
  chain : List Cached
  iget : Except Errno (Mode × ℤ)
  again : List Cached

/-- How the loop is left: with the list the file has already, with another one of the cache, with
none, with an error of `ufs_iget`; or not yet. -/
inductive Search where
  | own
  | cached (csp : Si)
  | miss
  | failed
  | retrying
  deriving DecidableEq, Repr

/-- The loop of `ufs_si_store`.  Changes of the cache by others send it round again. -/
def search (ip : Inode) (sp : Si) : List View → Search
  | [] => .retrying
  | view :: views =>
    match siCacheaGet view.chain sp with
    | none => .miss
    | some csp =>
      if ip.ufsAcl = some csp then .own
      else
        match view.iget with
        | .error _ => .failed
        | .ok (mode, nlink) =>
          if mode &&& ifmt ≠ ifshad ∨ nlink ≤ 0 then search ip sp views
          else
            match siCacheaGet view.again sp with
            | none => search ip sp views
            | some csp' => if csp'.shadow ≠ csp.shadow then search ip sp views else
                .cached csp'

/-- What the rest of the system answers: to the passes of the loop, to `ufs_ialloc`, to the write of
the shadow inode, to `ufs_iget` of the old shadow inode, and where the new list is put in memory. -/
structure Env where
  views : List View
  ialloc : Except Errno ℕ
  rdwri : Option Errno
  oldIget : Option Errno
  addr : ℕ

/-- A call that made a wild access, is still going round, or came back with an error or none. -/
inductive Result where
  | fault (fault : Fault)
  | retrying
  | returns (err : Option Errno) (ip : Inode)
  deriving DecidableEq, Repr

/-- The mode that follows from a list: the lines under `switchshadows`. -/
def followAcl (mode : Mode) (owner group other : UfsAcl) (mask : Option Mode) : Mode :=
  let mode := mode &&& ~~~(0o777 : Mode)
  let mode := mode ||| (owner.perm &&& 0o7) <<< 6
  let mode := mode ||| (group.perm &&& 0o7) <<< 3
  let mode := mode ||| (other.perm &&& 0o7)
  match mask with
  | some bits => (mode &&& ~~~(0o70 : Mode)) ||| ((bits &&& 0o7) <<< 3 &&& mode)
  | none => mode

/-- `ufs_si_store`, from `switchshadows` on. -/
def switchshadows (env : Env) (ip : Inode) (sp : Si) : Result :=
  match sp.a.owner, sp.a.group, sp.a.other with
  | owner :: _, group :: _, other :: _ =>
    let new := { ip with
      ufsAcl := some sp
      shadow := sp.shadow
      mode := followAcl ip.mode owner group other sp.a.mask
      uid := owner.who
      gid := group.who }
    if ip.ufsAcl.isSome ∧ env.oldIget.isSome then .returns (some .eio) new else .returns none new
  | _, _, _ => .fault .absent

def ufsSiStore (env : Env) (ip : Inode) (sp : Si) : Result :=
  let sp := { sp with dev := ip.dev }
  match search ip sp env.views with
  | .retrying => .retrying
  | .own => .returns none ip
  | .failed => .returns (some .eio) ip
  | .cached csp => switchshadows env ip csp
  | .miss =>
    match env.ialloc, env.rdwri with
    | .error err, _ => .returns (some err) ip
    | .ok _, some err => .returns (some err) ip
    | .ok shadow, none => switchshadows env ip { sp with shadow := shadow }

/-- `acl->acl_who = who` for the head of a list, if there is one. -/
def setWho (who : ℤ) : List UfsAcl → List UfsAcl
  | [] => []
  | entry :: rest => { entry with who := who } :: rest

/-- The list of a file: on its device, and with its owner and group. -/
def Si.ownedBy (sp : Si) (ip : Inode) : Si :=
  { sp with
    dev := ip.dev
    a := { sp.a with owner := setWho ip.uid sp.a.owner, group := setWho ip.gid sp.a.group } }

/-- Only the three entries that the mode can hold. -/
def Si.plain (sp : Si) : Bool :=
  sp.a.owner ≠ [] && sp.a.group ≠ [] && sp.a.other ≠ [] && sp.a.mask.isNone && sp.a.users =
    [] && sp.a.groups = [] &&
    sp.d = .empty

/-- The mode that `ufs_acl_set` gives a file without a shadow inode. -/
def plainMode (mode : Mode) (owner group other : UfsAcl) : Mode :=
  (mode &&& ~~~(777 : Mode)) ||| (owner.perm &&& 0o7) <<< 6 ||| (group.perm &&& 0o7) <<< 3 |||
    (other.perm &&& 0o7)

/-- `ufs_acl_set` of a list that was checked. -/
def ufsAclStore (env : Env) (ip : Inode) (sp : Si) : Result :=
  let sp := sp.ownedBy ip
  if sp.plain then
    match sp.a.owner, sp.a.group, sp.a.other with
    | owner :: _, group :: _, other :: _ =>
      .returns none { ip with
        ufsAcl := none, shadow := 0, mode := plainMode ip.mode owner group other }
    | _, _, _ => .fault .absent
  else if sp.a.owner = [] ∨ sp.a.group = [] then .fault .absent
  else ufsSiStore env ip sp

/-- `ufs_acl_set` for the user with an id. -/
def ufsAclSet (env : Env) (ip : Inode) (vsap : Vsecattr) (uid : ℤ) : Result :=
  let type := ip.mode &&& ifmt
  if type ≠ ifreg ∧ type ≠ ifdir ∧ type ≠ ififo then .returns (some .einval) ip
  else if uid ≠ ip.uid then .returns (some .einval) ip
  else
    match vsecattr2aclentry env.addr vsap with
    | .error fault => .fault fault
    | .ok (.error err) => .returns (some err) ip
    | .ok (.ok sp) => ufsAclStore env ip sp

/-! ### The system call -/

/-- What a user passes, and whether it can be copied in. -/
structure Uap where
  nentries : ℕ
  aclbuf : Option (List Aclent)
  copyin : Bool
  deriving DecidableEq, Repr

/-- The answers of the file system on the way: whether it has `vop_setsecattr`, and the errors in
front of `ufs_acl_set`. -/
structure Fs where
  setsecattr : Bool
  nosetsec : Bool
  lockfs : Option Errno
  deriving DecidableEq, Repr

/-- `sizeof (aclent_t)`. -/
def sizeofAclent : ℕ := 12

/-- `aclbsize`, as it is allocated and copied in. -/
def aclbsize (nentries : ℕ) : ℕ := nentries * sizeofAclent % 2 ^ 32

/-- The loop of `cacl` that looks for the first default among so many entries from a place on. -/
def firstDefault (buf : List Aclent) : ℕ → ℕ → Option ℕ
  | 0, k => some k
  | n + 1, k =>
    match buf[k]? with
    | none => none
    | some e => if e.default then some k else firstDefault buf n (k + 1)

def ufsSetsecattr (fs : Fs) (env : Env) (ip : Inode) (vsap : Vsecattr) (uid : ℤ) : Result :=
  if fs.nosetsec then .returns (some .enosys) ip
  else
    match fs.lockfs with
    | some err => .returns (some err) ip
    | none => ufsAclSet env ip vsap uid

/-- `cacl`, from the sorted buffer on. -/
def caclSplit (fs : Fs) (env : Env) (ip : Inode) (nentries : ℕ) (buf : List Aclent)
    (uid : ℤ) : Result :=
  match firstDefault buf nentries 0 with
  | none => .fault .outside
  | some numacls =>
    let vsap : Vsecattr :=
      ⟨if numacls = 0 then none else some (buf.take numacls),
        if numacls < nentries then some (buf.drop numacls) else none⟩
    if numacls < nentries ∧ ip.mode &&& ifmt ≠ ifdir then .returns (some .einval) ip
    else ufsSetsecattr fs env ip vsap uid

/-- `cacl` for `SETACL`.  A buffer of no bytes is not there, and `ksort` has no work to do. -/
def cacl (fs : Fs) (env : Env) (ip : Inode) (uap : Uap) (uid : ℤ) : Result :=
  if !fs.setsecattr then .returns (some .enosys) ip
  else
    match uap.aclbuf with
    | none => .returns (some .einval) ip
    | some user =>
      if uap.nentries = 0 then .returns (some .einval) ip
      else if !uap.copyin then .returns (some .efault) ip
      else
        let buf := user.take (aclbsize uap.nentries / sizeofAclent)
        match if aclbsize uap.nentries = 0 then some buf else ksort cmp2acls buf uap.nentries with
        | none => .fault .outside
        | some buf => caclSplit fs env ip uap.nentries buf uid

/-! ### Access -/

structure Cred where
  uid : ℤ
  gid : ℤ
  groups : List ℤ
  deriving DecidableEq, Repr

def groupmember (gid : ℤ) (cr : Cred) : Bool := gid = cr.gid || cr.groups.contains gid

def modeCheck (mode perm : BitVec 32) : Option Errno :=
  if mode &&& perm = mode then none else some .eacces

/-- `ufs_acl_access`: a wild access, an error, or none. -/
def ufsAclAccess (sp : Si) (mode : BitVec 32) (cr : Cred) : Except Fault (Option Errno) :=
  let mask : BitVec 32 := sp.a.mask.elim (-1) fun bits => bits.setWidth 32
  match sp.a.owner with
  | [] => .error .absent
  | owner :: _ =>
    if cr.uid = owner.who then .ok (modeCheck mode (owner.perm.setWidth 32 <<< 6))
    else
      match sp.a.users.find? fun entry => entry.who = cr.uid with
      | some entry => .ok (modeCheck mode ((mask &&& entry.perm.setWidth 32) <<< 6))
      | none =>
        match sp.a.group with
        | [] => .error .absent
        | group :: _ =>
          let inGroup := groupmember group.who cr
          if inGroup ∧ sp.a.mask.isNone then
            .ok (modeCheck mode (group.perm.setWidth 32 <<< 6))
          else
            let matching := sp.a.groups.filter fun entry => groupmember entry.who cr
            let gperm := matching.foldl (fun gperm entry => gperm ||| entry.perm.setWidth 32)
              (if inGroup then group.perm.setWidth 32 else 0)
            if inGroup ∨ matching ≠ [] then .ok (modeCheck mode ((gperm &&& mask) <<< 6))
            else
              match sp.a.other with
              | [] => .error .absent
              | other :: _ => .ok (modeCheck mode (other.perm.setWidth 32 <<< 6))

end Sol25.Acl
