import Sol25.Acl.Check
import Sol25.Xdr.Word

/-!
# Lists on disk

`ufs_sectobuf` writes a list as the data of a shadow inode, `ufs_si_load` reads it back, and
`aclentry2vsecattr` gives the entries of a list to a caller. Words are in network order.
-/

namespace Sol25.Acl

abbrev Byte := BitVec 8

def shortBytes (v : BitVec 16) : List Byte := [v.extractLsb' 8 8, v.extractLsb' 0 8]

def short : List Byte → BitVec 16
  | [a, b] => (a ++ b : BitVec 16)
  | _ => 0

/-! ### `ufs_sectobuf` -/

/-- `sizeof (ufs_acl_t)`. -/
def sizeofUfsAcl : ℕ := 12

/-- A `ufs_acl_t` in the buffer, which is zeroed before: `acl_tag`, `acl_perm` and `acl_who`, with
gaps. -/
def diskEntry (tag : BitVec 32) (perm : Mode) (who : ℤ) : List Byte :=
  shortBytes (tag.setWidth 16) ++ [0, 0] ++ shortBytes perm ++ [0, 0] ++ Xdr.bytes
    (BitVec.ofInt 32 who)

def aclMove (acl : List UfsAcl) (tag : BitVec 32) : List Byte :=
  acl.flatMap fun entry => diskEntry tag entry.perm entry.who

/-- The size of a list in the buffer, with its header. -/
def IcAcl.diskSize (acl : IcAcl) : ℕ :=
  let count := acl.owner.length + acl.group.length + acl.other.length + acl.users.length +
    acl.groups.length +
    acl.mask.elim 0 fun _ => 1
  if count * sizeofUfsAcl = 0 then 0 else count * sizeofUfsAcl + 8

/-- What is written for a list. -/
def IcAcl.diskData (acl : IcAcl) (d : Bool) : List Byte :=
  aclMove acl.owner (Slot.type (d, .userObj)) ++ aclMove acl.group (Slot.type (d, .groupObj)) ++
    aclMove acl.other (Slot.type (d, .otherObj)) ++ aclMove acl.users (Slot.type (d, .user)) ++
    aclMove acl.groups (Slot.type (d, .group)) ++
    acl.mask.elim [] fun bits => diskEntry (Slot.type (d, .classObj)) bits 1

/-- A `ufs_fsd` with a list, if there is one: `FSD_ACL` is 1 and `FSD_DFACL` is 2. -/
def IcAcl.fsd (acl : IcAcl) (d : Bool) : List Byte :=
  if acl.diskSize = 0 then []
  else Xdr.bytes (if d then 2 else 1) ++ Xdr.bytes (BitVec.ofNat 32 acl.diskSize) ++ acl.diskData d

/-- `ufs_sectobuf`: the buffer and its length, or nothing. -/
def ufsSectobuf (sp : Si) : Option (List Byte × ℕ) :=
  if sp.a.diskSize + sp.d.diskSize = 0 then none
  else some (sp.a.fsd false ++ sp.d.fsd true, sp.a.diskSize + sp.d.diskSize)

/-! ### `ufs_si_load` -/

def bytesAt (data : List Byte) (off n : ℕ) : Option (List Byte) :=
  if off + n ≤ data.length then some ((data.drop off).take n) else none

def entryAt (data : List Byte) (off : ℕ) : Option Aclent :=
  match bytesAt data off 2, bytesAt data (off + 4) 2, bytesAt data (off + 8) 4 with
  | some tag, some perm, some who =>
    some ⟨(short tag).setWidth 32, (Xdr.word who).toInt, short perm⟩
  | _, _, _ => none

/-- So many entries from a place on. -/
def entriesAt (data : List Byte) : ℕ → ℕ → Option (List Aclent)
  | _, 0 => some []
  | off, n + 1 =>
    match entryAt data off, entriesAt data (off + sizeofUfsAcl) n with
    | some e, some rest => some (e :: rest)
    | _, _ => none

/-- The loop of `ufs_si_load` over what is in the data. A round goes on by at least one byte. -/
def parseFsds (data : List Byte) : ℕ → ℕ → Vsecattr → Except Fault Vsecattr
  | 0, _, _ => .error .outside
  | fuel + 1, off, vsecattr =>
    if off < data.length then
      match bytesAt data off 4, bytesAt data (off + 4) 4 with
      | some fsdType, some fsdSize =>
        let size := Xdr.word fsdSize
        if size.toInt ≤ 0 then .ok vsecattr
        else
          let numacls := (size - 8).toNat / sizeofUfsAcl
          if Xdr.word fsdType = 1 then
            match entriesAt data (off + 8) numacls with
            | some entries => parseFsds data fuel (off + size.toNat)
                { vsecattr with aclentp := some entries }
            | none => .error .outside
          else if Xdr.word fsdType = 2 then
            match entriesAt data (off + 8) numacls with
            | some entries => parseFsds data fuel (off + size.toNat)
                { vsecattr with dfaclentp := some entries }
            | none => .error .outside
          else parseFsds data fuel (off + size.toNat) vsecattr
      | _, _ => .error .outside
    else .ok vsecattr

/-- `ufs_si_load`, from the data of the shadow inode on. -/
def ufsSiLoad (addr dev shadow : ℕ) (acldata : List Byte) : Except Fault (Except Errno Si) :=
  match parseFsds acldata (acldata.length + 1) 0 ⟨none, none⟩ with
  | .error fault => .error fault
  | .ok vsecattr =>
    match sortEntries vsecattr.aclentp with
    | none => .error .outside
    | some acl =>
      match aclValidate acl .aclCheck with
      | some err => .ok (.error err)
      | none =>
        match sortEntries vsecattr.dfaclentp with
        | none => .error .outside
        | some dfacl =>
          match aclValidate dfacl .defAclCheck with
          | some err => .ok (.error err)
          | none =>
            if acl = none ∧ dfacl = none then .ok (.error .einval)
            else
              match vsecattr2aclentry addr ⟨acl, dfacl⟩ with
              | .error fault => .error fault
              | .ok (.error err) => .ok (.error err)
              | .ok (.ok sp) => .ok (.ok { sp with dev := dev, shadow := shadow })

/-! ### `aclentry2vsecattr` -/

def formvsec (type : BitVec 32) (acl : List UfsAcl) : List Aclent :=
  acl.map fun entry => ⟨type, entry.who, entry.perm⟩

/-- The entries of a list, before they are sorted. -/
def IcAcl.entries (acl : IcAcl) (d : Bool) : List Aclent :=
  formvsec (Slot.type (d, .userObj)) acl.owner ++ formvsec (Slot.type (d, .user)) acl.users ++
    formvsec (Slot.type (d, .groupObj)) acl.group ++ formvsec (Slot.type (d, .group)) acl.groups ++
    formvsec (Slot.type (d, .otherObj)) acl.other ++
    acl.mask.elim [] fun bits => [⟨Slot.type (d, .classObj), 0, bits⟩]

/-- One half of `aclentry2vsecattr`. -/
def giveEntries (acl : IcAcl) (d : Bool) (flag : Flag) :
    Except Fault (Except Errno (Option (List Aclent))) :=
  let entries := acl.entries d
  if entries.length = 0 then .ok (.ok none)
  else
    match ksort cmp2acls entries entries.length with
    | none => .error .outside
    | some sorted =>
      match aclValidate (some sorted) flag with
      | some err => .ok (.error err)
      | none => .ok (.ok (some sorted))

def aclentry2vsecattr (sp : Si) : Except Fault (Except Errno Vsecattr) :=
  match giveEntries sp.a false .aclCheck with
  | .error fault => .error fault
  | .ok (.error err) => .ok (.error err)
  | .ok (.ok acl) =>
    match giveEntries sp.d true .defAclCheck with
    | .error fault => .error fault
    | .ok (.error err) => .ok (.error err)
    | .ok (.ok dfacl) => .ok (.ok ⟨acl, dfacl⟩)

end Sol25.Acl
