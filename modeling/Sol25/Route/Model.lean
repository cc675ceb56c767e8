import Sol25.Data.Slots

/-!
# Routing entries

`inet/ip_ire.c`: the lists of routing entries, as `ire_add` and `ire_delete` keep them and
`ire_lookup` and `ire_lookup_interface` search them.  Addresses are in network order on a machine
where that is the order of the machine. A loop over a list has a number of rounds that it may go,
and no result when they are used up.
-/

namespace Sol25.Route

open Function

abbrev U32 := BitVec 32

/-- `IRE_BROADCAST` -/
def broadcast : ℕ := 0x0001

/-- `IRE_GATEWAY` -/
def gateway : ℕ := 0x0002

/-- `IRE_LOCAL` -/
def loc : ℕ := 0x0004

/-- `IRE_LOOPBACK` -/
def loopback : ℕ := 0x0008

/-- `IRE_NET` -/
def net : ℕ := 0x0010

/-- `IRE_ROUTE` -/
def route : ℕ := 0x0020

/-- `IRE_SUBNET` -/
def subnet : ℕ := 0x0040

/-- `IRE_RESOLVER` -/
def resolver : ℕ := 0x0080

/-- `IRE_ROUTE_ASSOC` -/
def routeAssoc : ℕ := 0x0100

/-- `IRE_ROUTE_REDIRECT` -/
def routeRedirect : ℕ := 0x0200

/-- `ire_t`, without its links. -/
structure Ire where
  addr : U32
  mask : U32
  srcAddr : U32
  gatewayAddr : U32
  /-- The queue that packets are sent to. -/
  stq : Option ℕ
  type : ℕ
  deriving DecidableEq, Repr

/-- The heads of the lists: `ire_hash_tbl`, `ire_assoc_hash_tbl`, `ire_subnet_head`,
`ire_net_hash_tbl` and `ip_def_gateway`. -/
inductive Head
  | hash (i : ℕ)
  | assoc (i : ℕ)
  | subnet
  | net (i : ℕ)
  | gateway
  deriving DecidableEq, Repr

/-- The entries in memory, with `ire_next` and `ire_ptpn` in `slots`. -/
structure State where
  ire : ℕ → Ire
  slots : Slots Head ℕ
  /-- What `mi_alloc` has given out. -/
  allocated : ℕ → Bool
  /-- `ip_def_gateway_count` -/
  gatewayCount : U32
  /-- `ip_def_gateway_index` -/
  gatewayIndex : U32

/-! ### Hashing -/

def ireAddrHash (addr : U32) : ℕ := (((addr >>> 8) ^^^ addr) &&& 0xff#32).toNat

def ineAddrHash (addr : U32) : ℕ :=
  (((addr >>> 16) ^^^ addr) ^^^ (((addr >>> 16) ^^^ addr) >>> 8)).toNat % 32

def ipNetMask (addr : U32) : U32 :=
  if addr &&& 0xf0000000#32 = 0xe0000000#32 then 0xf0000000#32
  else if addr = 0 then 0
  else if addr &&& 0x80000000#32 = 0 then 0xff000000#32
  else if addr &&& 0xc0000000#32 = 0x80000000#32 then 0xffff0000#32
  else if addr &&& 0xe0000000#32 = 0xc0000000#32 then 0xffffff00#32
  else 0

def ireNetIrep (addr : U32) : Head := .net (ineAddrHash (addr &&& ipNetMask addr))

/-! ### `ire_add` and `ire_delete` -/

/-- The list that an entry belongs to by its type, and the entry with the fields that go with the
type. -/
def listOf (ire : Ire) : Option (Head × Ire) :=
  if ire.type = routeAssoc ∨ ire.type = routeRedirect then
    some (.assoc (ireAddrHash ire.addr), { ire with mask := .allOnes 32, srcAddr := 0 })
  else if ire.type = route ∨ ire.type = broadcast ∨ ire.type = loc ∨ ire.type = loopback then
    some (.hash (ireAddrHash ire.addr), { ire with mask := .allOnes 32 })
  else if ire.type = resolver ∨ ire.type = subnet then some (.subnet, ire)
  else if ire.type = net then some (ireNetIrep ire.addr, { ire with srcAddr := 0 })
  else if ire.type = gateway then some (.gateway, { ire with srcAddr := 0 })
  else none

/-- The list of an entry, and the entry as it goes there. -/
def placed (ire : Ire) : Option (Head × Ire) :=
  (listOf ire).map fun r => (r.1, { r.2 with addr := r.2.addr &&& r.2.mask })

/-- The first loop goes past an entry. -/
def Skips (ire ire1 : Ire) : Prop :=
  ire.mask < ire1.mask ∨ ire1.mask = ire.mask ∧ ire.addr ≠ ire1.addr

instance (ire ire1 : Ire) : Decidable (Skips ire ire1) := inferInstanceAs (Decidable (_ ∨ _))

/-- An old entry that makes a new one of the same address needless. -/
def Duplicate (ire ire1 : Ire) : Prop :=
  ire.type ≠ loc ∧ ire1.type = ire.type ∧ ire1.gatewayAddr = ire.gatewayAddr ∧
    ire1.srcAddr = ire.srcAddr ∧
    ire1.stq = ire.stq

instance (ire ire1 : Ire) : Decidable (Duplicate ire ire1) := inferInstanceAs (Decidable (_ ∧ _))

/-- The first loop of `ire_add`: the place where it stops. -/
def scan (s : State) (ire : Ire) : ℕ → Slot Head ℕ → Option (Slot Head ℕ)
  | 0, _ => none
  | fuel + 1, irep =>
    match s.slots.link irep with
    | none => some irep
    | some i => if Skips ire (s.ire i) then scan s ire fuel (.next i) else some irep

/-- The second loop of `ire_add`: the place of the new entry, or else the old one that it is a
duplicate of. -/
def scanGroup (s : State) (ire : Ire) : ℕ → Slot Head ℕ → Option (Slot Head ℕ ⊕ ℕ)
  | 0, _ => none
  | fuel + 1, irep =>
    match s.slots.link irep with
    | none => some (.inl irep)
    | some i =>
      if ire.addr = (s.ire i).addr then
        if Duplicate ire (s.ire i) then some (.inr i) else scanGroup s ire fuel (.next i)
      else some (.inl irep)

/-- `ire_add`, of an entry in a message that is copied to memory that `mi_alloc` gave.  The state
and the entry that the list has for it. -/
def ireAdd (fuel : ℕ) (s : State) (ire : Ire) (alloc : Option ℕ) : Option (State × Option ℕ) :=
  match alloc with
  | none => some (s, none)
  | some new =>
    match placed ire with
    | none => some (s, none)
    | some (irep, ire) =>
      let s := if ire.type = gateway then { s with gatewayCount := s.gatewayCount + 1 } else s
      match (scan s ire fuel (.head irep)).bind fun irep => scanGroup s ire fuel irep with
      | none => none
      | some (.inr old) => some (s, some old)
      | some (.inl irep) =>
        some ({ s with
          ire := update s.ire new ire
          slots := s.slots.insert irep new
          allocated := update s.allocated new true }, some new)

/-- `ire_delete`, of an entry that `mi_alloc` gave the memory for. -/
def ireDelete (s : State) (i : ℕ) : State :=
  { s with
    slots := s.slots.remove i
    allocated := update s.allocated i false
    gatewayCount :=
      if s.slots.back i ≠ none ∧ (s.ire i).type = gateway then s.gatewayCount - 1 else
        s.gatewayCount }

/-! ### Lookups -/

/-- A loop over a list that returns the first entry with a property. -/
def find (s : State) (test : Ire → Bool) : ℕ → Slot Head ℕ → Option (Option ℕ)
  | 0, _ => none
  | fuel + 1, p =>
    match s.slots.link p with
    | none => some none
    | some i => if test (s.ire i) then some (some i) else find s test fuel (.next i)

/-- `while (u1--) ire = ire->ire_next;` -/
def walk (s : State) : ℕ → Option ℕ → Option (Option ℕ)
  | 0, ire => some ire
  | _ + 1, none => none
  | u1 + 1, some i => walk s u1 (s.slots.link (.next i))

/-- The default gateway that is next. -/
def defaultGateway (s : State) : Option (Option ℕ) :=
  match s.slots.link (.head .gateway) with
  | none => some none
  | some i =>
    if s.gatewayCount = 0 then none else
      walk s (s.gatewayIndex.toNat % s.gatewayCount.toNat) (some i)

/-- A list is searched, and then the rest if nothing was found. -/
def orElse (found : Option (Option ℕ)) (rest : Option (Option ℕ)) : Option (Option ℕ) :=
  match found with
  | some none => rest
  | found => found

def Contains (ire : Ire) (addr : U32) : Prop := ire.addr = addr &&& ire.mask

instance (ire : Ire) (addr : U32) : Decidable (Contains ire addr) :=
  inferInstanceAs (Decidable (_ = _))

def ireLookup (fuel : ℕ) (s : State) (addr : U32) : Option (Option ℕ) :=
  orElse (find s (fun ire => ire.addr = addr) fuel (.head (.hash (ireAddrHash addr)))) <|
    orElse (find s (fun ire => ire.addr = addr) fuel (.head (.assoc (ireAddrHash addr)))) <|
      orElse (find s (fun ire => Contains ire addr) fuel (.head .subnet)) <|
        orElse (find s (fun ire => Contains ire addr) fuel (.head (ireNetIrep addr)))
          (defaultGateway s)

def ireLookupInterface (fuel : ℕ) (s : State) (addr : U32) (ireTypeMask : ℕ) : Option (Option ℕ) :=
  find s (fun ire => ire.type &&& ireTypeMask ≠ 0 ∧ Contains ire addr) fuel (.head .subnet)

end Sol25.Route
