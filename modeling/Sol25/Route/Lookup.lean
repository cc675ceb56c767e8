import Sol25.Route.Run

/-!
# Lookups

In lists that are in order the first entry whose network contains a destination has the longest mask
of all.
-/

namespace Sol25.Route

open Slots Function List Option

variable {s s' : State} {ire x : Ire} {lists : Head → List ℕ} {alloc r : Option ℕ} {fuel i : ℕ}
  {dst : U32}
  {p : Slot Head ℕ} {l : List ℕ} {test : Ire → Bool}

theorem find_eq (chain : s.slots.Chain p l) (found : find s test fuel p = some r) :
    r = l.find? fun i => test (s.ire i) := by
  induction l generalizing p fuel with
  | nil =>
    cases fuel with
    | zero => exact nomatch found
    | succ fuel =>
      rw [find, chain_nil.1 chain] at found
      exact (some.inj found).symm
  | cons i l ih =>
    cases fuel with
    | zero => exact nomatch found
    | succ fuel =>
      obtain ⟨link_eq, -, chain⟩ := chain_cons.1 chain
      rw [find, link_eq] at found
      dsimp only at found
      rw [find?_cons]
      split_ifs at found with passes
      · rw [passes]
        exact (some.inj found).symm
      · rw [Bool.not_eq_true] at passes
        rw [passes]
        exact ih chain found

theorem find_some (chain : s.slots.Chain p l) (enough : l.length < fuel) :
    find s test fuel p = some (l.find? fun i => test (s.ire i)) := by
  have total : ∃ r, find s test fuel p = some r := by
    induction l generalizing p fuel with
    | nil =>
      obtain ⟨fuel, rfl⟩ := Nat.exists_eq_add_of_lt enough
      exact ⟨none, by rw [find, chain_nil.1 chain]⟩
    | cons i l ih =>
      obtain ⟨fuel, rfl⟩ := Nat.exists_eq_add_of_lt enough
      obtain ⟨link_eq, -, chain⟩ := chain_cons.1 chain
      rw [find, link_eq]
      dsimp only
      split_ifs
      · exact ⟨some i, rfl⟩
      · exact ih chain (by rw [length_cons]; omega)
  obtain ⟨r, found⟩ := total
  rw [found, ← find_eq chain found]

/-- The result of a search: an entry of some routes with a mask at least as long as those of others
that contain the destination; nothing only if none of the others does. -/
def Longest (s : State) (routes others : ℕ → Prop) (dst : U32) : Option ℕ → Prop
  | none => ∀ j, others j → ¬ Contains (s.ire j) dst
  | some i => routes i ∧ Contains (s.ire i) dst ∧
      ∀ j, others j → Contains (s.ire j) dst → maskLen (s.ire j).mask ≤ maskLen (s.ire i).mask

/-- The first entry of a list in order. -/
theorem Inv.longest (inv : Inv s lists) (h : Head) (test : Ire → Bool) {routes others : ℕ → Prop}
    (passes : ∀ i ∈ lists h, test (s.ire i) = true → routes i ∧ Contains (s.ire i) dst)
    (tested : ∀ j, others j → Contains (s.ire j) dst → j ∈ lists h ∧ test (s.ire j) = true) :
    Longest s routes others dst ((lists h).find? fun i => test (s.ire i)) := by
  cases found : (lists h).find? fun i => test (s.ire i) with
  | none =>
    intro j other contains
    obtain ⟨mem, passed⟩ := tested j other contains
    exact find?_eq_none.1 found j mem passed
  | some i =>
    obtain ⟨passed, front, rest, split, failed⟩ := find?_eq_some_iff_append.1 found
    have mem : i ∈ lists h := mem_of_find?_eq_some found
    obtain ⟨route, contains⟩ := passes i mem passed
    refine ⟨route, contains, fun j other j_contains => ?_⟩
    obtain ⟨j_mem, j_passed⟩ := tested j other j_contains
    refine (inv.contiguous h j j_mem).maskLen_le (inv.contiguous h i mem) ?_
    have sorted := inv.sorted h
    rw [split, map_append, map_cons] at sorted
    rw [split] at j_mem
    rcases mem_append.1 j_mem with in_front | in_rest
    · have not_passed := failed j in_front
      rw [j_passed] at not_passed
      exact nomatch not_passed
    · rcases mem_cons.1 in_rest with rfl | in_rest
      · exact le_refl _
      · exact rel_of_pairwise_cons (pairwise_append.1 sorted).2.1
          (List.mem_map_of_mem in_rest)

/-! ### Which routes there are -/

def IsInterface (s : State) (i : ℕ) : Prop :=
  s.allocated i = true ∧ ((s.ire i).type = subnet ∨ (s.ire i).type = resolver)

def IsNet (s : State) (i : ℕ) : Prop := s.allocated i = true ∧ (s.ire i).type = net

/-- All addresses in the network of a route have one network number. -/
def Classful (e : Ire) : Prop :=
  ∀ a b, Contains e a → Contains e b → a &&& ipNetMask a = b &&& ipNetMask b

theorem Inv.mem_subnet_iff (inv : Inv s lists) : i ∈ lists .subnet ↔ IsInterface s i := by
  constructor
  · intro mem
    refine ⟨inv.allocated _ i mem, ?_⟩
    cases inv.belongs _ i mem with
    | subnet type_eq => exact type_eq
  · rintro ⟨allocated, type_eq⟩
    obtain ⟨h, mem⟩ := inv.listed i allocated
    cases inv.belongs h i mem with
    | subnet => exact mem
    | net is_net =>
      rw [is_net] at type_eq
      exact absurd type_eq (by decide)

theorem Inv.net_of_mem {k : ℕ} (inv : Inv s lists) (mem : i ∈ lists (.net k)) : IsNet s i := by
  refine ⟨inv.allocated _ i mem, ?_⟩
  have belongs := inv.belongs _ i mem
  generalize head_eq : Head.net k = h at belongs
  cases belongs with
  | subnet => exact nomatch head_eq
  | net type_eq => exact type_eq

/-- A network route of one network number is on the list of every destination in its network. -/
theorem Inv.mem_net (inv : Inv s lists) (is_net : IsNet s i) (classful : Classful (s.ire i))
    (contains : Contains (s.ire i) dst) : i ∈ lists (ireNetIrep dst) := by
  obtain ⟨h, mem⟩ := inv.listed i is_net.1
  cases inv.belongs h i mem with
  | subnet type_eq =>
    rw [is_net.2] at type_eq
    exact absurd type_eq (by decide)
  | @net a _ addr_eq =>
    rw [ireNetIrep, classful dst a contains addr_eq]
    exact mem

theorem Inv.nil (inv : Inv s lists) (h : Head) (not_subnet : h ≠ .subnet)
    (not_net : ∀ k, h ≠ .net k) : lists h = [] := by
  rw [eq_nil_iff_forall_not_mem]
  intro i mem
  cases inv.belongs h i mem with
  | subnet => exact not_subnet rfl
  | @net a => exact not_net (ineAddrHash (a &&& ipNetMask a)) rfl

theorem orElse_some {found rest : Option (Option ℕ)} (eq : orElse found rest = some r) :
    ∃ r', found = some r' ∧ (r' = none ∧ rest = some r ∨ r' ≠ none ∧ r' = r) := by
  cases found with
  | none => exact nomatch eq
  | some r' =>
    cases r' with
    | none => exact ⟨none, rfl, .inl ⟨rfl, eq⟩⟩
    | some i => exact ⟨some i, rfl, .inr ⟨nofun, some.inj eq⟩⟩

theorem Inv.find_host (inv : Inv s lists) (h : Head) (not_subnet : h ≠ .subnet)
    (not_net : ∀ k, h ≠ .net k) {rest : Option (Option ℕ)}
    (eq : orElse (find s test fuel (.head h)) rest = some r) : rest = some r := by
  obtain ⟨r', found, ⟨-, eq⟩ | ⟨ne, -⟩⟩ := orElse_some eq
  · exact eq
  · have nothing := find_eq (inv.table.chain h) found
    rw [inv.nil h not_subnet not_net] at nothing
    exact absurd nothing ne

theorem Inv.defaultGateway_eq (inv : Inv s lists) : defaultGateway s = some none := by
  have chain := inv.table.chain .gateway
  rw [inv.nil .gateway nofun (fun _ => nofun)] at chain
  rw [defaultGateway, chain_nil.1 chain]

/-- `ire_lookup` searches the interface routes first, then the network routes of the destination. -/
theorem Inv.ireLookup_cases (inv : Inv s lists) (looked : ireLookup fuel s dst = some r) :
    ((lists .subnet).find? (fun i => decide (Contains (s.ire i) dst)) = none ∧
        r = (lists (ireNetIrep dst)).find? fun i => decide (Contains (s.ire i) dst)) ∨
      r ≠ none ∧ r = (lists .subnet).find? fun i => decide (Contains (s.ire i) dst) := by
  have after_hash := inv.find_host (.hash _) nofun (fun _ => nofun) looked
  have after_assoc := inv.find_host (.assoc _) nofun (fun _ => nofun) after_hash
  obtain ⟨r1, found1, ⟨rfl, eq⟩ | ⟨ne, rfl⟩⟩ := orElse_some after_assoc
  · refine .inl ⟨(find_eq (inv.table.chain _) found1).symm, ?_⟩
    obtain ⟨r2, found2, ⟨rfl, eq⟩ | ⟨ne, rfl⟩⟩ := orElse_some eq
    · rw [inv.defaultGateway_eq] at eq
      obtain rfl := some.inj eq
      exact find_eq (inv.table.chain _) found2
    · exact find_eq (inv.table.chain _) found2
  · exact .inr ⟨ne, find_eq (inv.table.chain _) found1⟩

theorem orElse_isSome {found rest : Option (Option ℕ)} (first : found.isSome)
    (second : rest.isSome) :
    (orElse found rest).isSome := by
  cases found with
  | none => exact nomatch first
  | some r =>
    cases r with
    | none => exact second
    | some i => rfl

theorem Inv.ireLookup_isSome (inv : Inv s lists) (dst : U32) :
    ∃ fuel, (ireLookup fuel s dst).isSome := by
  have found : ∀ {test : Ire → Bool} {h : Head} {fuel : ℕ}, (lists h).length < fuel →
      (find s test fuel (.head h)).isSome := by
    intro test h fuel enough
    rw [find_some (inv.table.chain h) enough]
    rfl
  refine ⟨(lists .subnet).length + (lists (ireNetIrep dst)).length + 1, ?_⟩
  refine orElse_isSome (found ?_)
    (orElse_isSome (found ?_) (orElse_isSome (found ?_) (orElse_isSome (found ?_) ?_)))
  · rw [inv.nil (.hash _) nofun (fun _ => nofun), length_nil]
    omega
  · rw [inv.nil (.assoc _) nofun (fun _ => nofun), length_nil]
    omega
  · omega
  · omega
  · rw [inv.defaultGateway_eq]
    rfl

/-! ### Runs -/

/-- `ire_add` comes to an end. -/
theorem Inv.ireAdd_isSome (inv : Inv s lists) (route : IsRoute ire) (alloc : Option ℕ) :
    ∃ fuel, (ireAdd fuel s ire alloc).isSome := by
  cases alloc with
  | none => exact ⟨0, rfl⟩
  | some new =>
    obtain ⟨irep, x, placed_eq, not_gateway, -, -⟩ := route.placed_eq
    have chain := inv.table.chain irep
    obtain ⟨p, scanned⟩ := @scan_some s x (.head irep) (lists irep) ((lists irep).length + 1) chain
        (Nat.lt_succ_self _)
    obtain ⟨front, rest, split, rfl, -, -⟩ := scan_split chain scanned
    rw [split] at chain
    obtain ⟨found, grouped⟩ :=
      @scanGroup_some s x (behind (.head irep) front) rest ((lists irep).length + 1)
      (chain_append.1 chain).2 (by rw [split, length_append]; omega)
    refine ⟨(lists irep).length + 1, ?_⟩
    rw [ireAdd, placed_eq]
    dsimp only
    rw [if_neg not_gateway, scanned, bind_some, grouped]
    cases found with
    | inl place => rfl
    | inr old => rfl

/-- The lists of a state are in order: each place leads to its list, each entry points back to the
place that leads to it, the entries that are there are on one list each, the masks get shorter, and
entries with one address and one mask stand together. -/
structure InOrder (s : State) (lists : Head → List ℕ) : Prop where
  table : s.slots.Table lists
  listed : ∀ i, s.allocated i = true ↔ ∃ h, i ∈ lists h
  sorted : ∀ h, (lists h).Pairwise fun i j => maskLen (s.ire j).mask ≤ maskLen (s.ire i).mask
  grouped : ∀ h, Grouped ((lists h).map s.ire)

theorem Inv.inOrder (inv : Inv s lists) : InOrder s lists where
  table := inv.table
  listed := fun i => ⟨inv.listed i, fun ⟨h, mem⟩ => inv.allocated h i mem⟩
  sorted := fun h => (pairwise_map.1 (inv.sorted h)).imp_of_mem fun i_mem j_mem le =>
    (inv.contiguous h _ j_mem).maskLen_le (inv.contiguous h _ i_mem) le
  grouped := inv.grouped

/-- In a run in which the second loop of `ire_add` meets no entry with the same address and another
mask, the lists stay in order, a route is turned away only if it is there already, and both lookups
find a longest mask: `ire_lookup_interface` among the interface routes of the types asked for, and
`ire_lookup` among the interface routes or, if none contains the destination, among the network
routes. -/
theorem routes_in_order (reach : Reach s) :
    (∃ lists, InOrder s lists) ∧
    (∀ ire alloc, IsRoute ire → Clean s ire →
      (∃ fuel, (ireAdd fuel s ire alloc).isSome) ∧
      ∀ fuel s' old, ireAdd fuel s ire alloc = some (s', some old) → alloc ≠ some old →
        s' = s ∧ s.allocated old = true ∧ ∃ h, placed ire = some (h, s.ire old)) ∧
    (∀ dst types, (∃ fuel, (ireLookupInterface fuel s dst types).isSome) ∧
      ∀ fuel r, ireLookupInterface fuel s dst types = some r →
        Longest s (fun i => IsInterface s i ∧ (s.ire i).type &&& types ≠ 0)
          (fun i => IsInterface s i ∧ (s.ire i).type &&& types ≠ 0) dst r) ∧
    ∀ dst, (∃ fuel, (ireLookup fuel s dst).isSome) ∧ ∀ fuel r, ireLookup fuel s dst = some r →
      ((∃ i, IsInterface s i ∧ Contains (s.ire i) dst) → r ≠ none ∧
        Longest s (IsInterface s) (IsInterface s) dst r) ∧
      ((¬ ∃ i, IsInterface s i ∧ Contains (s.ire i) dst) →
        Longest s (IsNet s) (fun i => IsNet s i ∧ Classful (s.ire i)) dst r) := by
  obtain ⟨lists, inv⟩ := reach.inv
  refine ⟨⟨lists, inv.inOrder⟩, fun ire alloc route clean => ⟨?_, fun fuel s' old added ne => ?_⟩,
    fun dst types => ⟨?_, fun fuel r found => ?_⟩, fun dst =>
      ⟨inv.ireLookup_isSome dst, fun fuel r looked => ⟨?_, ?_⟩⟩⟩
  · exact inv.ireAdd_isSome route alloc
  · cases alloc with
    | none => exact nomatch added
    | some new =>
      obtain ⟨irep, x, placed_eq, not_gateway, -, -⟩ := route.placed_eq
      generalize result_eq : some old = r at added
      cases ireAdd_cases inv placed_eq not_gateway clean added with
      | @old i mem same =>
        obtain rfl := some.inj result_eq
        exact ⟨rfl, inv.allocated _ old mem, irep, by rw [same, placed_eq]⟩
      | linked => exact absurd result_eq.symm ne
  · refine ⟨(lists .subnet).length + 1, ?_⟩
    rw [ireLookupInterface, find_some (inv.table.chain _) (Nat.lt_succ_self _)]
    rfl
  · rw [find_eq (inv.table.chain _) found]
    refine inv.longest .subnet (fun ire => decide (ire.type &&& types ≠ 0 ∧ Contains ire dst))
      (fun i mem passes => ?_) fun j other contains => ?_
    · rw [decide_eq_true_iff] at passes
      exact ⟨⟨inv.mem_subnet_iff.1 mem, passes.1⟩, passes.2⟩
    · exact ⟨inv.mem_subnet_iff.2 other.1, decide_eq_true_iff.2 ⟨other.2, contains⟩⟩
  · rintro ⟨i, is_interface, contains⟩
    have mem := inv.mem_subnet_iff.2 is_interface
    rcases inv.ireLookup_cases looked with ⟨nothing, -⟩ | ⟨ne, rfl⟩
    · exact absurd (decide_eq_true_iff.2 contains) (find?_eq_none.1 nothing i mem)
    · refine ⟨ne, inv.longest .subnet (fun ire => decide (Contains ire dst))
        (fun i mem passes => ?_) fun j other contains => ?_⟩
      · exact ⟨inv.mem_subnet_iff.1 mem, decide_eq_true_iff.1 passes⟩
      · exact ⟨inv.mem_subnet_iff.2 other, decide_eq_true_iff.2 contains⟩
  · intro no_interface
    rcases inv.ireLookup_cases looked with ⟨-, rfl⟩ | ⟨ne, eq⟩
    · refine inv.longest (ireNetIrep dst) (fun ire => decide (Contains ire dst))
        (fun i mem passes => ?_) fun j other contains => ?_
      · exact ⟨inv.net_of_mem mem, decide_eq_true_iff.1 passes⟩
      · exact ⟨inv.mem_net other.1 other.2 contains, decide_eq_true_iff.2 contains⟩
    · obtain ⟨i, found⟩ := ne_none_iff_exists'.1 ne
      rw [found] at eq
      have mem := mem_of_find?_eq_some eq.symm
      have passes := find?_some eq.symm
      exact absurd ⟨i, inv.mem_subnet_iff.1 mem, decide_eq_true_iff.1 passes⟩ no_interface

theorem clean_of_empty {irep : Head} (placed_eq : placed ire = some (irep, x))
    (empty : s.slots.link (.head irep) = none) :
    Clean s ire := by
  intro irep' x' placed_eq' fuel p i scanned met
  rw [placed_eq] at placed_eq'
  obtain ⟨rfl, rfl⟩ : irep = irep' ∧ x = x' := by simpa using placed_eq'
  cases fuel with
  | zero => cases scanned
  | succ fuel =>
    rw [scan, empty] at scanned
    obtain rfl := some.inj scanned
    cases met with
    | here link_eq => cases empty.symm.trans link_eq
    | later link_eq => cases empty.symm.trans link_eq

def interfaceRoute : Ire := ⟨0x0a000000#32, 0xff000000#32, 0x0a000001#32, 0#32, some 0, subnet⟩

def netRoute : Ire := ⟨0x0a010000#32, 0xffff0000#32, 0#32, 0x0a000002#32, none, net⟩

/-- The interface route is there. -/
def oneRoute : State :=
  { start (fun _ => interfaceRoute) 0 with
    slots := (start (fun _ => interfaceRoute) 0).slots.insert (.head .subnet) 0
    ire := update (fun _ => interfaceRoute) 0 interfaceRoute
    allocated := update (fun _ => false) 0 true }

/-- Both routes are there. -/
def twoRoutes : State :=
  { oneRoute with
    slots := oneRoute.slots.insert (.head (ireNetIrep netRoute.addr)) 1
    ire := update oneRoute.ire 1 netRoute
    allocated := update oneRoute.allocated 1 true }

theorem reach_oneRoute : Reach oneRoute := by
  have added : ireAdd 9 (start (fun _ => interfaceRoute) 0) interfaceRoute (some 0) =
      some (oneRoute, some 0) := rfl
  exact .add (.start _ _) ⟨by decide, 8, by decide, by decide⟩ (clean_of_empty rfl rfl)
    (fun _ _ => rfl) added

theorem reach_twoRoutes : Reach twoRoutes := by
  have added : ireAdd 9 oneRoute netRoute (some 1) = some (twoRoutes, some 1) := rfl
  refine .add reach_oneRoute ⟨by decide, 16, by decide, by decide⟩ (clean_of_empty rfl rfl) ?_ added
  rintro _ ⟨⟩
  rfl

/-- A destination in both networks is sent by the interface route, with the shorter mask. -/
theorem interface_before_longer :
    Reach twoRoutes ∧ ireLookup 9 twoRoutes 0x0a010203#32 = some (some 0) ∧
    IsNet twoRoutes 1 ∧ Contains (twoRoutes.ire 1) 0x0a010203#32 ∧
    maskLen (twoRoutes.ire 0).mask < maskLen (twoRoutes.ire 1).mask :=
  ⟨reach_twoRoutes, by decide, ⟨by decide, by decide⟩, by decide, by decide⟩

def wideRoute : Ire := ⟨0x0b010000#32, 0xffff0000#32, 0#32, 0x0a000002#32, none, net⟩

def narrowRoute : Ire := ⟨0x0b010200#32, 0xffffff00#32, 0#32, 0x0a000003#32, none, net⟩

/-- Two network routes on one list, the second added in front of the first. -/
def threeRoutes : State :=
  { oneRoute with
    slots := (oneRoute.slots.insert (.head (ireNetIrep wideRoute.addr)) 1).insert
      (.head (ireNetIrep wideRoute.addr)) 2
    ire := update (update oneRoute.ire 1 wideRoute) 2 narrowRoute
    allocated := update (update oneRoute.allocated 1 true) 2 true }

theorem reach_threeRoutes : Reach threeRoutes := by
  obtain ⟨s, wide, narrow, differ, free⟩ : ∃ s, ireAdd 9 oneRoute wideRoute (some 1) =
      some (s, some 1) ∧ ireAdd 9 s narrowRoute (some 2) = some (threeRoutes, some 2) ∧
      (∀ i, narrowRoute.addr ≠ (s.ire i).addr) ∧ s.allocated 2 = false := by
    refine ⟨_, rfl, rfl, fun i => ?_, rfl⟩
    match i with
    | 0 => decide
    | 1 => decide
    | i + 2 => exact show narrowRoute.addr ≠ interfaceRoute.addr by decide
  refine .add (.add reach_oneRoute ⟨by decide, 16, by decide, by decide⟩ (clean_of_empty rfl rfl) ?_
    wide) ⟨by decide, 24, by decide, by decide⟩ ?_ ?_ narrow
  · rintro _ ⟨⟩
    rfl
  · rintro _ x placed_eq _ _ i - met
    obtain rfl : narrowRoute = x := congrArg Prod.snd (some.inj placed_eq)
    exact absurd met.addr_eq (differ i)
  · rintro _ ⟨⟩
    exact free

/-- A destination in both networks is sent by the route with the longer mask. -/
theorem routes_in_order_three :
    (∃ lists, InOrder threeRoutes lists) ∧
    ireLookup 9 threeRoutes 0x0b010203#32 = some (some 2) ∧
    Longest threeRoutes (IsNet threeRoutes)
      (fun i => IsNet threeRoutes i ∧ Classful (threeRoutes.ire i)) 0x0b010203#32 (some 2) := by
  obtain ⟨ordered, -, -, lookups⟩ := routes_in_order reach_threeRoutes
  have found : ireLookup 9 threeRoutes 0x0b010203#32 = some (some 2) := by decide
  refine ⟨ordered, found, ((lookups 0x0b010203#32).2 9 (some 2) found).2 ?_⟩
  rintro ⟨i, ⟨allocated, interface⟩, contains⟩
  match i with
  | 0 => exact absurd contains (by decide)
  | 1 => exact absurd interface (by decide)
  | 2 => exact absurd interface (by decide)
  | i + 3 => exact nomatch allocated

end Sol25.Route
