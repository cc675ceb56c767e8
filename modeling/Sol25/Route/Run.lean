import Sol25.Route.Order

/-!
# Runs of `ire_add` and `ire_delete`

Network and interface routes come and go.  The lists stay in order as long as the second loop of
`ire_add` meets no entry with the address of the new one and another mask.
-/

namespace Sol25.Route

open Slots Function List Option

variable {s s' : State} {ire x : Ire} {lists : Head → List ℕ} {alloc r : Option ℕ} {fuel i : ℕ}
  {dst : U32}

/-! ### Masks -/

/-- The mask of a number of bits. -/
def prefixMask (k : ℕ) : U32 := BitVec.allOnes 32 <<< (32 - k)

/-- The ones of a mask are in front. -/
def Contiguous (mask : U32) : Prop := ∃ k ≤ 32, mask = prefixMask k

def maskLen (mask : U32) : ℕ := (List.range 32).countP fun i => mask.getLsbD i

theorem maskLen_prefixMask : ∀ k ≤ 32, maskLen (prefixMask k) = k := by decide +kernel

theorem prefixMask_le :
    ∀ k ≤ 32, ∀ k' ≤ 32, (prefixMask k).toNat ≤ (prefixMask k').toNat → k ≤ k' := by
  decide +kernel

theorem Contiguous.maskLen_le {m m' : U32} (first : Contiguous m) (second : Contiguous m')
    (le : m.toNat ≤ m'.toNat) :
    maskLen m ≤ maskLen m' := by
  obtain ⟨k, k_le, rfl⟩ := first
  obtain ⟨k', k_le', rfl⟩ := second
  rw [maskLen_prefixMask k k_le, maskLen_prefixMask k' k_le']
  exact prefixMask_le k k_le k' k_le' le

/-! ### States -/

/-- Network and interface routes, with any mask whose ones are in front. -/
def IsRoute (ire : Ire) : Prop :=
  (ire.type = net ∨ ire.type = subnet ∨ ire.type = resolver) ∧ Contiguous ire.mask

/-- The entries with the address of a new one that the second loop of `ire_add` meets have its mask
too. -/
def Clean (s : State) (ire : Ire) : Prop :=
  ∀ irep x, placed ire = some (irep, x) → ∀ fuel p i, scan s x fuel (.head irep) = some p →
    Meets s x p i →
    (s.ire i).mask = x.mask

/-- No entries. -/
def start (ire : ℕ → Ire) (index : U32) : State where
  ire := ire
  slots := ⟨fun _ => none, fun _ => none⟩
  allocated := fun _ => false
  gatewayCount := 0
  gatewayIndex := index

/-- The states that `ire_add` and `ire_delete` lead to. -/
inductive Reach : State → Prop
  | start (ire : ℕ → Ire) (index : U32) : Reach (start ire index)
  | add {s s' : State} {fuel : ℕ} {ire : Ire} {alloc r : Option ℕ} : Reach s → IsRoute ire →
      Clean s ire →
      (∀ i, alloc = some i → s.allocated i = false) →
        ireAdd fuel s ire alloc = some (s', r) → Reach s'
  | delete {s : State} {i : ℕ} : Reach s → s.allocated i = true → Reach (ireDelete s i)

/-- An entry is on a list of its own kind. -/
inductive Belongs (e : Ire) : Head → Prop
  | subnet : e.type = subnet ∨ e.type = resolver → Belongs e .subnet
  | net {a : U32} : e.type = net → e.addr = a &&& e.mask → Belongs e (ireNetIrep a)

/-- The lists are in order. -/
structure Inv (s : State) (lists : Head → List ℕ) : Prop where
  table : s.slots.Table lists
  allocated : ∀ h, ∀ i ∈ lists h, s.allocated i = true
  listed : ∀ i, s.allocated i = true → ∃ h, i ∈ lists h
  sorted : ∀ h, Sorted ((lists h).map s.ire)
  grouped : ∀ h, Grouped ((lists h).map s.ire)
  contiguous : ∀ h, ∀ i ∈ lists h, Contiguous (s.ire i).mask
  belongs : ∀ h, ∀ i ∈ lists h, Belongs (s.ire i) h

theorem Inv.start (ire : ℕ → Ire) (index : U32) : Inv (start ire index) fun _ => [] where
  table := ⟨fun _ => chain_nil.2 rfl, fun _ => nodup_nil, fun _ _ _ _ => nofun⟩
  allocated := fun _ _ => nofun
  listed := fun _ => nofun
  sorted := fun _ => List.Pairwise.nil
  grouped := fun _ => List.Triplewise.nil
  contiguous := fun _ _ => nofun
  belongs := fun _ _ => nofun

theorem listOf_net (type_eq : ire.type = net) :
    listOf ire = some (ireNetIrep ire.addr, { ire with srcAddr := 0 }) := by
  rw [listOf, if_neg (by rw [type_eq]; decide), if_neg (by rw [type_eq]; decide),
    if_neg (by rw [type_eq]; decide), if_pos type_eq]

theorem listOf_interface (type_eq : ire.type = subnet ∨ ire.type = resolver) :
    listOf ire = some (.subnet, ire) := by
  rw [listOf, if_neg (by rcases type_eq with eq | eq <;> rw [eq] <;> decide),
    if_neg (by rcases type_eq with eq | eq <;> rw [eq] <;> decide), if_pos type_eq.symm]

/-- A route and the list that it goes to. -/
theorem IsRoute.placed_eq (route : IsRoute ire) :
    ∃ irep x, placed ire = some (irep, x) ∧ x.type ≠ gateway ∧ Contiguous x.mask ∧
      Belongs x irep := by
  obtain ⟨kind, contiguous⟩ := route
  rcases kind with type_eq | type_eq
  · refine ⟨ireNetIrep ire.addr, { ire with srcAddr := 0, addr := ire.addr &&& ire.mask }, ?_, ?_,
      contiguous, ?_⟩
    · rw [placed, listOf_net type_eq]
      rfl
    · rw [type_eq]
      decide
    · exact .net type_eq rfl
  · refine ⟨.subnet, { ire with addr := ire.addr &&& ire.mask }, ?_, ?_, contiguous,
      .subnet type_eq⟩
    · rw [placed, listOf_interface type_eq]
      rfl
    · rcases type_eq with eq | eq <;> rw [eq] <;> decide

/-- What `ire_add` does to the lists. -/
inductive Added (s : State) (lists : Head → List ℕ) (irep : Head) (x : Ire)
    (new : ℕ) : State → Option ℕ → Prop
  | old {i : ℕ} : i ∈ lists irep → s.ire i = x → Added s lists irep x new s (some i)
  | linked {front run rest : List ℕ} : lists irep = front ++ (run ++ rest) →
      (∀ i ∈ front, Skips x (s.ire i)) →
      (∀ i, (run ++ rest).head? = some i → ¬ Skips x (s.ire i)) →
      (∀ i ∈ run, (s.ire i).addr = x.addr ∧ (s.ire i).mask = x.mask) →
      (∀ i, rest.head? = some i → x.addr ≠ (s.ire i).addr) →
      Added s lists irep x new { s with
        ire := update s.ire new x
        slots := s.slots.insert (behind (.head irep) (front ++ run)) new
        allocated := update s.allocated new true } (some new)

theorem ireAdd_cases {irep : Head} {new : ℕ} (inv : Inv s lists)
    (placed_eq : placed ire = some (irep, x)) (not_gateway : x.type ≠ gateway) (clean : Clean s ire)
    (added : ireAdd fuel s ire (some new) = some (s', r)) :
    Added s lists irep x new s' r := by
  rw [ireAdd, placed_eq] at added
  dsimp only at added
  rw [if_neg not_gateway] at added
  have chain := inv.table.chain irep
  split at added
  next => exact nomatch added
  next i found =>
    obtain ⟨p, scanned, grouped⟩ := bind_eq_some_iff.1 found
    obtain ⟨front, rest, split, rfl, -, -⟩ := scan_split chain scanned
    rw [split] at chain
    obtain ⟨⟩ := added
    cases scanGroup_split (chain_append.1 chain).2 grouped with
    | old mem met duplicate =>
      have addr_eq := met.addr_eq
      have mask_eq := clean irep x placed_eq fuel _ i scanned met
      obtain ⟨-, type_eq, gateway_eq, src_eq, stq_eq⟩ := duplicate
      refine .old (by rw [split]; exact mem_append_right front mem) ?_
      generalize s.ire i = e at *
      cases e
      cases x
      simp_all
  next p found =>
    obtain ⟨p', scanned, grouped⟩ := bind_eq_some_iff.1 found
    obtain ⟨front, rest, split, rfl, skipped, stopped⟩ := scan_split chain scanned
    rw [split] at chain
    obtain ⟨⟩ := added
    cases scanGroup_split (chain_append.1 chain).2 grouped with
    | @place run rest' split' met other =>
      subst split'
      rw [← behind_append]
      exact .linked split skipped stopped (fun i mem => ⟨(met i mem).addr_eq.symm,
          clean irep x placed_eq fuel _ i scanned (met i mem)⟩) other

theorem map_update {new : ℕ} {l : List ℕ} (fresh : new ∉ l) :
    l.map (update s.ire new x) = l.map s.ire := by
  refine map_congr_left fun i mem => update_of_ne ?_ _ _
  rintro rfl
  exact fresh mem

/-- `ire_add` keeps the lists in order. -/
theorem Inv.linked {irep : Head} {new : ℕ} (inv : Inv s lists) (fresh : s.allocated new = false)
    (contiguous : Contiguous x.mask) (belongs : Belongs x irep)
    (added : Added s lists irep x new s' r) :
    ∃ lists', Inv s' lists' := by
  cases added with
  | old => exact ⟨lists, inv⟩
  | @linked front run rest split skipped stopped same other =>
    have not_listed : ∀ h, new ∉ lists h := by
      intro h mem
      rw [inv.allocated h new mem] at fresh
      exact nomatch fresh
    have not_here := not_listed irep
    have sorted := inv.sorted irep
    have grouped := inv.grouped irep
    rw [split] at not_here
    rw [split, map_append, map_append] at sorted grouped
    have others : ∀ {h}, ∀ i ∈ lists h, i ≠ new := by
      rintro h i mem rfl
      exact not_listed h mem
    have members : ∀ h, ∀ i ∈ update lists irep (front ++ run ++ new :: rest) h,
        i = new ∧ h = irep ∨ i ∈ lists h := by
      intro h i mem
      by_cases here : h = irep
      · subst here
        rw [update_self] at mem
        rw [split]
        simp only [mem_append, mem_cons] at mem ⊢
        tauto
      · rw [update_of_ne here] at mem
        exact Or.inr mem
    have skipped' : ∀ e ∈ front.map s.ire, Skips x e := List.forall_mem_map.2 skipped
    have same' : ∀ e ∈ run.map s.ire, e.addr = x.addr ∧ e.mask = x.mask :=
      List.forall_mem_map.2 same
    have stopped' : ∀ e, (run.map s.ire ++ rest.map s.ire).head? = some e → ¬ Skips x e := by
      intro e first
      rw [← map_append, head?_map, map_eq_some_iff] at first
      obtain ⟨i, first, rfl⟩ := first
      exact stopped i first
    have other' : ∀ e, (rest.map s.ire).head? = some e → x.addr ≠ e.addr := by
      intro e first
      rw [head?_map, map_eq_some_iff] at first
      obtain ⟨i, first, rfl⟩ := first
      exact other i first
    have mapped : (front ++ run ++ new :: rest).map (update s.ire new x) =
        front.map s.ire ++ (run.map s.ire ++ x :: rest.map s.ire) := by
      simp only [mem_append, not_or] at not_here
      rw [map_append, map_append, map_cons, update_self,
        map_update not_here.1, map_update not_here.2.1, map_update not_here.2.2,
        append_assoc]
    refine ⟨update lists irep (front ++ run ++ new :: rest), ?_, ?_, ?_, ?_, ?_, ?_, ?_⟩
    · exact inv.table.insert (split.trans (append_assoc ..).symm) not_listed
    · intro h i mem
      dsimp only
      rcases members h i mem with ⟨rfl, -⟩ | mem
      · exact update_self ..
      · rw [update_of_ne (others i mem)]
        exact inv.allocated h i mem
    · intro i allocated
      dsimp only at allocated
      by_cases is_new : i = new
      · refine ⟨irep, ?_⟩
        rw [update_self, is_new]
        exact mem_append_right _ mem_cons_self
      · rw [update_of_ne is_new] at allocated
        obtain ⟨h, mem⟩ := inv.listed i allocated
        refine ⟨h, ?_⟩
        by_cases here : h = irep
        · subst here
          rw [split] at mem
          rw [update_self]
          simp only [mem_append, mem_cons] at mem ⊢
          tauto
        · rwa [update_of_ne here]
    · intro h
      dsimp only
      by_cases here : h = irep
      · subst here
        rw [update_self, mapped]
        exact Sorted.insert sorted skipped' stopped' same' other'
      · rw [update_of_ne here, map_update (not_listed h)]
        exact inv.sorted h
    · intro h
      dsimp only
      by_cases here : h = irep
      · subst here
        rw [update_self, mapped]
        exact Grouped.insert sorted skipped' stopped' same' other' grouped
      · rw [update_of_ne here, map_update (not_listed h)]
        exact inv.grouped h
    · intro h i mem
      dsimp only
      rcases members h i mem with ⟨rfl, -⟩ | mem
      · rwa [update_self]
      · rw [update_of_ne (others i mem)]
        exact inv.contiguous h i mem
    · intro h i mem
      dsimp only
      rcases members h i mem with ⟨rfl, rfl⟩ | mem
      · rwa [update_self]
      · rw [update_of_ne (others i mem)]
        exact inv.belongs h i mem

/-- `ire_delete` keeps the lists in order. -/
theorem Inv.ireDelete (inv : Inv s lists) (allocated : s.allocated i = true) :
    ∃ lists', Inv (ireDelete s i) lists' := by
  obtain ⟨irep, mem⟩ := inv.listed i allocated
  obtain ⟨front, rest, split⟩ := append_of_mem mem
  have nodup := inv.table.nodup irep
  have sorted := inv.sorted irep
  have grouped := inv.grouped irep
  rw [split] at nodup
  rw [split, map_append, map_cons] at sorted grouped
  have not_mem : i ∉ front ++ rest := (nodup_cons.1 (perm_middle.nodup_iff.1 nodup)).1
  have members : ∀ h, ∀ j ∈ update lists irep (front ++ rest) h, j ≠ i ∧ j ∈ lists h := by
    intro h j j_mem
    by_cases here : h = irep
    · subst here
      rw [update_self] at j_mem
      refine ⟨?_, ?_⟩
      · rintro rfl
        exact not_mem j_mem
      · rw [split]
        simp only [mem_append, mem_cons] at j_mem ⊢
        tauto
    · rw [update_of_ne here] at j_mem
      refine ⟨?_, j_mem⟩
      rintro rfl
      exact inv.table.apart h irep here j j_mem mem
  refine ⟨update lists irep (front ++ rest), inv.table.remove split, ?_, ?_, ?_, ?_, ?_, ?_⟩
  · intro h j j_mem
    obtain ⟨ne, j_mem⟩ := members h j j_mem
    dsimp only [Route.ireDelete]
    rw [update_of_ne ne]
    exact inv.allocated h j j_mem
  · intro j j_allocated
    dsimp only [Route.ireDelete] at j_allocated
    have ne : j ≠ i := by
      rintro rfl
      rw [update_self] at j_allocated
      cases j_allocated
    rw [update_of_ne ne] at j_allocated
    obtain ⟨h, j_mem⟩ := inv.listed j j_allocated
    refine ⟨h, ?_⟩
    by_cases here : h = irep
    · subst here
      rw [split] at j_mem
      rw [update_self]
      simp only [mem_append, mem_cons] at j_mem ⊢
      tauto
    · rwa [update_of_ne here]
  · intro h
    dsimp only [Route.ireDelete]
    by_cases here : h = irep
    · subst here
      rw [update_self, map_append]
      exact sorted.sublist (Sublist.append_left (sublist_cons_self _ _) _)
    · rw [update_of_ne here]
      exact inv.sorted h
  · intro h
    dsimp only [Route.ireDelete]
    by_cases here : h = irep
    · subst here
      rw [update_self, map_append]
      exact grouped.remove
    · rw [update_of_ne here]
      exact inv.grouped h
  · exact fun h j j_mem => inv.contiguous h j (members h j j_mem).2
  · exact fun h j j_mem => inv.belongs h j (members h j j_mem).2

theorem Reach.inv (reach : Reach s) : ∃ lists, Inv s lists := by
  induction reach with
  | start ire index => exact ⟨_, Inv.start ire index⟩
  | @add s s' fuel ire alloc r _ route clean fresh added ih =>
    obtain ⟨lists, inv⟩ := ih
    cases alloc with
    | none =>
      obtain ⟨⟩ := added
      exact ⟨lists, inv⟩
    | some new =>
      obtain ⟨irep, x, placed_eq, not_gateway, contiguous, belongs⟩ := route.placed_eq
      exact inv.linked (fresh new rfl) contiguous belongs
        (ireAdd_cases inv placed_eq not_gateway clean added)
  | delete _ allocated ih =>
    obtain ⟨lists, inv⟩ := ih
    exact inv.ireDelete allocated

end Sol25.Route
