import Sol25.Swapfs.Putapage

/-!
# Clusters of pages

The pages that `swap_putapage` hands to `VOP_PAGEIO` are a ring that names one slot after the other.
A page that is already in the ring is locked and not found again, and a page that is left out keeps
what says that it is modified.
-/

namespace Sol25.Swapfs

open Function List Option Nat

variable {env : Env} {st st' st'' : State} {p q vp off flags klustsize : ℕ}

/-- The flags with which a page is looked at that was queued. -/
def queuedFlags : ℕ := bAsync ||| bFree ||| bDelwri

/-- Nothing is done but to one page, and that neither moves nor names it. -/
structure Quiet (p : ℕ) (st st' : State) : Prop where
  hashed : st'.hashed = st.hashed
  vnode : st'.vnode = st.vnode
  offset : st'.offset = st.offset
  next : st'.next = st.next
  prev : st'.prev = st.prev
  anon : st'.anon = st.anon
  selock : ∀ q ≠ p, st'.selock q = st.selock q
  modified : ∀ q ≠ p, (st'.Modified q ↔ st.Modified q)

theorem modified_congr (mod : st'.mod q = st.mod q) (mapped : st'.mapped q = st.mapped q)
    (hwmod : st'.hwmod q = st.hwmod q) : st'.Modified q ↔ st.Modified q := by
  rw [State.Modified, State.Modified, mod, mapped, hwmod]

namespace Quiet

theorem trans (first : Quiet p st st') (second : Quiet p st' st'') : Quiet p st st'' :=
  ⟨second.hashed.trans first.hashed, second.vnode.trans first.vnode,
    second.offset.trans first.offset, second.next.trans first.next, second.prev.trans first.prev,
    second.anon.trans first.anon, fun q ne => (second.selock q ne).trans (first.selock q ne),
    fun q ne => (second.modified q ne).trans (first.modified q ne)⟩

theorem hatSetmod (p : ℕ) (st : State) : Quiet p st (st.hatSetmod p) :=
  ⟨rfl, rfl, rfl, rfl, rfl, rfl, fun _ _ => rfl,
    fun _ ne => modified_congr (update_of_ne ne _ _) rfl rfl⟩

theorem hatClrrefmod (p : ℕ) (st : State) : Quiet p st (st.hatClrrefmod p) :=
  ⟨rfl, rfl, rfl, rfl, rfl, rfl, fun _ _ => rfl,
    fun _ ne => modified_congr (update_of_ne ne _ _) rfl rfl⟩

theorem hatPagesync (p : ℕ) (st : State) : Quiet p st (st.hatPagesync p) :=
  ⟨rfl, rfl, rfl, rfl, rfl, rfl, fun _ _ => rfl, fun _ ne =>
    modified_congr (update_of_ne ne _ _) rfl (update_of_ne ne _ _)⟩

theorem hatPageunload (p : ℕ) (st : State) : Quiet p st (st.hatPageunload p) :=
  (hatPagesync p st).trans ⟨rfl, rfl, rfl, rfl, rfl, rfl, fun _ _ => rfl,
    fun _ ne => modified_congr rfl (update_of_ne ne _ _) rfl⟩

theorem ofSelock (selock : ∀ q ≠ p, st'.selock q = st.selock q)
    (same : st' = { st with selock := st'.selock }) : Quiet p st st' := by
  rw [same]
  exact ⟨rfl, rfl, rfl, rfl, rfl, rfl, selock, fun _ _ => Iff.rfl⟩

theorem pageUnlock (p : ℕ) (st : State) : Quiet p st (st.pageUnlock p) :=
  ofSelock (fun _ ne => update_of_ne ne _ _) rfl

theorem pageDowngrade (p : ℕ) (st : State) : Quiet p st (st.pageDowngrade p) :=
  ofSelock (fun _ ne => update_of_ne ne _ _) rfl

theorem pageIoLock (p : ℕ) (st : State) : Quiet p st (st.pageIoLock p) :=
  ⟨rfl, rfl, rfl, rfl, rfl, rfl, fun _ _ => rfl, fun _ _ => Iff.rfl⟩

theorem pageIoUnlock (p : ℕ) (st : State) : Quiet p st (st.pageIoUnlock p) :=
  ⟨rfl, rfl, rfl, rfl, rfl, rfl, fun _ _ => rfl, fun _ _ => Iff.rfl⟩

theorem pageFree (p : ℕ) (st : State) : Quiet p st (st.pageFree p) :=
  (pageUnlock p st).trans ⟨rfl, rfl, rfl, rfl, rfl, rfl, fun _ _ => rfl,
    fun _ ne => modified_congr (update_of_ne ne _ _) rfl rfl⟩

theorem giveUp (p : ℕ) (st : State) :
    Quiet p st (((st.hatSetmod p).pageIoUnlock p).pageUnlock p) :=
  ((hatSetmod p st).trans (pageIoUnlock p _)).trans (pageUnlock p _)

end Quiet

theorem modified_giveUp (p : ℕ) (st : State) :
    (((st.hatSetmod p).pageIoUnlock p).pageUnlock p).Modified p := by
  refine .inl ?_
  change update st.mod p true p = true
  rw [update_self]

theorem mod_hatPageunload (mapped : st.mapped p = true) :
    (st.hatPageunload p).mod p = true ↔ st.Modified p := by
  have mod_eq : (st.hatPageunload p).mod p = (st.mod p || st.hwmod p) := update_self p _ _
  rw [mod_eq, Bool.or_eq_true, State.Modified, mapped, and_iff_right rfl]

/-- What may come of a page that was queued and has been locked: it has to be written, and stays
locked, or it is let go with its mark. -/
def Sorted (p : ℕ) (st : State) : Bool × State → Prop
  | (true, st') => Quiet p st st' ∧ st'.selock p = 1
  | (false, st') => Quiet p st st' ∧ (st.Modified p → st'.Modified p)

/-- The page with the marks of its translations. -/
def synced (p : ℕ) (st : State) : State :=
  if (st.pageIoLock p).mapped p = true then (st.pageIoLock p).hatPageunload p else st.pageIoLock p

theorem synced_spec (p : ℕ) (st : State) :
    Quiet p st (synced p st) ∧ ((synced p st).mod p = true ↔ st.Modified p) := by
  rw [synced]
  split
  · next mapped =>
      exact ⟨(Quiet.pageIoLock p st).trans (.hatPageunload p _), mod_hatPageunload mapped⟩
  · next mapped =>
      exact ⟨.pageIoLock p st, .inl,
        fun modified => modified.resolve_right fun both => mapped both.1⟩

theorem pvnGetdirtyLocked_eq (p : ℕ) (st : State) :
    st.pvnGetdirtyLocked p queuedFlags =
      if (synced p st).mod p = false then (false, ((synced p st).pageIoUnlock p).pageFree p)
      else (true, ((synced p st).hatClrrefmod p).pageDowngrade p) := by
  have frees : Has queuedFlags bFree := by decide
  have either : Has queuedFlags (bInval ||| bFree) := by decide
  have no_trunc : ¬Has queuedFlags bTrunc := by decide
  have no_inval : ¬Has queuedFlags bInval := by decide
  simp only [State.pvnGetdirtyLocked, frees, either, no_trunc, no_inval, if_true, if_false,
    or_false]
  rfl

theorem pvnGetdirty_spec (p : ℕ) (st : State) : Sorted p st (st.pvnGetdirty p queuedFlags) := by
  have unlocked : Sorted p st (false, st.pageUnlock p) := ⟨.pageUnlock p st, id⟩
  obtain ⟨quiet, mod_iff⟩ := synced_spec p st
  rw [State.pvnGetdirty]
  split
  · exact unlocked
  · split
    · exact unlocked
    · rw [pvnGetdirtyLocked_eq]
      split
      · next clean =>
          refine ⟨(quiet.trans (.pageIoUnlock p _)).trans (.pageFree p _), fun modified => ?_⟩
          rw [mod_iff.2 modified] at clean
          exact nomatch clean
      · exact ⟨(quiet.trans (.hatClrrefmod p _)).trans (.pageDowngrade p _), update_self p _ _⟩

/-- A page that is found under a lock of its own was not locked before. -/
theorem pageLookupNowait_spec (found : st.pageLookupNowait vp off .excl = some (q, st')) :
    q ∈ st.hashed ∧ st.vnode q = vp ∧ st.offset q = off ∧ st.selock q = 0 ∧ Quiet q st st' ∧
      (st.Modified q → st'.Modified q) := by
  rw [State.pageLookupNowait] at found
  split at found
  · exact nomatch found
  · next q' searched =>
      have named := find?_some searched
      have mem := mem_of_find?_eq_some searched
      obtain ⟨vnode_eq, offset_eq⟩ : st.vnode q' = vp ∧ st.offset q' = off := by simpa using named
      split at found
      · exact nomatch found
      · rw [State.pageTrylock] at found
        split at found
        · next unlocked =>
            obtain ⟨rfl, rfl⟩ : q' = q ∧ _ = st' := by simpa using found
            exact ⟨mem, vnode_eq, offset_eq, unlocked,
              .ofSelock (fun _ ne => update_of_ne ne _ _) rfl, id⟩
        · exact nomatch found

/-- A page gets the name of a slot, or none; no other name changes. -/
theorem swapNewphysname_spec (env : Env) (st : State) (vp off : ℕ) :
    ∃ anon', (swapNewphysname env st vp off off pagesize).2 =
        { st with allocs := st.allocs + 1, anon := anon' } ∧
      (∀ v o, ¬(v = vp ∧ o = off) → anon' v o = st.anon v o) ∧
      ∀ phys, (swapNewphysname env st vp off off pagesize).1 = .ok phys →
        anon' vp off = some (some (phys.pvp, phys.poff)) ∧
          (phys.poff < 2 ^ 32 ∨ st.anon vp off = some (some (phys.pvp, phys.poff))) := by
  rw [swapNewphysname]
  dsimp only
  cases env.alloc st.allocs pagesize with
  | none =>
    dsimp only
    refine ⟨st.anon, ?_, fun _ _ _ => rfl, fun phys got => ?_⟩
    · split <;> rfl
    · split at got
      · exact nomatch got
      · exact nomatch got
      · next phys' anon_eq =>
          obtain rfl := Except.ok.inj got
          exact ⟨anon_eq, .inr anon_eq⟩
  | some g =>
    have plen_eq : g.plen = pagesize := by
      obtain ⟨n, whole⟩ := g.whole
      have pos := g.pos
      have le := g.le
      simp only [pagesize] at whole le ⊢
      omega
    have start_eq : max off (if g.plen < (off + pagesize) % 2 ^ 32 then
        (off + pagesize) % 2 ^ 32 - g.plen else 0) = off := by
      rw [plen_eq, pagesize]
      split <;> omega
    dsimp only
    rw [start_eq, show g.plen / pagesize = 1 by rw [plen_eq]; rfl, nameLoop]
    dsimp only
    cases anon_eq : st.anon vp off with
    | none =>
      dsimp only
      rw [if_neg (Nat.lt_irrefl off), if_pos rfl]
      exact ⟨st.anon, rfl, fun _ _ _ => rfl, fun phys got => nomatch got⟩
    | some old =>
      dsimp only
      rw [nameLoop]
      refine ⟨_, rfl, fun v o other => ?_, fun phys got => ?_⟩
      · by_cases same : v = vp
        · rw [same, update_self]
          exact update_of_ne (fun eq => other ⟨same, eq⟩) _ _
        · rw [update_of_ne same]
      · obtain rfl := Except.ok.inj got
        rw [update_self, update_self]
        exact ⟨rfl, .inl (Nat.lt_of_le_of_lt (Nat.le_add_right _ _) g.inside)⟩

/-- The names of the pages that can be found. -/
def State.Hashed (st : State) : Prop :=
  ∀ p ∈ st.hashed, ∀ q ∈ st.hashed, st.vnode p = st.vnode q → st.offset p = st.offset q → p = q

/-- What is true of the pages in the cluster, and of those that are not, while it grows.

One page may be in hand: it is neither in the cluster nor left alone. -/
structure Inv (st₀ st : State) (kl : Kluster) (l : List ℕ) (hand : Option ℕ) : Prop where
  closed : Ring.Closed st.next st.prev kl.pplist l
  size : kl.klsz = (l.length + 1) * pagesize
  bound : kl.klsz < 2 ^ 32
  found : ∀ p ∈ kl.pplist :: l, p ∈ st.hashed
  locked : ∀ p ∈ kl.pplist :: l, st.selock p ≠ 0
  slot : ∀ k p, (kl.pplist :: l)[k]? = some p → st.anon (st.vnode p) (st.offset p) =
    some (some (kl.klvp, (kl.klstart + k * pagesize) % 2 ^ 32))
  kept : ∀ p, p ∉ kl.pplist :: l → hand ≠ some p → st₀.Modified p → st.Modified p

variable {st₀ : State} {kl : Kluster} {l : List ℕ} {hand hand' : Option ℕ}

/-- A page that is not in the cluster is worked on. -/
theorem Inv.quiet (inv : Inv st₀ st kl l hand) (quiet : Quiet q st st') (new : q ∉ kl.pplist :: l)
    (hands : hand = none ∨ hand = some q)
    (kept : hand' = some q ∨ hand' = none ∧ (st₀.Modified q → st'.Modified q)) :
    Inv st₀ st' kl l hand' := by
  refine ⟨?_, inv.size, inv.bound, fun p mem => ?_, fun p mem => ?_, fun k p at_k => ?_,
    fun p out free before => ?_⟩
  · rw [quiet.next, quiet.prev]
    exact inv.closed
  · rw [quiet.hashed]
    exact inv.found p mem
  · rw [quiet.selock p fun eq => new (eq ▸ mem)]
    exact inv.locked p mem
  · rw [quiet.anon, quiet.vnode, quiet.offset]
    exact inv.slot k p at_k
  · by_cases same : p = q
    · rw [same] at free before ⊢
      rcases kept with in_hand | ⟨-, kept⟩
      · exact (free in_hand).elim
      · exact kept before
    · refine (quiet.modified p same).2 (inv.kept p out ?_ before)
      rcases hands with rfl | rfl
      · exact nofun
      · exact fun eq => same (some.inj eq).symm

theorem Inv.renamed (inv : Inv st₀ st kl l hand) {n : ℕ} {anon' : ℕ → ℕ → Option (Option (ℕ × ℕ))}
    (hashed : st.Hashed) (q_mem : q ∈ st.hashed) (new : q ∉ kl.pplist :: l)
    (other : ∀ v o, ¬(v = st.vnode q ∧ o = st.offset q) → anon' v o = st.anon v o) :
    Inv st₀ { st with allocs := n, anon := anon' } kl l hand := by
  refine ⟨inv.closed, inv.size, inv.bound, inv.found, inv.locked, fun k p at_k => ?_, inv.kept⟩
  have mem := mem_of_getElem? at_k
  refine (other _ _ fun same => ?_).trans (inv.slot k p at_k)
  exact new (hashed p (inv.found p mem) q q_mem same.1 same.2 ▸ mem)

theorem Inv.queue (inv : Inv st₀ st kl l hand) (pendlist : List Req) (pendingSize : ℤ)
    (freelist : ℕ) :
    Inv st₀ { st with pendlist := pendlist, pendingSize := pendingSize, freelist := freelist } kl l
      hand :=
  ⟨inv.closed, inv.size, inv.bound, inv.found, inv.locked, inv.slot, inv.kept⟩

/-- A page whose slot is behind the last one. -/
theorem Inv.append (inv : Inv st₀ st kl l (some q)) (room : kl.klsz + pagesize < 2 ^ 32)
    (q_mem : q ∈ st.hashed) (new : q ∉ kl.pplist :: l) (q_locked : st.selock q ≠ 0)
    (q_slot : st.anon (st.vnode q) (st.offset q) =
      some (some (kl.klvp, (kl.klstart + kl.klsz) % 2 ^ 32))) :
    Inv st₀ (st.pageAdd q kl.pplist)
        { kl with
          klsz := (kl.klsz + pagesize) % 2 ^ 32
          pplist := (st.pageAdd q kl.pplist).next q } (l ++ [q]) none ∧
      (st.pageAdd q kl.pplist).next q = kl.pplist := by
  have next_eq : (st.pageAdd q kl.pplist).next q = kl.pplist := (inv.closed.insert new).path.1.1
  have size := inv.size
  have either (p : ℕ) (mem : p ∈ kl.pplist :: (l ++ [q])) : p ∈ kl.pplist :: l ∨ p = q := by
    rw [← cons_append, mem_append, mem_singleton] at mem
    exact mem
  refine ⟨⟨?_, ?_, mod_lt _ (by decide), fun p mem => ?_, fun p mem => ?_, fun k p at_k => ?_,
    fun p out _ before => ?_⟩, next_eq⟩
  · rw [next_eq]
    exact inv.closed.append new
  · dsimp only
    rw [mod_eq_of_lt room, length_append, length_singleton, size, succ_mul (l.length + 1)]
  · rw [next_eq] at mem
    rcases either p mem with mem | rfl
    · exact inv.found p mem
    · exact q_mem
  · rw [next_eq] at mem
    rcases either p mem with mem | rfl
    · exact inv.locked p mem
    · exact q_locked
  · rw [next_eq, ← cons_append] at at_k
    by_cases inside : k < (kl.pplist :: l).length
    · rw [getElem?_append_left inside] at at_k
      exact inv.slot k p at_k
    · rw [getElem?_append_right (Nat.le_of_not_lt inside)] at at_k
      have at_end := (List.getElem?_eq_some_iff.1 at_k).1
      rw [length_cons] at inside at_end
      obtain rfl : k = l.length + 1 := by
        rw [length_singleton] at at_end
        omega
      rw [length_cons, Nat.sub_self] at at_k
      obtain rfl : q = p := some.inj at_k
      rw [← size]
      exact q_slot
  · rw [next_eq, ← cons_append] at out
    refine inv.kept p (fun mem => out (mem_append_left _ mem)) (fun eq => ?_) before
    obtain rfl := some.inj eq
    exact out (mem_append_right _ (mem_singleton_self q))

/-- A page whose slot is in front of the first one. -/
theorem Inv.prepend (inv : Inv st₀ st kl l (some q)) (room : kl.klsz + pagesize < 2 ^ 32)
    (q_mem : q ∈ st.hashed) (new : q ∉ kl.pplist :: l) (q_locked : st.selock q ≠ 0)
    (q_slot : st.anon (st.vnode q) (st.offset q) =
      some (some (kl.klvp, (kl.klstart + 2 ^ 32 - pagesize) % 2 ^ 32))) :
    Inv st₀ (st.pageAdd q kl.pplist)
      { kl with
        klsz := (kl.klsz + pagesize) % 2 ^ 32
        klstart := (kl.klstart + 2 ^ 32 - pagesize) % 2 ^ 32
        pplist := q } (kl.pplist :: l) none := by
  refine ⟨inv.closed.insert new, ?_, mod_lt _ (by decide), fun p mem => ?_, fun p mem => ?_,
    fun k p at_k => ?_,
    fun p out _ before => inv.kept p (fun mem => out (mem_cons_of_mem _ mem))
      (fun eq => out (some.inj eq ▸ mem_cons_self)) before⟩
  · dsimp only
    rw [mod_eq_of_lt room, inv.size, length_cons, succ_mul (l.length + 1)]
  · rcases mem_cons.1 mem with rfl | mem
    · exact q_mem
    · exact inv.found p mem
  · rcases mem_cons.1 mem with rfl | mem
    · exact q_locked
    · exact inv.locked p mem
  · cases k with
    | zero =>
      obtain rfl : q = p := some.inj at_k
      have place_eq : (kl.klstart + 2 ^ 32 - pagesize) % 2 ^ 32 =
          ((kl.klstart + 2 ^ 32 - pagesize) % 2 ^ 32 + 0 * pagesize) % 2 ^ 32 := by
        simp only [pagesize]
        omega
      exact q_slot.trans (congrArg (fun place => some (some (kl.klvp, place))) place_eq)
    | succ k =>
      have place_eq : (kl.klstart + k * pagesize) % 2 ^ 32 =
          ((kl.klstart + 2 ^ 32 - pagesize) % 2 ^ 32 + (k + 1) * pagesize) % 2 ^ 32 := by
        simp only [pagesize]
        omega
      exact (inv.slot k p at_k).trans
        (congrArg (fun place => some (some (kl.klvp, place))) place_eq)

theorem State.Hashed.congr (hashed : st.Hashed) (hashed_eq : st'.hashed = st.hashed)
    (vnode_eq : st'.vnode = st.vnode) (offset_eq : st'.offset = st.offset) : st'.Hashed := by
  rw [State.Hashed, hashed_eq, vnode_eq, offset_eq]
  exact hashed

/-- The page in hand gets the name of a slot, or none. -/
theorem Inv.newphysname {r : Except SeErr Phys} (inv : Inv st₀ st kl l (some q))
    (hashed : st.Hashed) (q_mem : q ∈ st.hashed) (new : q ∉ kl.pplist :: l)
    (vnode_eq : st.vnode q = vp) (offset_eq : st.offset q = off)
    (named : swapNewphysname env st vp off off pagesize = (r, st')) :
    Inv st₀ st' kl l (some q) ∧ st'.Hashed ∧ q ∈ st'.hashed ∧ st'.selock = st.selock ∧
      ∀ phys, r = .ok phys →
        st'.anon (st'.vnode q) (st'.offset q) = some (some (phys.pvp, phys.poff)) := by
  obtain ⟨anon', st_eq, other, assigned⟩ := swapNewphysname_spec env st vp off
  rw [named] at st_eq assigned
  dsimp only at st_eq assigned
  rw [st_eq]
  refine ⟨inv.renamed hashed q_mem new ?_, hashed.congr rfl rfl rfl, q_mem, rfl, fun phys got => ?_⟩
  · rw [vnode_eq, offset_eq]
    exact other
  · dsimp only
    rw [vnode_eq, offset_eq]
    exact (assigned phys got).1

/-- A result of the loop: the cluster with the pages it had before, and perhaps more. -/
def Grown (st₀ : State) (old : List ℕ) : Kluster × State → Prop
  | (kl, st) => ∃ l, Inv st₀ st kl l none ∧ ∀ p ∈ old, p ∈ kl.pplist :: l

theorem Grown.mono {old old' : List ℕ} {res : Kluster × State} (grown : Grown st₀ old res)
    (sub : ∀ p ∈ old', p ∈ old) : Grown st₀ old' res := by
  obtain ⟨l, inv, kept⟩ := grown
  exact ⟨l, inv, fun p mem => kept p (sub p mem)⟩

/-- The cluster grows request by request. -/
theorem klusterLoop_spec (inv : Inv st₀ st kl l none) (hashed : st.Hashed)
    (small : klustsize < 2 ^ 31) (reqs : List Req) :
    Grown st₀ (kl.pplist :: l) (klusterLoop env (bAsync ||| bFree) klustsize .excl reqs kl st) := by
  induction reqs generalizing kl st l with
  | nil => exact ⟨l, inv, fun _ mem => mem⟩
  | cons arg rest ih =>
    rw [klusterLoop]
    by_cases short : kl.klsz < klustsize
    · rw [if_pos short]
      have inv₁ : Inv st₀ (st.swGetreq rest) kl l none := inv.queue rest _ _
      cases lookup : (st.swGetreq rest).pageLookupNowait arg.vp arg.off .excl with
      | none => exact ⟨l, inv₁.queue rest _ _, fun _ mem => mem⟩
      | some found =>
        obtain ⟨q, st₂⟩ := found
        obtain ⟨q_mem, vnode_eq, offset_eq, unlocked, quiet₂, kept₂⟩ := pageLookupNowait_spec lookup
        have new : q ∉ kl.pplist :: l := fun mem => inv.locked q mem unlocked
        have kept : st₀.Modified q → st₂.Modified q := fun before =>
          kept₂ (inv₁.kept q new nofun before)
        have inv₂ : Inv st₀ st₂ kl l none := inv₁.quiet quiet₂ new (.inl rfl) (.inr ⟨rfl, kept⟩)
        have hashed₂ : st₂.Hashed := hashed.congr quiet₂.hashed quiet₂.vnode quiet₂.offset
        have sorted := pvnGetdirty_spec q st₂
        rw [← quiet₂.hashed] at q_mem
        rw [← quiet₂.vnode] at vnode_eq
        rw [← quiet₂.offset] at offset_eq
        dsimp only
        cases looked : st₂.pvnGetdirty q (bAsync ||| bFree ||| bDelwri) with
        | mk dirty st₃ =>
          have sorted : Sorted q st₂ (dirty, st₃) := by
            rw [← looked]
            exact sorted
          cases dirty with
          | false =>
            have inv₃ : Inv st₀ st₃ kl l none := inv₂.quiet sorted.1 new (.inl rfl)
              (.inr ⟨rfl, fun before => sorted.2 (kept before)⟩)
            exact ih (inv₃.queue st₃.pendlist st₃.pendingSize _)
              (hashed₂.congr sorted.1.hashed sorted.1.vnode sorted.1.offset)
          | true =>
            have inv₃ : Inv st₀ st₃ kl l (some q) := inv₂.quiet sorted.1 new (.inl rfl) (.inl rfl)
            have hashed₃ : st₃.Hashed :=
              hashed₂.congr sorted.1.hashed sorted.1.vnode sorted.1.offset
            rw [← sorted.1.hashed] at q_mem
            rw [← sorted.1.vnode] at vnode_eq
            rw [← sorted.1.offset] at offset_eq
            dsimp only
            cases named : swapNewphysname env st₃ arg.vp arg.off arg.off pagesize with
            | mk r st₄ =>
              obtain ⟨inv₄, hashed₄, q_mem, selock_eq, assigned⟩ :=
                inv₃.newphysname hashed₃ q_mem new vnode_eq offset_eq named
              have q_locked : st₄.selock q ≠ 0 := by
                rw [selock_eq, sorted.2]
                decide
              have given_up : Grown st₀ (kl.pplist :: l)
                  (kl, (((st₄.hatSetmod q).pageIoUnlock q).pageUnlock q).swPutreq arg) :=
                ⟨l, (inv₄.quiet (.giveUp q st₄) new (.inr rfl)
                  (.inr ⟨rfl, fun _ => modified_giveUp q st₄⟩)).queue _ _ _, fun _ mem => mem⟩
              cases r with
              | error e => exact given_up
              | ok phys =>
                have anon_eq := assigned phys rfl
                have room : kl.klsz + pagesize < 2 ^ 32 := by
                  simp only [pagesize]
                  omega
                dsimp only
                split
                · next behind =>
                    rw [← behind.1, behind.2] at anon_eq
                    obtain ⟨inv₅, next_eq⟩ := inv₄.append room q_mem new q_locked anon_eq
                    refine (ih (inv₅.queue _ _ _) hashed₄).mono fun p mem => ?_
                    rw [next_eq, ← cons_append]
                    exact mem_append_left _ mem
                · split
                  · next before =>
                      rw [← before.1, before.2] at anon_eq
                      have inv₅ := inv₄.prepend room q_mem new q_locked anon_eq
                      exact (ih (inv₅.queue _ _ _) hashed₄).mono fun p mem => mem_cons_of_mem q mem
                  · exact given_up
    · rw [if_neg short]
      exact ⟨l, inv, fun _ mem => mem⟩

theorem klusterLoop_full (full : ¬kl.klsz < klustsize) (flags : ℕ) (se : Se) (reqs : List Req) :
    klusterLoop env flags klustsize se reqs kl st = (kl, st) := by
  cases reqs with
  | nil => rfl
  | cons arg rest => rw [klusterLoop, if_neg full]

/-- A page that `swap_putapage` is called for: it is locked and on no list of pages. -/
structure Ready (st : State) (vp pp : ℕ) : Prop where
  named : pp ∈ st.hashed
  vnode : st.vnode pp = vp
  locked : st.selock pp ≠ 0
  next : st.next pp = pp
  prev : st.prev pp = pp
  word : ∀ phys, st.anon vp (st.offset pp) = some (some phys) → phys.2 < 2 ^ 32

/-- One page is a cluster. -/
theorem Ready.inv {pp : ℕ} {phys : Phys} (ready : Ready st vp pp) (hashed : st.Hashed)
    (named : swapNewphysname env st vp (st.offset pp) (st.offset pp) pagesize = (.ok phys, st')) :
    Inv st st' ⟨phys.pvp, phys.poff, pagesize, pp⟩ [] none ∧ st'.Hashed := by
  obtain ⟨anon', st_eq, -, assigned⟩ := swapNewphysname_spec env st vp (st.offset pp)
  rw [named] at st_eq assigned
  dsimp only at st_eq assigned
  rw [st_eq]
  have only (p : ℕ) (mem : p ∈ [pp]) : p = pp := mem_singleton.1 mem
  refine ⟨⟨Ring.closed_single ready.next ready.prev, (Nat.one_mul _).symm,
    show pagesize < 2 ^ 32 by decide,
    fun p mem => ?_, fun p mem => ?_, fun k p at_k => ?_, fun p _ _ before => before⟩,
    hashed.congr rfl rfl rfl⟩
  · rw [only p mem]
    exact ready.named
  · rw [only p mem]
    exact ready.locked
  · cases k with
    | zero =>
      obtain rfl : pp = p := some.inj at_k
      obtain ⟨anon_eq, word⟩ := assigned phys rfl
      have lt : phys.poff < 2 ^ 32 := word.elim id (ready.word _)
      dsimp only
      rw [ready.vnode, anon_eq, Nat.zero_mul, Nat.add_zero, mod_eq_of_lt lt]
    | succ k => exact nomatch at_k

/-- What `VOP_PAGEIO` is called with: a ring of as many pages as the length says, among them the one
asked for, each under the name of its slot.  No page that is left out has lost the mark that it is
modified. -/
def Clustered (st : State) (pp : ℕ) (io : Kluster) (st' : State) : Prop :=
  ∃ l, Ring.Closed st'.next st'.prev io.pplist l ∧ pp ∈ io.pplist :: l ∧
    io.klsz = (io.pplist :: l).length * pagesize ∧ io.klsz < 2 ^ 32 ∧
    (∀ k p, (io.pplist :: l)[k]? = some p → st'.anon (st'.vnode p) (st'.offset p) =
      some (some (io.klvp, (io.klstart + k * pagesize) % 2 ^ 32))) ∧
    ∀ p, p ∉ io.pplist :: l → st.Modified p → st'.Modified p

/-- `swap_putapage` calls `VOP_PAGEIO` just if it does not queue the request and finds a slot for
the page, and then with a cluster; else no page loses its mark. -/
theorem swap_putapage_cluster (env : Env) (st : State) (vp pp flags : ℕ) (hashed : st.Hashed)
    (ready : Ready st vp pp) :
    (∀ io, (swapPutapage env st vp pp flags).io = some io →
      Clustered st pp io (swapPutapage env st vp pp flags).st) ∧
    ((swapPutapage env st vp pp flags).io = none →
      ∀ p, st.Modified p → (swapPutapage env st vp pp flags).st.Modified p) ∧
    ((swapPutapage env st vp pp flags).io ≠ none ↔
      ¬ (flags = bAsync ||| bFree ∧ st.pendingSize < env.klustsize ∧ st.freelist ≠ 0) ∧
        ∃ phys st', swapNewphysname env st vp (st.offset pp) (st.offset pp) pagesize =
          (.ok phys, st')) := by
  have given_up (st' : State) (kept : ∀ p, st.Modified p → st'.Modified p) (p : ℕ)
      (before : st.Modified p) :
          (((st'.hatSetmod pp).pageIoUnlock pp).pageUnlock pp).Modified p := by
    by_cases same : p = pp
    · rw [same]
      exact modified_giveUp pp st'
    · exact ((Quiet.giveUp pp st').modified p same).2 (kept p before)
  rw [swapPutapage]
  split
  · next queued =>
      exact ⟨nofun, fun _ => given_up st fun _ before => before,
        iff_of_false (not_not.2 rfl) fun written => written.1 queued⟩
  · next not_queued =>
    cases named : swapNewphysname env st vp (st.offset pp) (st.offset pp) pagesize with
    | mk r st₁ =>
      cases r with
      | error e =>
        obtain ⟨anon', st_eq, -, -⟩ := swapNewphysname_spec env st vp (st.offset pp)
        rw [named] at st_eq
        dsimp only at st_eq ⊢
        refine ⟨nofun, fun _ => given_up st₁ fun p before => ?_,
          iff_of_false (not_not.2 rfl) fun ⟨_, _, _, slot⟩ => by cases slot⟩
        rw [st_eq]
        exact before
      | ok phys =>
        obtain ⟨inv, hashed₁⟩ := ready.inv hashed named
        have grown : Grown st [pp] (klusterLoop env flags
            (if flags = bAsync ||| bFree then env.klustsize else pagesize)
            (if Has flags bFree then .excl else .shared) st₁.pendlist
            ⟨phys.pvp, phys.poff, pagesize, pp⟩ st₁) := by
          by_cases queued : flags = bAsync ||| bFree
          · rw [if_pos queued, queued, if_pos (by decide)]
            exact klusterLoop_spec inv hashed₁ env.klustsize_lt st₁.pendlist
          · have full : ¬(⟨phys.pvp, phys.poff, pagesize, pp⟩ : Kluster).klsz < pagesize :=
              Nat.lt_irrefl _
            rw [if_neg queued, klusterLoop_full full]
            exact ⟨[], inv, fun _ mem => mem⟩
        dsimp only
        generalize klusterLoop env flags _ _ st₁.pendlist _ st₁ = res at grown
        obtain ⟨kl, st₂⟩ := res
        obtain ⟨l, final, kept⟩ := grown
        refine ⟨fun io io_eq => ?_, nofun, iff_of_true nofun ⟨not_queued, _, _, rfl⟩⟩
        obtain rfl : kl = io := some.inj io_eq
        exact ⟨l, final.closed, kept pp (mem_singleton_self pp), final.size, final.bound,
          final.slot, fun p out => final.kept p out nofun⟩

/-- An allocator that grants the third slot of a device, then the fourth and the second. -/
def threeSlots : Env where
  alloc := fun n lenp =>
    if room : pagesize ≤ lenp then
      some ⟨1, [8192, 12288, 4096].getD n 0, pagesize, by decide, room, Nat.dvd_refl _, by
        rcases n with _ | _ | _ | n
        · decide
        · decide
        · decide
        · exact (by decide : 0 + pagesize < 2 ^ 32)⟩
    else none
  klustsize := 57344
  pageio := 0
  klustsize_lt := by decide

/-- Three modified pages: one is locked and the others are queued. -/
def threePages : State where
  hashed := [0, 1, 2]
  vnode := fun _ => 7
  offset := fun p => p * pagesize
  next := id
  prev := id
  selock := fun p => if p = 0 then 1 else 0
  iolock := fun p => p == 0
  free := fun _ => false
  lckcnt := fun _ => 0
  cowcnt := fun _ => 0
  mapped := fun p => p == 2
  hwmod := fun p => p == 2
  mod := fun p => p == 1
  anon := fun _ _ => some none
  pendlist := [⟨7, 4096⟩, ⟨7, 8192⟩]
  pendingSize := 57344
  freelist := 0
  allocs := 0

theorem threePages_hashed : threePages.Hashed := by
  intro p _ q _ _ offset_eq
  exact eq_of_mul_eq_mul_right (by decide) offset_eq

theorem threePages_ready : Ready threePages 7 0 :=
  ⟨by decide, rfl, by decide, rfl, rfl, fun _ impossible => nomatch impossible⟩

/-- The three pages are put together in the order of their slots. -/
theorem swap_putapage_cluster_three :
    (swapPutapage threeSlots threePages 7 0 (bAsync ||| bFree)).io = some ⟨1, 4096, 12288, 2⟩ ∧
      Clustered threePages 0 ⟨1, 4096, 12288, 2⟩
        (swapPutapage threeSlots threePages 7 0 (bAsync ||| bFree)).st := by
  have written : (swapPutapage threeSlots threePages 7 0 (bAsync ||| bFree)).io =
      some ⟨1, 4096, 12288, 2⟩ := by decide +kernel
  exact ⟨written, (swap_putapage_cluster threeSlots threePages 7 0 (bAsync ||| bFree)
    threePages_hashed threePages_ready).1 _ written⟩

end Sol25.Swapfs
