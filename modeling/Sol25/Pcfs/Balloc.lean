import Mathlib.Data.List.Nodup
import Sol25.Pcfs.Chains

/-!
# Taking clusters

`pc_balloc` walks to the end of a chain and makes it longer.  Each cluster it takes was free, and is
marked and linked before the next one is taken, so that a full disk leaves every cluster on a chain.
-/

namespace Sol25.Pcfs

open Function List Option Bool

variable {lay : Layout} {fs fs₁ fs' : Fs} {ch : ℕ → List ℕ} {f c p k lcn : ℕ} {l : List ℕ}
  {node : Pcnode}
  {zwrite : Bool} {werr : ℕ → Bool}

theorem Hinted.taken (free : Free lay fs c) (least : ∀ d, Free lay fs d → c ≤ d)
    (hint : fs'.nxfrecls = c + 1) (fewer : ∀ d, Free lay fs' d → Free lay fs d ∧ d ≠ c) :
    Hinted lay fs' := by
  have range := validcl_iff.1 free.1
  refine ⟨?_, ?_, fun d free_d => ?_⟩
  · rw [hint]
    unfold pcfFirstcluster
    omega
  · rw [hint]
    unfold pcfFirstcluster
    omega
  · obtain ⟨free_before, ne⟩ := fewer d free_d
    have := least d free_before
    omega

/-- A cluster is marked as the last one of a chain and another one is made to point to it. -/
theorem Written.twice (mark : Written lay fs fs₁ c pcfLastcluster)
    (linkage : Written lay { fs₁ with nxfrecls := k } fs' p c) :
    entry lay fs' = update (update (entry lay fs) c pcfLastcluster) p c := by
  rw [linkage.entry_eq, ← mark.entry_eq]
  rfl

theorem free_of_twice (entry_eq : entry lay fs' = update
      (update (entry lay fs) c pcfLastcluster) p c)
    (valid : validcl lay c = true) (ne : p ≠ c) {d : ℕ} (free : Free lay fs' d) :
    Free lay fs d ∧ d ≠ c := by
  have two_le := (validcl_iff.1 valid).1
  obtain ⟨valid_d, at_d⟩ := free
  rw [entry_eq] at at_d
  have ne_p : d ≠ p := by
    rintro rfl
    rw [update_self] at at_d
    unfold pcfFreecluster at at_d
    omega
  have ne_c : d ≠ c := by
    rintro rfl
    rw [update_of_ne ne.symm, update_self] at at_d
    exact absurd at_d (by decide)
  rw [update_of_ne ne_p, update_of_ne ne_c] at at_d
  exact ⟨⟨valid_d, at_d⟩, ne_c⟩

namespace Chains

/-- A file without clusters gets its first one. -/
theorem start (chains : Chains lay fs ch) (bare : ch f = []) (free : Free lay fs c)
    (least : ∀ d, Free lay fs d → c ≤ d) (present : fs'.fatp.isSome)
    (entry_eq : entry lay fs' = update (entry lay fs) c pcfLastcluster)
    (hint : fs'.nxfrecls = c + 1) (nodes : ∀ g, g ≠ f → fs'.nodes g = fs.nodes g)
    (at_f : fs'.nodes f = some node) (first : node.scluster = c) :
    Chains lay fs' (update ch f [c]) := by
  have at_c : entry lay fs' c = pcfLastcluster := by rw [entry_eq, update_self]
  have at_d : ∀ d, d ≠ c → entry lay fs' d = entry lay fs d := fun d ne => by
    rw [entry_eq, update_of_ne ne]
  refine chains.replace present (Hinted.taken free least hint fun d free_d => ?_) nodes
    (fun g ne d mem => ?_)
    (fun node' at_node => ?_)
      (fun none => ?_) (forall_mem_singleton.2 ?_) (nodup_singleton c)
    (fun g ne => ?_) fun d used => ?_
  · have ne : d ≠ c := by
      rintro rfl
      exact absurd (at_c.symm.trans free_d.2) (by decide)
    exact ⟨⟨free_d.1, at_d d ne ▸ free_d.2⟩, ne⟩
  · refine at_d d ?_
    rintro rfl
    exact chains.notMem free g mem
  · obtain rfl := some.inj (at_f.symm.trans at_node)
    refine ⟨by rw [first, link_valid free.1], ?_⟩
    rw [next, at_c, link_last chains.numbered]
    rfl
  · rw [at_f] at none
    cases none
  · exact .inr (Nat.le_of_eq at_c.symm)
  · exact singleton_disjoint.2 (chains.notMem free g)
  · by_cases eq : d = c
    · exact .inl (mem_singleton.2 eq)
    · have used_before : InUse lay fs d := by
        rw [InUse, at_d d eq] at used
        exact used
      obtain ⟨g, mem⟩ := chains.covered d used_before
      refine .inr ⟨g, ?_, mem⟩
      rintro rfl
      rw [bare] at mem
      cases mem

/-- A chain gets one cluster longer. -/
theorem extend (chains : Chains lay fs ch) (at_f : fs.nodes f = some node) (split : ch f = l ++ [p])
    (free : Free lay fs c) (least : ∀ d, Free lay fs d → c ≤ d)
    (mark : Written lay fs fs₁ c pcfLastcluster)
    (linkage : Written lay { fs₁ with nxfrecls := c + 1 } fs' p c) :
    Chains lay fs' (update ch f (ch f ++ [c])) := by
  have p_mem : p ∈ ch f := by rw [split]; exact mem_append_right l mem_cons_self
  have p_ne : p ≠ c := by
    rintro rfl
    exact chains.notMem free f p_mem
  have entry_eq := mark.twice linkage
  have at_p : entry lay fs' p = c := by rw [entry_eq, update_self]
  have at_c : entry lay fs' c = pcfLastcluster := by
    rw [entry_eq, update_of_ne p_ne.symm, update_self]
  have at_d : ∀ d, d ≠ p → d ≠ c → entry lay fs' d = entry lay fs d := fun d ne_p ne_c => by
    rw [entry_eq, update_of_ne ne_p, update_of_ne ne_c]
  have two_le := (validcl_iff.1 free.1).1
  have nodes : fs'.nodes = fs.nodes := linkage.nodes_eq.trans mark.nodes_eq
  have hint : fs'.nxfrecls = c + 1 := by
    rw [linkage.nxfrecls_eq, if_neg]
    unfold pcfFreecluster
    omega
  have c_notMem : c ∉ ch f := chains.notMem free f
  refine chains.replace linkage.present
    (Hinted.taken free least hint fun d => free_of_twice entry_eq free.1 p_ne)
      (fun g _ => by rw [nodes])
    (fun g ne d mem => ?_) (fun node' at_node => ?_) (fun none => ?_) (fun d mem => ?_) ?_
      (fun g ne => ?_)
    fun d used => ?_
  · refine at_d d ?_ ?_
    · rintro rfl
      exact chains.disjoint g f ne mem p_mem
    · rintro rfl
      exact chains.notMem free g mem
  · have next_eq : next lay fs' = update (update (next lay fs) c none) p (some c) := by
      funext d
      rw [next, entry_eq]
      by_cases eq_p : d = p
      · subst eq_p
        rw [update_self, update_self, link_valid free.1]
      · rw [update_of_ne eq_p, update_of_ne eq_p]
        by_cases eq_c : d = c
        · subst eq_c
          rw [update_self, update_self, link_last chains.numbered]
        · rw [update_of_ne eq_c, update_of_ne eq_c, next]
    rw [nodes] at at_node
    have links : Links (update (next lay fs) c none) _ _ none :=
      (chains.linked f node' at_node).update c_notMem
    have p_notMem : p ∉ l := by
      have nodup := chains.nodup f
      rw [split, nodup_append] at nodup
      exact fun mem => nodup.2.2 p mem p mem_cons_self rfl
    rw [split] at links ⊢
    rw [next_eq]
    refine (links.redirect p_notMem).append ⟨rfl, ?_⟩
    rw [update_of_ne p_ne.symm, update_self]
    rfl
  · rw [nodes, at_f] at none
    cases none
  · rcases mem_append.1 mem with mem | mem
    · by_cases eq_p : d = p
      · subst eq_p
        exact .inl (by rw [at_p]; exact free.1)
      · have ne_c : d ≠ c := fun eq => c_notMem (eq ▸ mem)
        rw [Continues, at_d d eq_p ne_c]
        exact chains.continued f d mem
    · obtain rfl := mem_singleton.1 mem
      exact .inr (Nat.le_of_eq at_c.symm)
  · exact (chains.nodup f).append (nodup_singleton c) (disjoint_singleton.2 c_notMem)
  · exact disjoint_append_left.2
      ⟨chains.disjoint f g ne.symm, singleton_disjoint.2 (chains.notMem free g)⟩
  · by_cases eq_c : d = c
    · exact .inl (mem_append_right _ (mem_singleton.2 eq_c))
    · by_cases eq_p : d = p
      · subst eq_p
        exact .inl (mem_append_left _ p_mem)
      · have used_before : InUse lay fs d := by
          rw [InUse, at_d d eq_p eq_c] at used
          exact used
        obtain ⟨g, mem⟩ := chains.covered d used_before
        by_cases eq : g = f
        · subst eq
          exact .inl (mem_append_left _ mem)
        · exact .inr ⟨g, eq, mem⟩

end Chains

/-! ### `pc_balloc` -/

/-- `pc_gldiskchanged` has dropped the resident table and the nodes. -/
def Dropped (fs : Fs) : Prop := fs.fatp = none ∧ ∀ f, fs.nodes f = none

theorem pcGldiskchanged_dropped (changeable : lay.nochk = false) (fs : Fs) :
    Dropped (pcGldiskchanged lay fs) := by
  rw [pcGldiskchanged, if_neg (by simp [changeable])]
  exact ⟨rfl, fun _ => rfl⟩

/-- No zeros are lost on a disk that cannot be changed. -/
def Safe (lay : Layout) (werr : ℕ → Bool) : Prop := lay.nochk = true → ∀ c, werr c = false

/-- What comes of taking clusters for a file: its chain gets longer by clusters that were free,
unless the disk turns out to have been changed. -/
inductive Grown (lay : Layout) (fs : Fs) (ch : ℕ → List ℕ) (f : ℕ)
    (lcn : ℕ) : Except Errno ℤ → Fs → Prop
  | dropped {fs' : Fs} : Dropped fs' → Grown lay fs ch f lcn (.error .eio) fs'
  | full {fs' : Fs} (new : List ℕ) : Chains lay fs' (update ch f (ch f ++ new)) →
      (∀ c ∈ new, Free lay fs c) → (∀ c, ¬ Free lay fs' c) →
        Grown lay fs ch f lcn (.error .enospc) fs'
  | reached {fs' : Fs} {c : ℕ} (new : List ℕ) :
      Chains lay fs' (update ch f (ch f ++ new)) →
      (∀ c ∈ new, Free lay fs c) → (ch f ++ new)[lcn]? = some c →
      Grown lay fs ch f lcn (.ok (cldaddr lay c)) fs'

theorem Grown.after {r : Except Errno ℤ} {ch' : ℕ → List ℕ} (grown : Grown lay fs₁ ch' f lcn r fs')
    (longer : ch' = update ch f (ch f ++ [c])) (free : Free lay fs c)
    (fewer : ∀ d, Free lay fs₁ d → Free lay fs d) : Grown lay fs ch f lcn r fs' := by
  have at_f : ch' f = ch f ++ [c] := by rw [longer, update_self]
  have both : ∀ new, (∀ d ∈ new, Free lay fs₁ d) → ∀ d ∈ c :: new, Free lay fs d :=
      fun new free_new =>
    forall_mem_cons.2 ⟨free, fun d mem => fewer d (free_new d mem)⟩
  have joined : ∀ new : List ℕ, update ch' f (ch' f ++ new) =
      update ch f (ch f ++ c :: new) := fun new => by
    rw [at_f, longer, update_idem, append_assoc]
    rfl
  cases grown with
  | dropped gone => exact .dropped gone
  | full new chains free_new none =>
    rw [joined] at chains
    exact .full (c :: new) chains (both new free_new) none
  | reached new chains free_new at_lcn =>
    rw [joined] at chains
    rw [at_f, append_assoc] at at_lcn
    exact .reached (c :: new) chains (both new free_new) at_lcn

theorem Chains.update_same (chains : Chains lay fs ch) :
    Chains lay fs (update ch f (ch f ++ [])) := by
  rwa [append_nil, update_eq_self]

theorem ballocLoop_grown (chains : Chains lay fs ch) (at_f : fs.nodes f = some node)
    (at_k : (ch f)[k]? = some p) (safe : Safe lay werr) :
    ∃ r fs', ballocLoop lay zwrite werr lcn fs p = some (r, fs') ∧
      Grown lay fs ch f (k + lcn) r fs' := by
  induction lcn generalizing fs ch k p with
  | zero =>
    exact ⟨_, _, rfl, .reached [] chains.update_same (fun _ => by rintro ⟨⟩) (by rwa [append_nil])⟩
  | succ lcn ih =>
    obtain ⟨k_lt, at_k⟩ := List.getElem?_eq_some_iff.1 at_k
    have p_mem : p ∈ ch f := by
      rw [← at_k]
      exact getElem_mem k_lt
    have split : ch f = (ch f).take k ++ p :: (ch f).drop (k + 1) := by
      rw [← at_k, getElem_cons_drop, take_append_drop]
    have links := chains.linked f node at_f
    rw [split] at links
    have next_eq : next lay fs p = (ch f)[k + 1]? := by
      rw [links.next_eq, head?_drop]
    rw [ballocLoop, pcGetcluster_eq chains.present (chains.valid p_mem)]
    simp only [bind_eq_bind, bind_some]
    cases at_next : (ch f)[k + 1]? with
    | some q =>
      rw [at_next, next, link_eq_some] at next_eq
      obtain ⟨rfl, valid⟩ := next_eq
      have below := lt_badcluster chains.numbered valid
      rw [if_neg (by unfold pcfLastcluster; omega), if_pos valid]
      obtain ⟨r, fs', loop_eq, grown⟩ := ih chains at_f at_next
      exact ⟨r, fs', loop_eq, by rwa [Nat.add_right_comm, Nat.add_assoc] at grown⟩
    | none =>
      rw [at_next] at next_eq
      have ends : (ch f).length = k + 1 := by
        have := List.getElem?_eq_none_iff.1 at_next
        omega
      have split : ch f = (ch f).take k ++ [p] := by
        rw [drop_eq_nil_of_le (Nat.le_of_eq ends)] at split
        exact split
      rw [if_pos ((chains.continued f p p_mem).last next_eq)]
      obtain ⟨cn, fs₁, alloc_eq, allocated⟩ :=
        pcAlloccluster_allocated chains.numbered chains.present chains.hinted zwrite werr
      rw [alloc_eq]
      simp only [bind_some]
      cases allocated with
      | full none =>
        rw [if_pos rfl]
        exact ⟨_, _, rfl, .full [] chains.update_same (fun _ => by rintro ⟨⟩) none⟩
      | @failed c fs₁ free zwrite_eq failed mark =>
        rw [if_neg (by decide), if_pos rfl]
        refine ⟨_, _, rfl, .dropped (pcGldiskchanged_dropped ?_ fs₁)⟩
        rw [← not_eq_true]
        intro fixed
        rw [safe fixed c] at failed
        cases failed
      | @taken c fs₁ free least mark =>
        have two_le := (validcl_iff.1 free.1).1
        have p_ne : p ≠ cn := by
          rintro rfl
          exact chains.notMem free f p_mem
        obtain ⟨fs₂, set_eq, linkage⟩ :=
          @pcSetcluster_written lay { fs₁ with nxfrecls := cn + 1 } p cn
          chains.numbered mark.present (chains.valid p_mem) (.inl free.1)
        rw [if_neg (by unfold pcfFreecluster; omega),
          if_neg (by unfold pcfErrorcluster; omega), set_eq]
        have chains₂ := chains.extend at_f split free least mark linkage
        have at_f₂ : fs₂.nodes f = some node := by
          rw [linkage.nodes_eq, ← at_f, ← mark.nodes_eq]
        have at_k₂ : update ch f (ch f ++ [cn]) f = ch f ++ [cn] := update_self ..
        obtain ⟨r, fs', loop_eq, grown⟩ := @ih fs₂ _ cn (k + 1) chains₂ at_f₂ (by
            rw [at_k₂, getElem?_append_right (Nat.le_of_eq ends), ends, Nat.sub_self]
            rfl)
        refine ⟨r, fs', loop_eq, ?_⟩
        rw [Nat.add_right_comm, Nat.add_assoc] at grown
        exact grown.after rfl free fun d free_d =>
          (free_of_twice (mark.twice linkage) free.1 p_ne free_d).1

/-- What `pc_balloc` promises: clusters that were free become the end of the chain, the answer is
the disk block of the cluster asked for, and "no space" is true.  The root directory has its own
place on the disk, and no file has more clusters than the file system. -/
def Balloced (lay : Layout) (fs fs' : Fs) (ch ch' : ℕ → List ℕ) (f : ℕ) (lcn : ℤ)
    (r : Except Errno ℤ) : Prop :=
  (∃ new, ch' = update ch f (ch f ++ new) ∧ ∀ c ∈ new, Free lay fs c) ∧
    ∀ node, fs.nodes f = some node → node.root = false →
      (∀ d, r = .ok d → ∃ c, (ch' f)[lcn.toNat]? = some c ∧ d = cldaddr lay c) ∧
      (r = .error .enospc → lay.ncluster ≤ lcn ∨ ∀ c, ¬ Free lay fs' c)

theorem Grown.balloced {lcn : ℤ} {r : Except Errno ℤ} (grown : Grown lay fs ch f lcn.toNat r fs') :
    Dropped fs' ∨ ∃ ch', Chains lay fs' ch' ∧ Balloced lay fs fs' ch ch' f lcn r := by
  cases grown with
  | dropped gone => exact .inl gone
  | full new chains free none =>
    exact .inr ⟨_, chains, ⟨new, rfl, free⟩, fun _ _ _ => ⟨fun _ => nofun, fun _ => .inr none⟩⟩
  | @reached _ c new chains free at_lcn =>
    refine .inr ⟨_, chains, ⟨new, rfl, free⟩, fun _ _ _ => ⟨fun d ok => ⟨c, ?_, ?_⟩, nofun⟩⟩
    · rw [update_self]
      exact at_lcn
    · exact (Except.ok.inj ok).symm

theorem Chains.balloced_same {lcn : ℤ} {r : Except Errno ℤ} (chains : Chains lay fs ch)
    (answer : ∀ node, fs.nodes f = some node → node.root = false → (∀ d, r ≠ .ok d) ∧
      (r = .error .enospc → lay.ncluster ≤ lcn)) :
    Dropped fs ∨ ∃ ch', Chains lay fs ch' ∧ Balloced lay fs fs ch ch' f lcn r := by
  refine .inr ⟨_, chains.update_same (f := f), ⟨[], rfl, fun _ => nofun⟩, fun node at_f inner => ?_⟩
  obtain ⟨not_ok, space⟩ := answer node at_f inner
  exact ⟨fun d ok => absurd ok (not_ok d), fun full => .inl (space full)⟩

theorem Chains.eq_nil (chains : Chains lay fs ch) (at_f : fs.nodes f = some node)
    (invalid : validcl lay node.scluster = false) : ch f = [] := by
  have links := chains.linked f node at_f
  rw [link_eq_none.2 invalid] at links
  cases split : ch f with
  | nil => rfl
  | cons c l =>
    rw [split] at links
    exact nomatch links.1

theorem pcBalloc_balloced {lcn : ℤ} (chains : Chains lay fs ch) (at_f : fs.nodes f = some node)
    (ready : node.root = false → node.fresh lcn = true → validcl lay node.scluster = false)
    (safe : Safe lay werr) : ∃ r fs', pcBalloc lay fs f lcn zwrite werr = some (r, fs') ∧
      (Dropped fs' ∨ ∃ ch', Chains lay fs' ch' ∧ Balloced lay fs fs' ch ch' f lcn r) := by
  rw [pcBalloc, at_f]
  simp only [bind_eq_bind, bind_some]
  have only : ∀ node', fs.nodes f = some node' → node' = node := fun node' at_node =>
    some.inj (at_node.symm.trans at_f)
  by_cases negative : lcn < 0
  · rw [if_pos negative]
    exact ⟨_, _, rfl, chains.balloced_same fun _ _ _ => ⟨fun _ => nofun, nofun⟩⟩
  rw [if_neg negative]
  by_cases root : node.root = true
  · rw [if_pos root]
    have outer : ∀ node', fs.nodes f = some node' → node'.root ≠ false := fun node' at_node => by
      rw [only node' at_node, root]
      exact Bool.noConfusion
    split_ifs <;> exact ⟨_, _, rfl,
      chains.balloced_same fun node' at_node inner => absurd inner (outer node' at_node)⟩
  rw [if_neg root]
  by_cases far : lay.ncluster ≤ lcn
  · rw [if_pos far]
    exact ⟨_, _, rfl, chains.balloced_same fun _ _ _ => ⟨fun _ => nofun, fun _ => far⟩⟩
  rw [if_neg far]
  have links := chains.linked f node at_f
  by_cases fresh : node.fresh lcn = true
  · rw [if_pos fresh]
    have bare := chains.eq_nil at_f (ready (by simpa using root) fresh)
    obtain ⟨cn, fs₁, alloc_eq, allocated⟩ :=
      pcAlloccluster_allocated chains.numbered chains.present chains.hinted true werr
    rw [alloc_eq]
    simp only [bind_some]
    cases allocated with
    | full none =>
      rw [if_pos rfl]
      refine ⟨_, _, rfl, Grown.balloced (.full [] chains.update_same (fun _ => nofun) none)⟩
    | @failed c fs₁ free zwrite_eq failed mark =>
      rw [if_neg (by decide), if_pos rfl]
      refine ⟨_, _, rfl, .inl (pcGldiskchanged_dropped ?_ fs₁)⟩
      rw [← not_eq_true]
      intro fixed
      rw [safe fixed c] at failed
      exact nomatch failed
    | @taken c fs₁ free least mark =>
      have two_le := (validcl_iff.1 free.1).1
      rw [if_neg (by unfold pcfFreecluster; omega), if_neg (by unfold pcfErrorcluster; omega)]
      have at_f₂ : (setScluster { fs₁ with nxfrecls := cn + 1 } f cn).nodes f =
          some { node with scluster := cn } := by
        rw [← mark.nodes_eq] at at_f
        simp only [setScluster, if_pos, at_f, map_some]
      have chains₂ := @Chains.start lay fs (setScluster { fs₁ with nxfrecls := cn + 1 } f cn) ch f
        cn _ chains bare free least
        mark.present mark.entry_eq rfl (fun g ne => (if_neg ne).trans
          (by rw [mark.nodes_eq])) at_f₂ rfl
      obtain ⟨r, fs', loop_eq, grown⟩ :=
        @ballocLoop_grown lay _ _ f cn 0 lcn.toNat _ zwrite werr chains₂ at_f₂
        (by rw [update_self]; rfl) safe
      refine ⟨r, fs', loop_eq, Grown.balloced ?_⟩
      rw [Nat.zero_add] at grown
      refine grown.after (by rw [bare]; rfl) free fun d free_d => ?_
      have at_d : update (entry lay fs) cn pcfLastcluster d = pcfFreecluster := by
        rw [← mark.entry_eq]
        exact free_d.2
      by_cases eq : d = cn
      · subst eq
        rw [update_self] at at_d
        exact absurd at_d (by decide)
      · rw [update_of_ne eq] at at_d
        exact ⟨free_d.1, at_d⟩
  · rw [if_neg fresh]
    by_cases valid : validcl lay node.scluster = true
    · rw [if_pos valid]
      rw [link_valid valid] at links
      have first : (ch f)[0]? = some node.scluster := by
        rw [← head?_eq_getElem?, ← links.start_eq]
      obtain ⟨r, fs', loop_eq, grown⟩ :=
        @ballocLoop_grown lay fs ch f _ 0 lcn.toNat _ zwrite werr chains at_f first safe
      rw [Nat.zero_add] at grown
      exact ⟨r, fs', loop_eq, grown.balloced⟩
    · rw [if_neg valid]
      exact ⟨_, _, rfl, chains.balloced_same fun _ _ _ => ⟨fun _ => nofun, nofun⟩⟩

end Sol25.Pcfs
