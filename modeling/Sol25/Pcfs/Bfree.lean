import Mathlib.Data.List.Perm.Subperm
import Sol25.Pcfs.Balloc

/-!
# Giving clusters back

`pc_bfree` walks down a chain: the first clusters are skipped, the last one of these becomes the
end, and all behind it are free.
-/

namespace Sol25.Pcfs

open Function List Option

variable {lay : Layout} {fs fs₁ fs' : Fs} {ch : ℕ → List ℕ} {f c cn skipcl left : ℕ} {l : List ℕ}
  {node : Pcnode}
  {vtype : Vtype}

/-- The entries after the clusters of a list behind the first `skipcl` have been freed. -/
def cutEntry (old : ℕ → ℕ) (l : List ℕ) (skipcl d : ℕ) : ℕ :=
  if d ∈ l.drop skipcl then pcfFreecluster
  else if 0 < skipcl ∧ l[skipcl - 1]? = some d then pcfLastcluster
  else old d

/-- A walk of `pc_bfree` over a list of clusters. -/
structure CutAt (lay : Layout) (fs fs' : Fs) (l : List ℕ) (skipcl : ℕ) : Prop where
  present : fs'.fatp.isSome
  entry_eq : entry lay fs' = cutEntry (entry lay fs) l skipcl
  nxfrecls_eq : fs'.nxfrecls = if l.drop skipcl = [] then fs.nxfrecls else pcfFirstcluster
  nodes_eq : fs'.nodes = fs.nodes

theorem CutAt.nil (present : fs.fatp.isSome) : CutAt lay fs fs [] skipcl := by
  refine ⟨present, ?_, ?_, rfl⟩
  · funext d
    simp [cutEntry]
  · rw [drop_nil, if_pos rfl]

/-- One cluster of the walk. -/
def stepEntry (old : ℕ → ℕ) (skipcl c : ℕ) : ℕ → ℕ :=
  if skipcl = 0 then update old c pcfFreecluster
  else if skipcl = 1 then update old c pcfLastcluster
  else old

theorem CutAt.cons (rest : CutAt lay fs₁ fs' l (skipcl - 1)) (outside : c ∉ l)
    (entry_eq : entry lay fs₁ = stepEntry (entry lay fs) skipcl c)
    (nxfrecls_eq : fs₁.nxfrecls = if skipcl = 0 then pcfFirstcluster else fs.nxfrecls)
    (nodes_eq : fs₁.nodes = fs.nodes) : CutAt lay fs fs' (c :: l) skipcl := by
  refine ⟨rest.present, ?_, ?_, rest.nodes_eq.trans nodes_eq⟩
  · rw [rest.entry_eq, entry_eq]
    funext d
    rcases skipcl with _ | _ | skipcl
    · simp only [cutEntry, stepEntry, drop_zero, mem_cons, if_true, Nat.lt_irrefl,
        false_and, if_false, Nat.zero_sub]
      by_cases mem : d ∈ l
      · rw [if_pos mem, if_pos (.inr mem)]
      · rw [if_neg mem]
        by_cases eq : d = c
        · subst eq
          rw [update_self, if_pos (.inl rfl)]
        · rw [update_of_ne eq, if_neg (not_or.2 ⟨eq, mem⟩)]
    · have first : (0 < 1 ∧ (c :: l)[1 - 1]? = some d) ↔ c = d := by simp
      simp only [cutEntry, stepEntry, drop_succ_cons, drop_zero, Nat.lt_irrefl, false_and,
        if_false, Nat.zero_add, first, Nat.one_ne_zero, if_true, Nat.sub_self]
      split_ifs with mem eq
      · rfl
      · subst eq
        rw [update_self]
      · rw [update_of_ne (Ne.symm eq)]
    · have two : skipcl + 1 + 1 ≠ 1 := by omega
      simp only [cutEntry, stepEntry, drop_succ_cons, Nat.add_sub_cancel, if_neg two,
        Nat.succ_ne_zero, if_false, Nat.succ_pos, true_and, getElem?_cons_succ]
  · rw [rest.nxfrecls_eq, nxfrecls_eq]
    rcases skipcl with _ | skipcl
    · simp
    · simp

theorem bfreeLoop_cut (numbered : lay.Numbered) (present : fs.fatp.isSome)
    (links : Links (next lay fs) (link lay cn) l none) (nodup : l.Nodup)
    (continued : ∀ c ∈ l, Continues lay fs c) (enough : l.length ≤ left)
    (exactly : vtype = .vreg → left = l.length) :
    ∃ r fs', bfreeLoop lay vtype left fs cn skipcl = some (r, fs') ∧ CutAt lay fs fs' l skipcl := by
  induction l generalizing left fs cn skipcl with
  | nil =>
    cases left with
    | zero => exact ⟨_, _, rfl, .nil present⟩
    | succ left =>
      have invalid : ¬ validcl lay cn = true := by
        rw [Bool.not_eq_true]
        exact link_eq_none.1 links
      exact ⟨_, _, if_neg invalid, .nil present⟩
  | cons c l ih =>
    obtain ⟨left, rfl⟩ : ∃ k, left = k + 1 := ⟨left - 1, by rw [length_cons] at enough; omega⟩
    obtain ⟨at_c, links⟩ := links
    obtain ⟨rfl, valid⟩ := link_eq_some.1 at_c
    obtain ⟨outside, nodup⟩ := nodup_cons.1 nodup
    obtain ⟨continues, continued⟩ := forall_mem_cons.1 continued
    have step : ∃ fs₁, bfreeEntry lay fs cn skipcl = some fs₁ ∧ fs₁.fatp.isSome ∧
      entry lay fs₁ = stepEntry (entry lay fs) skipcl cn ∧
        fs₁.nxfrecls = (if skipcl = 0 then pcfFirstcluster else fs.nxfrecls) ∧
            fs₁.nodes = fs.nodes := by
      unfold stepEntry bfreeEntry
      by_cases zero : skipcl = 0
      · obtain ⟨fs₁, set_eq, written⟩ := pcSetcluster_written numbered present valid
          (.inr (.inl rfl))
        simp only [if_pos zero]
        exact ⟨fs₁, set_eq, written.present, written.entry_eq, written.nxfrecls_eq,
          written.nodes_eq⟩
      · simp only [if_neg zero]
        by_cases one : skipcl = 1
        · obtain ⟨fs₁, set_eq, written⟩ := pcSetcluster_written numbered present valid
            (.inr (.inr rfl))
          simp only [if_pos one]
          exact ⟨fs₁, set_eq, written.present, written.entry_eq, written.nxfrecls_eq,
            written.nodes_eq⟩
        · simp only [if_neg one]
          exact ⟨fs, rfl, present, rfl, rfl, rfl⟩
    obtain ⟨fs₁, step_eq, present₁, entry₁, hint₁, nodes₁⟩ := step
    have same : ∀ d ∈ l, entry lay fs₁ d = entry lay fs d := fun d mem => by
      have ne : d ≠ cn := fun eq => outside (eq ▸ mem)
      rw [entry₁, stepEntry]
      split_ifs <;> first | rfl | exact update_of_ne ne ..
    have links₁ : Links (next lay fs₁) (link lay (entry lay fs cn)) l none :=
      links.congr fun d mem => by rw [next, next, same d mem]
    rw [bfreeLoop, if_pos valid, pcGetcluster_eq present valid]
    simp only [bind_eq_bind, bind_some, step_eq]
    by_cases stops : pcfLastcluster ≤ entry lay fs cn ∧ vtype = .vdir
    · rw [if_pos stops]
      have bare : l = [] := by
        cases l with
        | nil => rfl
        | cons d l =>
          have inside := (link_eq_some.1 links.1).1 ▸
            lt_badcluster numbered (link_eq_some.1 links.1).2
          have last := stops.1
          unfold pcfLastcluster at last
          omega
      subst bare
      exact ⟨_, _, rfl, (CutAt.nil present₁).cons outside entry₁ hint₁ nodes₁⟩
    · rw [if_neg stops]
      obtain ⟨r, fs', loop_eq, cut⟩ := @ih fs₁ _ (skipcl - 1) left present₁ links₁ nodup
        (fun d mem => by rw [Continues, same d mem]; exact continued d mem)
        (by rw [length_cons] at enough; omega)
        (fun reg => by have := exactly reg; rw [length_cons] at this; omega)
      exact ⟨r, fs', loop_eq, cut.cons outside entry₁ hint₁ nodes₁⟩

/-! ### `pc_fileclsize` -/

theorem pcFileclsize_eq {fuel v : ℕ} (present : fs.fatp.isSome)
    (links : Links (next lay fs) (link lay v) l none) (enough : l.length ≤ fuel) :
    pcFileclsize lay fs fuel v = some l.length := by
  induction l generalizing fuel v with
  | nil =>
    have invalid : ¬ validcl lay v = true := by
      rw [Bool.not_eq_true]
      exact link_eq_none.1 links
    cases fuel <;> exact if_neg invalid
  | cons c l ih =>
    obtain ⟨fuel, rfl⟩ : ∃ k, fuel = k + 1 := ⟨fuel - 1, by rw [length_cons] at enough; omega⟩
    obtain ⟨at_c, links⟩ := links
    obtain ⟨rfl, valid⟩ := link_eq_some.1 at_c
    rw [pcFileclsize, if_pos valid, pcGetcluster_eq present valid]
    simp only [bind_eq_bind, bind_some]
    rw [ih links (by rw [length_cons] at enough; omega)]
    rfl

theorem Chains.length_le (chains : Chains lay fs ch) (f : ℕ) : (ch f).length ≤ lay.ncluster := by
  have inside : ch f ⊆ List.range' 2 lay.ncluster := fun c mem => by
    have range := validcl_iff.1 (chains.valid mem)
    rw [mem_range'_1]
    omega
  have shorter := (subperm_of_subset (chains.nodup f) inside).length_le
  rwa [length_range'] at shorter

theorem howmany_zero (d : ℕ) : howmany 0 d = 0 := by
  rw [howmany]
  rcases Nat.eq_zero_or_pos d with rfl | pos
  · rfl
  have low := @Int.le_bmod (0 + ((d : ℤ) - 1)) (2 ^ 32) (by decide)
  have high := @Int.bmod_lt (0 + ((d : ℤ) - 1)) (2 ^ 32) (by decide)
  by_cases small : d ≤ 2 ^ 31
  · rw [Int.bmod_eq_of_le (by omega) (by omega)]
    exact Int.tdiv_eq_zero_of_lt (by omega) (by omega)
  · rcases Int.le_total 0 ((0 + ((d : ℤ) - 1)).bmod (2 ^ 32)) with pos | neg
    · exact Int.tdiv_eq_zero_of_lt pos (by omega)
    · rw [← Int.neg_neg ((0 + ((d : ℤ) - 1)).bmod (2 ^ 32)), Int.neg_tdiv, Int.neg_eq_zero]
      exact Int.tdiv_eq_zero_of_lt (by omega) (by omega)

/-! ### `pc_bfree` -/

/-- The `pc_size` of a file tells the length of its chain. -/
def Pcnode.Sized (lay : Layout) (fs : Fs) (node : Pcnode) : Prop :=
  node.vtype = .vreg → ∃ k, pcFileclsize lay fs lay.ncluster node.scluster = some k ∧
    howmany node.size lay.clsize = k

theorem Chains.fileclsize (chains : Chains lay fs ch) (at_f : fs.nodes f = some node) :
    pcFileclsize lay fs lay.ncluster node.scluster = some (ch f).length :=
  pcFileclsize_eq chains.present (chains.linked f node at_f) (chains.length_le f)

theorem Chains.howmany_eq (chains : Chains lay fs ch) (at_f : fs.nodes f = some node)
    (sized : node.Sized lay fs) (reg : node.vtype = .vreg) :
    howmany node.size lay.clsize = (ch f).length := by
  obtain ⟨k, counted, many⟩ := sized reg
  rw [chains.fileclsize at_f] at counted
  rw [many, some.inj counted]

/-- What `pc_bfree` promises. -/
def Bfreed (lay : Layout) (fs fs' : Fs) (ch ch' : ℕ → List ℕ) (f skipcl : ℕ) : Prop :=
  ch' = update ch f ((ch f).take skipcl) ∧
    (∀ c, Free lay fs' c ↔ Free lay fs c ∨ c ∈ (ch f).drop skipcl) ∧
    ∀ g, g ≠ f → fs'.nodes g = fs.nodes g

theorem cutEntry_of_drop (old : ℕ → ℕ) (mem : c ∈ l.drop skipcl) :
    cutEntry old l skipcl c = pcfFreecluster :=
  if_pos mem

theorem cutEntry_of_notMem (old : ℕ → ℕ) (outside : c ∉ l) : cutEntry old l skipcl c = old c := by
  rw [cutEntry, if_neg fun mem => outside (mem_of_mem_drop mem), if_neg]
  exact fun last => outside (mem_of_getElem? last.2)

theorem cutEntry_of_take (old : ℕ → ℕ) (nodup : l.Nodup) (mem : c ∈ l.take skipcl) :
    cutEntry old l skipcl c = if l[skipcl - 1]? = some c then pcfLastcluster else old c := by
  have some_left : 0 < skipcl := by
    rcases Nat.eq_zero_or_pos skipcl with rfl | pos
    · rw [take_zero] at mem
      exact nomatch mem
    · exact pos
  have apart : c ∉ l.drop skipcl := by
    rw [← take_append_drop skipcl l, nodup_append] at nodup
    exact fun behind => nodup.2.2 c mem c behind rfl
  rw [cutEntry, if_neg apart]
  simp only [some_left, true_and]

/-- The clusters behind the first ones are free, and no others. -/
theorem CutAt.free_iff (chains : Chains lay fs ch) (cut : CutAt lay fs fs' (ch f) skipcl) :
    Free lay fs' c ↔ Free lay fs c ∨ c ∈ (ch f).drop skipcl := by
  rw [Free, cut.entry_eq]
  by_cases behind : c ∈ (ch f).drop skipcl
  · rw [cutEntry_of_drop _ behind]
    exact ⟨fun _ => .inr behind, fun _ => ⟨chains.valid (mem_of_mem_drop behind), rfl⟩⟩
  · have same : cutEntry (entry lay fs) (ch f) skipcl c = pcfFreecluster ↔
        entry lay fs c = pcfFreecluster := by
      by_cases mem : c ∈ ch f
      · have not_free : entry lay fs c ≠ pcfFreecluster :=
          ((chains.continued f c mem).inUse chains.numbered (chains.valid mem)).2.1
        rw [cutEntry, if_neg behind]
        split_ifs
        · exact ⟨fun last => absurd last (by decide), fun free => absurd free not_free⟩
        · rfl
      · rw [cutEntry_of_notMem _ mem]
    rw [same]
    exact ⟨.inl, fun cases => cases.resolve_right behind⟩

theorem Chains.cut (chains : Chains lay fs ch) (cut : CutAt lay fs fs₁ (ch f) skipcl)
    (present : fs'.fatp.isSome) (entry_eq : entry lay fs' = entry lay fs₁)
    (hint : fs'.nxfrecls = fs₁.nxfrecls) (nodes : ∀ g, g ≠ f → fs'.nodes g = fs.nodes g)
    (at_f : fs.nodes f = some node)
    (first : ∃ node', fs'.nodes f = some node' ∧ node'.scluster = if skipcl = 0 then pcfLastcluster
      else node.scluster) :
    Chains lay fs' (update ch f ((ch f).take skipcl)) := by
  have entry_cut : entry lay fs' = cutEntry (entry lay fs) (ch f) skipcl :=
    entry_eq.trans cut.entry_eq
  have nodup := chains.nodup f
  obtain ⟨node', at_node, scluster_eq⟩ := first
  refine chains.replace present ⟨?_, ?_, fun c free => ?_⟩ nodes (fun g ne c mem => ?_)
    (fun node'' at_node' => ?_)
    (fun none => ?_) (fun c mem => ?_) (nodup.sublist (take_sublist skipcl _))
    (fun g ne => disjoint_of_subset_left (take_subset skipcl _)
      (chains.disjoint f g ne.symm))
    fun c used => ?_
  · rw [hint, cut.nxfrecls_eq]
    split_ifs
    · exact chains.hinted.lower
    · exact Nat.le_refl _
  · rw [hint, cut.nxfrecls_eq]
    split_ifs
    · exact chains.hinted.upper
    · exact Nat.le_add_left ..
  · rw [hint, cut.nxfrecls_eq]
    rw [Free, entry_eq] at free
    split_ifs with nothing
    · rcases (cut.free_iff chains).1 free with before | behind
      · exact chains.hinted.below c before
      · rw [nothing] at behind
        cases behind
    · exact (validcl_iff.1 free.1).1
  · rw [entry_cut]
    exact cutEntry_of_notMem _ (chains.disjoint g f ne mem)
  · obtain rfl := some.inj (at_node.symm.trans at_node')
    rcases Nat.eq_zero_or_pos skipcl with zero | some_left
    · rw [scluster_eq, if_pos zero, zero, take_zero, link_last chains.numbered]
      rfl
    · rw [scluster_eq, if_neg (Nat.ne_of_gt some_left)]
      refine (chains.linked f node at_f).take some_left (fun i c lt at_i => ?_) fun c at_end => ?_
      · have i_lt := (List.getElem?_eq_some_iff.1 at_i).1
        have in_front : c ∈ (ch f).take skipcl := by
          refine mem_of_getElem? (i := i) ?_
          rw [getElem?_take, if_pos (by omega)]
          exact at_i
        have not_end : (ch f)[skipcl - 1]? ≠ some c := fun at_end => by
          have := (nodup_iff_getElem?_ne_getElem?.1 nodup i (skipcl - 1) (by omega)
            (List.getElem?_eq_some_iff.1 at_end).1)
          exact this (at_i.trans at_end.symm)
        rw [next, next, entry_cut, cutEntry_of_take _ nodup in_front, if_neg not_end]
      · have in_front : c ∈ (ch f).take skipcl := by
          refine mem_of_getElem? (i := skipcl - 1) ?_
          rw [getElem?_take, if_pos (by omega)]
          exact at_end
        rw [next, entry_cut, cutEntry_of_take _ nodup in_front, if_pos at_end,
          link_last chains.numbered]
  · rw [at_node] at none
    cases none
  · rw [Continues, entry_cut, cutEntry_of_take _ nodup mem]
    split_ifs
    · exact .inr (Nat.le_refl _)
    · exact chains.continued f c (mem_of_mem_take mem)
  · have used_before : InUse lay fs c := by
      refine ⟨used.1, fun free => used.2.1 ?_, fun bad => ?_⟩
      · rw [entry_eq]
        exact ((cut.free_iff chains).2 (.inl ⟨used.1, free⟩)).2
      · have outside : c ∉ ch f := fun mem =>
          ((chains.continued f c mem).inUse chains.numbered used.1).2.2 bad
        rw [InUse, entry_cut, cutEntry_of_notMem _ outside] at used
        exact used.2.2 bad
    obtain ⟨g, mem⟩ := chains.covered c used_before
    by_cases eq : g = f
    · subst eq
      rw [← take_append_drop skipcl (ch g)] at mem
      rcases mem_append.1 mem with front | behind
      · exact .inl front
      · rw [InUse, entry_cut, cutEntry_of_drop _ behind] at used
        exact absurd rfl used.2.1
    · exact .inr ⟨g, eq, mem⟩

theorem pcBfree_bfreed (chains : Chains lay fs ch) (at_f : fs.nodes f = some node)
    (inner : node.root = false) (sized : node.Sized lay fs) :
    ∃ r fs' ch', pcBfree lay fs f skipcl = some (r, fs') ∧
      Chains lay fs' ch' ∧ Bfreed lay fs fs' ch ch' f skipcl := by
  have within := chains.length_le f
  have few := chains.numbered.ncluster_lt
  rw [pcBfree, at_f]
  simp only [bind_eq_bind, bind_some, inner, Bool.false_eq_true, if_false]
  by_cases empty : node.size = 0 ∧ node.vtype = .vreg
  · rw [if_pos empty]
    have none_left : ch f = [] := by
      have many := chains.howmany_eq at_f sized empty.2
      rw [empty.1, howmany_zero] at many
      exact eq_nil_of_length_eq_zero (by omega)
    refine ⟨_, _, _, rfl, chains, ?_, fun c => ?_, fun _ _ => rfl⟩
    · rw [none_left, take_nil, ← none_left, update_eq_self]
    · rw [none_left, drop_nil]
      simp
  rw [if_neg empty]
  have counter : ∃ left,
    (if node.vtype = .vreg then howmany node.size lay.clsize else (lay.ncluster : ℤ)) =
      (left : ℕ) ∧ (ch f).length ≤ left ∧ left ≤ lay.ncluster ∧
          (node.vtype = .vreg → left = (ch f).length) := by
    by_cases reg : node.vtype = .vreg
    · rw [if_pos reg]
      exact ⟨_, chains.howmany_eq at_f sized reg, Nat.le_refl _, within, fun _ => rfl⟩
    · rw [if_neg reg]
      exact ⟨_, rfl, within, Nat.le_refl _, fun is_reg => absurd is_reg reg⟩
  obtain ⟨left, left_eq, enough, bounded, exactly⟩ := counter
  rw [left_eq, if_neg (by rintro ⟨-, beyond⟩; omega)]
  have wraps : ((left : ℤ) % 2 ^ 32).toNat = left := by omega
  rw [wraps]
  set fs₀ := if skipcl = 0 then setScluster fs f pcfLastcluster else fs with fs₀_eq
  have same_fatp : fs₀.fatp = fs.fatp := by rw [fs₀_eq]; split_ifs <;> rfl
  have same_hint : fs₀.nxfrecls = fs.nxfrecls := by rw [fs₀_eq]; split_ifs <;> rfl
  have same_entry : entry lay fs₀ = entry lay fs := by
    funext d
    rw [entry, entry, same_fatp]
  have same_next : next lay fs₀ = next lay fs := by
    funext d
    rw [next, next, same_entry]
  obtain ⟨r, fs', loop_eq, cut⟩ :=
    @bfreeLoop_cut lay fs₀ node.scluster skipcl left (ch f) node.vtype chains.numbered
    (by rw [same_fatp]; exact chains.present) (by rw [same_next]; exact chains.linked f node at_f)
      (chains.nodup f)
    (fun c mem => by rw [Continues, same_entry]; exact chains.continued f c mem) enough exactly
  have cut₀ : CutAt lay fs { fs' with nodes := fs.nodes } (ch f) skipcl :=
    ⟨cut.present, by rw [← same_entry]; exact cut.entry_eq,
      by rw [← same_hint]; exact cut.nxfrecls_eq, rfl⟩
  have others : ∀ g, g ≠ f → fs'.nodes g = fs.nodes g := fun g ne => by
    rw [cut.nodes_eq, fs₀_eq]
    split_ifs
    · exact if_neg ne
    · rfl
  refine ⟨r, fs', _, loop_eq, chains.cut cut₀ cut.present rfl rfl others at_f ?_, rfl,
    fun c => ?_, others⟩
  · rw [cut.nodes_eq, fs₀_eq]
    split_ifs
    · exact ⟨{ node with scluster := pcfLastcluster }, by simp [setScluster, at_f], rfl⟩
    · exact ⟨node, at_f, rfl⟩
  · change Free lay { fs' with nodes := fs.nodes } c ↔ _
    exact cut₀.free_iff chains

end Sol25.Pcfs
