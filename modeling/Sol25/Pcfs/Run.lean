import Sol25.Pcfs.Bfree

/-!
# Runs of the allocator

Any sequence of calls keeps the clusters in use on the chains of the files, as long as no call loses
a chain: `pc_balloc` takes a file without a size to have none, `pc_bfree` goes by the size, and a
cluster whose zeros cannot be written stays marked.
-/

namespace Sol25.Pcfs

open Function List Option Bool

variable {lay : Layout} {fs fs₀ fs' : Fs} {ch : ℕ → List ℕ} {f c k v : ℕ} {l : List ℕ}
  {node : Pcnode}
  {vtype : Vtype} {werr : ℕ → Bool} {lcn : ℤ} {contigbp : Option ℕ}

/-! ### `pc_bmap` -/

theorem bmapLoop_some (present : fs.fatp.isSome) (links : Links (next lay fs) (link lay v) l none)
    (at_k : l[k]? = some c) : bmapLoop lay fs vtype k v = some (.ok (c, entry lay fs c)) := by
  induction k generalizing v l with
  | zero =>
    cases l with
    | nil => exact nomatch at_k
    | cons d l =>
      obtain rfl : d = c := some.inj at_k
      obtain ⟨rfl, valid⟩ := link_eq_some.1 links.1
      rw [bmapLoop, if_pos valid, pcGetcluster_eq present valid]
      rfl
  | succ k ih =>
    cases l with
    | nil => exact nomatch at_k
    | cons d l =>
      obtain ⟨at_d, links⟩ := links
      obtain ⟨rfl, valid⟩ := link_eq_some.1 at_d
      rw [bmapLoop, if_pos valid, pcGetcluster_eq present valid]
      exact ih links at_k

theorem bmapLoop_none (present : fs.fatp.isSome) (links : Links (next lay fs) (link lay v) l none)
    (at_k : l[k]? = none) : ∃ e, bmapLoop lay fs vtype k v = some (.error e) := by
  induction k generalizing v l with
  | zero =>
    cases l with
    | cons d l => exact nomatch at_k
    | nil =>
      have invalid : ¬ validcl lay v = true := by
        rw [not_eq_true]
        exact link_eq_none.1 links
      rw [bmapLoop, if_neg invalid]
      split_ifs <;> exact ⟨_, rfl⟩
  | succ k ih =>
    cases l with
    | nil =>
      have invalid : ¬ validcl lay v = true := by
        rw [not_eq_true]
        exact link_eq_none.1 links
      rw [bmapLoop, if_neg invalid]
      split_ifs <;> exact ⟨_, rfl⟩
    | cons d l =>
      obtain ⟨at_d, links⟩ := links
      obtain ⟨rfl, valid⟩ := link_eq_some.1 at_d
      rw [bmapLoop, if_pos valid, pcGetcluster_eq present valid]
      exact ih links at_k

theorem contigLoop_some (present : fs.fatp.isSome) (wanted left cn ncn count : ℕ) :
    ∃ n, contigLoop lay fs wanted left cn ncn count = some n := by
  induction left generalizing cn ncn count with
  | zero => exact ⟨_, rfl⟩
  | succ left ih =>
    rw [contigLoop]
    split_ifs with follows
    · rw [pcGetcluster_eq present follows.2.2]
      exact ih _ _ _
    · exact ⟨_, rfl⟩

/-- What `pc_bmap` promises: a logical cluster of a file is the one at that place of its chain. -/
def Bmapped (lay : Layout) (fs : Fs) (ch : ℕ → List ℕ) (f : ℕ) (lcn : ℤ)
    (r : Except Errno (ℤ × Option ℕ)) : Prop :=
  ∀ node, fs.nodes f = some node → node.root = false →
    (∀ d n, r = .ok (d, n) → ∃ c, 0 ≤ lcn ∧ (ch f)[lcn.toNat]? = some c ∧ d = cldaddr lay c) ∧
    ∀ c, 0 ≤ lcn → (ch f)[lcn.toNat]? = some c →
      (node.vtype = .vreg → lcn < howmany node.size lay.clsize) → ∃ n, r = .ok (cldaddr lay c, n)

theorem pcBmap_bmapped (chains : Chains lay fs ch) (at_f : fs.nodes f = some node) :
    ∃ r, pcBmap lay fs f lcn contigbp = some r ∧ Bmapped lay fs ch f lcn r := by
  rw [pcBmap, at_f]
  simp only [bind_eq_bind, bind_some]
  have refused : ∀ e, (node.root = false → 0 ≤ lcn → (∃ c, (ch f)[lcn.toNat]? = some c) →
      node.vtype = .vreg ∧ howmany node.size lay.clsize ≤ lcn) →
          Bmapped lay fs ch f lcn (.error e) := by
    intro e why node' at_node inner
    obtain rfl := some.inj (at_f.symm.trans at_node)
    refine ⟨fun _ _ => nofun, fun c pos at_lcn inside => ?_⟩
    obtain ⟨reg, beyond⟩ := why inner pos ⟨c, at_lcn⟩
    exact absurd (inside reg) (by omega)
  by_cases negative : lcn < 0
  · rw [if_pos negative]
    exact ⟨_, rfl, refused _ fun _ pos _ => absurd pos (by omega)⟩
  rw [if_neg negative]
  by_cases root : node.root = true
  · rw [if_pos root]
    have outer : ∀ r, Bmapped lay fs ch f lcn r := fun r node' at_node inner => by
      obtain rfl := some.inj (at_f.symm.trans at_node)
      rw [root] at inner
      exact nomatch inner
    split_ifs <;> exact ⟨_, rfl, outer _⟩
  rw [if_neg root]
  by_cases far : lay.ncluster ≤ lcn
  · rw [if_pos far]
    refine ⟨_, rfl, refused _ fun _ _ some_at => ?_⟩
    obtain ⟨c, at_lcn⟩ := some_at
    have lt := (List.getElem?_eq_some_iff.1 at_lcn).1
    have le := chains.length_le f
    omega
  rw [if_neg far]
  by_cases beyond : node.vtype = .vreg ∧ (node.size = 0 ∨ howmany node.size lay.clsize ≤ lcn)
  · rw [if_pos beyond]
    refine ⟨_, rfl, refused _ fun _ pos _ => ⟨beyond.1, ?_⟩⟩
    rcases beyond.2 with zero | le
    · rw [zero, howmany_zero]
      exact pos
    · exact le
  rw [if_neg beyond]
  have links := chains.linked f node at_f
  cases at_lcn : (ch f)[lcn.toNat]? with
  | none =>
    obtain ⟨e, loop_eq⟩ :=
      @bmapLoop_none lay fs lcn.toNat _ _ node.vtype chains.present links at_lcn
    rw [loop_eq]
    refine ⟨_, rfl, refused _ fun _ _ some_at => ?_⟩
    obtain ⟨c, at_c⟩ := some_at
    rw [at_lcn] at at_c
    exact nomatch at_c
  | some c =>
    rw [bmapLoop_some chains.present links at_lcn]
    have found : ∀ n, Bmapped lay fs ch f lcn (.ok (cldaddr lay c, n)) := by
      intro n node' _ _
      refine ⟨fun d m ok => ⟨c, by omega, at_lcn, ?_⟩, fun c' _ at_c' _ => ⟨n, ?_⟩⟩
      · exact (Prod.mk.inj (Except.ok.inj ok)).1.symm
      · rw [some.inj (at_c'.symm.trans at_lcn)]
    cases contigbp with
    | none => exact ⟨_, rfl, found _⟩
    | some wanted =>
      dsimp only [bind_some]
      split_ifs
      · obtain ⟨n, loop_eq⟩ :=
          @contigLoop_some lay fs chains.present wanted lay.ncluster c (entry lay fs c)
          lay.clsize
        rw [loop_eq]
        exact ⟨_, rfl, found _⟩
      · exact ⟨_, rfl, found _⟩

/-! ### Calls -/

/-- The file of a call is there, or is a new one. -/
def Names (fs : Fs) : Call → Prop
  | .balloc f _ _ => (fs.nodes f).isSome
  | .bfree f _ => (fs.nodes f).isSome
  | .bmap f _ _ => (fs.nodes f).isSome
  | .alloccluster f _ => fs.nodes f = none
  | .size _ _ => True

/-- No chain is lost in a call: a file that `pc_balloc` takes to be fresh has no clusters, the size
of a file that is cut off tells its length, and zeros reach a disk that cannot be changed. -/
def Meets (lay : Layout) (fs : Fs) (werr : ℕ → Bool) : Call → Prop
  | .balloc f lcn _ => (∀ node, fs.nodes f = some node → node.root = false → node.fresh lcn = true →
      validcl lay node.scluster = false) ∧ Safe lay werr
  | .bfree f _ => ∀ node, fs.nodes f = some node → node.root = false ∧ node.Sized lay fs
  | .bmap _ _ _ => True
  | .alloccluster _ _ => Safe lay werr
  | .size _ _ => True

/-- What `pc_alloccluster` promises. -/
def Alloced (lay : Layout) (fs : Fs) (ch ch' : ℕ → List ℕ) (f cn : ℕ) : Prop :=
  (cn = pcfFreecluster ∧ ch' = ch ∧ ∀ c, ¬ Free lay fs c) ∨
    (Free lay fs cn ∧ ch' = update ch f [cn])

/-- What each call promises, with the chains before and after it. -/
def Served (lay : Layout) (fs fs' : Fs) (ch ch' : ℕ → List ℕ) : Call → Reply → Prop
  | .balloc f lcn _, .balloc r => Balloced lay fs fs' ch ch' f lcn r
  | .bfree f skipcl, .bfree _ => Bfreed lay fs fs' ch ch' f skipcl
  | .bmap f lcn _, .bmap r => fs' = fs ∧ ch' = ch ∧ Bmapped lay fs ch f lcn r
  | .alloccluster f _, .alloccluster cn => Alloced lay fs ch ch' f cn
  | .size _ _, .size => ch' = ch
  | _, _ => False

theorem Chains.setSize (chains : Chains lay fs ch) (f : ℕ) (size : ℤ) :
    Chains lay (setSize fs f size) ch := by
  have origin : ∀ g node, (Pcfs.setSize fs f size).nodes g = some node →
      ∃ old, fs.nodes g = some old ∧ node.scluster = old.scluster := by
    intro g node at_g
    change (if g = f then (fs.nodes f).map ({ · with size := size }) else fs.nodes g) =
      some node at at_g
    split_ifs at at_g with eq
    · subst eq
      obtain ⟨old, at_old, rfl⟩ := map_eq_some_iff.1 at_g
      exact ⟨old, at_old, rfl⟩
    · exact ⟨node, at_g, rfl⟩
  refine ⟨chains.numbered, chains.present, ⟨chains.hinted.lower, chains.hinted.upper,
    chains.hinted.below⟩, fun g node at_g => ?_, fun g none => ?_, chains.continued, chains.nodup,
    chains.disjoint, chains.covered⟩
  · obtain ⟨old, at_old, same⟩ := origin g node at_g
    rw [same]
    exact chains.linked g old at_old
  · refine chains.missing g ?_
    change (if g = f then (fs.nodes f).map _ else fs.nodes g) = Option.none at none
    split_ifs at none with eq
    · subst eq
      exact map_eq_none_iff.1 none
    · exact none

theorem alloccluster_alloced {zwrite : Bool} (chains : Chains lay fs ch) (at_f : fs.nodes f = none)
    (safe : Safe lay werr) :
    ∃ cn fs', exec lay fs werr (.alloccluster f zwrite) = some (.alloccluster cn, fs') ∧
      (Dropped fs' ∨ ∃ ch', Chains lay fs' ch' ∧ Alloced lay fs ch ch' f cn) := by
  obtain ⟨cn, fs₁, alloc_eq, allocated⟩ :=
    pcAlloccluster_allocated chains.numbered chains.present chains.hinted zwrite werr
  rw [exec, at_f]
  simp only [isSome_none, false_eq_true, if_false, alloc_eq, bind_eq_bind, bind_some]
  cases allocated with
  | full none =>
    rw [if_pos (.inl rfl)]
    exact ⟨_, _, rfl, .inr ⟨ch, chains, .inl ⟨rfl, rfl, none⟩⟩⟩
  | @failed c fs₁ free zwrite_eq failed mark =>
    rw [if_pos (.inr rfl)]
    refine ⟨_, _, rfl, .inl (pcGldiskchanged_dropped ?_ fs₁)⟩
    rw [← not_eq_true]
    intro fixed
    rw [safe fixed c] at failed
    exact nomatch failed
  | @taken c fs₁ free least mark =>
    have two_le := (validcl_iff.1 free.1).1
    rw [if_neg (by unfold pcfFreecluster pcfErrorcluster; omega)]
    refine ⟨_, _, rfl, .inr ⟨_, ?_, .inr ⟨free, rfl⟩⟩⟩
    refine chains.start (chains.missing f at_f) free least mark.present mark.entry_eq
      rfl (fun g ne => ?_)
      (update_self ..) rfl
    exact (update_of_ne ne ..).trans (by rw [mark.nodes_eq])

/-- One call keeps the clusters on chains and does what it promises. -/
theorem exec_served {call : Call} (chains : Chains lay fs ch) (names : Names fs call)
    (meets : Meets lay fs werr call) : ∃ reply fs', exec lay fs werr call = some (reply, fs') ∧
      (Dropped fs' ∨ ∃ ch', Chains lay fs' ch' ∧ Served lay fs fs' ch ch' call reply) := by
  cases call with
  | balloc f lcn zwrite =>
    obtain ⟨node, at_f⟩ := isSome_iff_exists.1 names
    obtain ⟨r, fs', balloc_eq, done⟩ :=
      @pcBalloc_balloced lay fs ch f node zwrite werr lcn chains at_f
      (meets.1 node at_f) meets.2
    exact ⟨.balloc r, fs', by rw [exec, balloc_eq]; rfl, done⟩
  | bfree f skipcl =>
    obtain ⟨node, at_f⟩ := isSome_iff_exists.1 names
    obtain ⟨r, fs', ch', bfree_eq, chains', done⟩ :=
      @pcBfree_bfreed lay fs ch f skipcl node chains at_f
      (meets node at_f).1 (meets node at_f).2
    exact ⟨.bfree r, fs', by rw [exec, bfree_eq]; rfl, .inr ⟨ch', chains', done⟩⟩
  | bmap f lcn contigbp =>
    obtain ⟨node, at_f⟩ := isSome_iff_exists.1 names
    obtain ⟨r, bmap_eq, done⟩ := @pcBmap_bmapped lay fs ch f node lcn contigbp chains at_f
    exact ⟨.bmap r, fs, by rw [exec, bmap_eq]; rfl, .inr ⟨ch, chains, rfl, rfl, done⟩⟩
  | alloccluster f zwrite =>
    obtain ⟨cn, fs', exec_eq, done⟩ :=
      @alloccluster_alloced lay fs ch f werr zwrite chains names meets
    exact ⟨.alloccluster cn, fs', exec_eq, done⟩
  | size f size => exact ⟨.size, _, rfl, .inr ⟨ch, chains.setSize f size, rfl⟩⟩

/-! ### Removing all files -/

/-- All files are cut off to nothing, as when they are removed. -/
def freeAll (lay : Layout) (fs : Fs) : List ℕ → Option Fs
  | [] => some fs
  | f :: files => do
      let (_, fs) ← pcBfree lay fs f 0
      freeAll lay fs files

theorem Chains.sized_iff (chains : Chains lay fs ch) (at_f : fs.nodes f = some node) :
    node.Sized lay fs ↔ (node.vtype = .vreg → howmany node.size lay.clsize = (ch f).length) := by
  refine ⟨fun sized reg => chains.howmany_eq at_f sized reg, fun many reg => ?_⟩
  exact ⟨_, chains.fileclsize at_f, many reg⟩

theorem freeAll_empties {files : List ℕ} (chains : Chains lay fs ch) (distinct : files.Nodup)
    (sized : ∀ f ∈ files, ∃ node, fs.nodes f = some node ∧ node.root = false ∧ node.Sized lay fs)
    (all : ∀ f, ch f ≠ [] → f ∈ files) :
    ∃ fs', freeAll lay fs files = some fs' ∧ ∀ c, ¬ InUse lay fs' c := by
  induction files generalizing fs ch with
  | nil =>
    refine ⟨fs, rfl, fun c used => ?_⟩
    obtain ⟨f, mem⟩ := chains.covered c used
    exact nomatch all f (ne_nil_of_mem mem)
  | cons f files ih =>
    obtain ⟨f_notMem, distinct⟩ := nodup_cons.1 distinct
    obtain ⟨node, at_f, inner, node_sized⟩ := sized f mem_cons_self
    obtain ⟨r, fs₁, ch₁, bfree_eq, chains₁, ch₁_eq, -, others⟩ :=
      @pcBfree_bfreed lay fs ch f 0 node chains at_f inner node_sized
    rw [take_zero] at ch₁_eq
    have same : ∀ g, g ≠ f → ch₁ g = ch g := fun g ne => by rw [ch₁_eq, update_of_ne ne]
    have sized₁ : ∀ g ∈ files, ∃ node, fs₁.nodes g = some node ∧ node.root = false ∧
        node.Sized lay fs₁ := by
      intro g mem
      have ne : g ≠ f := fun eq => f_notMem (eq ▸ mem)
      obtain ⟨node_g, at_g, inner_g, sized_g⟩ := sized g (mem_cons_of_mem f mem)
      have at_g₁ : fs₁.nodes g = some node_g := (others g ne).trans at_g
      refine ⟨node_g, at_g₁, inner_g, (chains₁.sized_iff at_g₁).2 fun reg => ?_⟩
      rw [same g ne]
      exact (chains.sized_iff at_g).1 sized_g reg
    have all₁ : ∀ g, ch₁ g ≠ [] → g ∈ files := by
      intro g some_left
      have ne : g ≠ f := by
        rintro rfl
        rw [ch₁_eq, update_self] at some_left
        exact some_left rfl
      rw [same g ne] at some_left
      exact (mem_cons.1 (all g some_left)).resolve_left ne
    obtain ⟨fs', free_eq, unused⟩ := ih chains₁ distinct sized₁ all₁
    exact ⟨fs', by rw [freeAll, bfree_eq]; exact free_eq, unused⟩

/-! ### Runs -/

/-- Calls one after another, each of which meets a condition. -/
inductive Run (lay : Layout) (ok : Fs → (ℕ → Bool) → Call → Prop) (fs₀ : Fs) : Fs → Prop
  | start : Run lay ok fs₀ fs₀
  | call {fs fs' : Fs} {werr : ℕ → Bool} {call : Call} {reply : Reply} : Run lay ok fs₀ fs →
      ok fs werr call → exec lay fs werr call = some (reply, fs') → Run lay ok fs₀ fs'

/-- The clusters in use are the chains of the files, every call that can come next does what it
promises, and removing the files frees all clusters. -/
def Kept (lay : Layout) (fs : Fs) : Prop :=
  ∃ ch, Chains lay fs ch ∧
    (∀ werr call, Names fs call → Meets lay fs werr call →
      ∃ reply fs', exec lay fs werr call = some (reply, fs') ∧
        (Dropped fs' ∨ ∃ ch', Chains lay fs' ch' ∧ Served lay fs fs' ch ch' call reply)) ∧
    ∀ files : List ℕ, files.Nodup → (∀ f, ch f ≠ [] → f ∈ files) →
      (∀ f ∈ files, ∃ node, fs.nodes f = some node ∧ node.root = false ∧ node.Sized lay fs) →
      ∃ fs', freeAll lay fs files = some fs' ∧ ∀ c, ¬ InUse lay fs' c

theorem names_of_exec {call : Call} {reply : Reply}
    (exec_eq : exec lay fs werr call = some (reply, fs')) :
    Names fs call := by
  cases call with
  | balloc f lcn zwrite =>
    cases at_f : fs.nodes f with
    | none => rw [exec, pcBalloc, at_f] at exec_eq; cases exec_eq
    | some node => rw [Names, at_f]; rfl
  | bfree f skipcl =>
    cases at_f : fs.nodes f with
    | none => rw [exec, pcBfree, at_f] at exec_eq; cases exec_eq
    | some node => rw [Names, at_f]; rfl
  | bmap f lcn contigbp =>
    cases at_f : fs.nodes f with
    | none => rw [exec, pcBmap, at_f] at exec_eq; cases exec_eq
    | some node => rw [Names, at_f]; rfl
  | alloccluster f zwrite =>
    cases at_f : fs.nodes f with
    | none => exact at_f
    | some node => rw [exec, at_f] at exec_eq; cases exec_eq
  | size f size => exact trivial

theorem Dropped.run {call : Call} {reply : Reply} (gone : Dropped fs)
    (exec_eq : exec lay fs werr call = some (reply, fs')) :
    Dropped fs' := by
  have names := names_of_exec exec_eq
  cases call with
  | balloc f _ _ => rw [Names, gone.2 f] at names; exact nomatch names
  | bfree f _ => rw [Names, gone.2 f] at names; exact nomatch names
  | bmap f _ _ => rw [Names, gone.2 f] at names; exact nomatch names
  | alloccluster f zwrite =>
    rw [exec, gone.2 f, pcAlloccluster, gone.1] at exec_eq
    exact nomatch exec_eq
  | size f size =>
    obtain ⟨-, rfl⟩ := Prod.mk.inj (some.inj exec_eq)
    refine ⟨gone.1, fun g => ?_⟩
    change (if g = f then (fs.nodes f).map _ else fs.nodes g) = none
    rw [gone.2 f, gone.2 g]
    split_ifs <;> rfl

theorem Run.chains (chains : Chains lay fs₀ ch) (run : Run lay (Meets lay) fs₀ fs) :
    Dropped fs ∨ ∃ ch, Chains lay fs ch := by
  induction run with
  | start => exact .inr ⟨ch, chains⟩
  | @call fs fs' werr call reply before meets exec_eq ih =>
    rcases ih with gone | ⟨ch, chains⟩
    · exact .inl (gone.run exec_eq)
    · obtain ⟨reply', fs'', exec_eq', done⟩ := exec_served chains (names_of_exec exec_eq) meets
      obtain ⟨-, rfl⟩ := Prod.mk.inj (some.inj (exec_eq.symm.trans exec_eq'))
      exact done.imp_right fun ⟨ch', chains', _⟩ => ⟨ch', chains'⟩

/-- Through any run whose calls lose no chain the clusters in use stay the chains of the files. -/
theorem chains_kept (chains : Chains lay fs₀ ch) (run : Run lay (Meets lay) fs₀ fs) :
    Dropped fs ∨ Kept lay fs := by
  refine (run.chains chains).imp_right fun ⟨ch, chains⟩ =>
    ⟨ch, chains, fun werr call names meets => ?_, ?_⟩
  · exact exec_served chains names meets
  · exact fun files distinct all sized => freeAll_empties chains distinct sized all

/-! ### A small disk -/

/-- Two clusters on a disk that cannot be changed. -/
def smallDisk : Layout := ⟨true, true, 512, 1, 0, 1, 3, 4, 512, 2⟩

/-- The disk with one empty file. -/
def smallFs : Fs := ⟨some fun _ => 0, 2, fun f => if f = 0 then some ⟨.vreg, false, 0, 0⟩ else none⟩

theorem smallFs_node (at_f : smallFs.nodes f = some node) : node = ⟨.vreg, false, 0, 0⟩ := by
  change (if f = 0 then some _ else none) = some node at at_f
  split_ifs at at_f
  exact (some.inj at_f).symm

theorem smallFs_chains : Chains smallDisk smallFs fun _ => [] := by
  refine ⟨by unfold Layout.Numbered; decide, rfl,
    ⟨by decide, by decide, fun c free => (validcl_iff.1 free.1).1⟩,
    fun f node at_f => ?_, fun _ _ => rfl,
    fun _ _ => nofun, fun _ => nodup_nil, fun _ _ _ => disjoint_nil_left _, fun c used => ?_⟩
  · rw [smallFs_node at_f]
    rfl
  · exact absurd rfl used.2.1

/-- The chains of the files take up the clusters in use, and the sizes of the files tell their
lengths. -/
def Started (lay : Layout) (fs : Fs) : Prop :=
  ∃ ch, Chains lay fs ch ∧ ∀ f node, fs.nodes f = some node → node.Sized lay fs

theorem smallFs_started : Started smallDisk smallFs := by
  refine ⟨_, smallFs_chains, fun f node at_f _ => ⟨0, ?_, ?_⟩⟩
  · rw [smallFs_node at_f]
    rfl
  · rw [smallFs_node at_f]
    decide

theorem chains_kept_smallFs : ∃ fs, exec smallDisk smallFs (fun _ => false) (.balloc 0 1 true) =
    some (.balloc (.ok 5), fs) ∧ (Dropped fs ∨ Kept smallDisk fs) := by
  obtain ⟨fs, exec_eq⟩ : ∃ fs, exec smallDisk smallFs (fun _ => false) (.balloc 0 1 true) =
    some (.balloc (.ok 5), fs) := ⟨_, rfl⟩
  have meets : Meets smallDisk smallFs (fun _ => false) (.balloc 0 1 true) := by
    refine ⟨fun node at_f _ _ => ?_, fun _ _ => rfl⟩
    rw [smallFs_node at_f]
    decide
  exact ⟨fs, exec_eq, chains_kept smallFs_chains (.call .start meets exec_eq)⟩

/-- The zeros for the first cluster of the file cannot be written: the cluster is in use, and no
file has it. -/
theorem failed_write_loses_cluster :
    ¬ ∀ lay fs₀ fs, Started lay fs₀ → Run lay (fun _ _ _ => True) fs₀ fs →
    Dropped fs ∨ ∃ ch, Chains lay fs ch := by
  intro claim
  obtain ⟨fs, exec_eq, used, node_eq, others, present⟩ :
      ∃ fs, exec smallDisk smallFs
        (fun _ => true) (.balloc 0 0 true) = some (.balloc (.error .eio), fs) ∧
        InUse smallDisk fs 2 ∧ fs.nodes 0 = some ⟨.vreg, false, 0, 0⟩ ∧
          (∀ f, f ≠ 0 → fs.nodes f = none) ∧
        fs.fatp.isSome :=
          ⟨_, rfl, ⟨by decide, by decide, by decide⟩, rfl, fun f ne => if_neg ne, rfl⟩
  rcases claim smallDisk smallFs fs smallFs_started (.call .start trivial exec_eq) with
    gone | ⟨ch, chains⟩
  · rw [gone.1] at present
    exact nomatch present
  · obtain ⟨f, mem⟩ := chains.covered 2 used
    by_cases file : f = 0
    · subst file
      rw [chains.eq_nil node_eq (by decide)] at mem
      exact nomatch mem
    · rw [chains.missing f (others f file)] at mem
      exact nomatch mem

end Sol25.Pcfs
