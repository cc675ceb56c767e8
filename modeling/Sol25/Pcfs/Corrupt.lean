import Mathlib.Data.Fintype.EquivFin
import Sol25.Pcfs.Run

/-!
# A corrupt table

The table comes from a disk that can be changed, and may hold anything.  The walks of `pc_bmap`,
`pc_balloc` and `pc_bfree` count down and look at every number before they follow it; only the
search for a free cluster runs beyond the last number of 16 bits, on a disk with that many clusters.
`pc_fileclsize` has no count: it returns exactly when the chain does not run into itself.
-/

namespace Sol25.Pcfs

open Option

variable {lay : Layout} {fs : Fs} {f c d v : ℕ} {node : Pcnode}

/-- The table is in memory, and the search for a free cluster starts at a cluster. -/
structure Resident (lay : Layout) (fs : Fs) : Prop where
  present : fs.fatp.isSome
  hint : pcfFirstcluster ≤ fs.nxfrecls ∧ fs.nxfrecls ≤ lay.ncluster + pcfFirstcluster

/-- The table leads from one cluster to another. -/
def Follows (lay : Layout) (fs : Fs) (c d : ℕ) : Prop :=
  validcl lay c = true ∧ validcl lay d = true ∧ entry lay fs c = d

/-- No cluster of the chain from `v` is met again further on. -/
def Straight (lay : Layout) (fs : Fs) (v : ℕ) : Prop :=
  ∀ c, Relation.ReflTransGen (Follows lay fs) v c → ¬ Relation.TransGen (Follows lay fs) c c

/-! ### Walks that count -/

section

variable (resident : Resident lay fs)

include resident

theorem Resident.setcluster (valid : validcl lay c = true) (v : ℕ) :
    ∃ fs', pcSetcluster lay fs c v = some fs' ∧ Resident lay fs' := by
  obtain ⟨fat, fat_eq⟩ := isSome_iff_exists.1 resident.present
  simp only [pcSetcluster, fat_eq, bind_eq_bind, bind_some, if_pos valid]
  refine ⟨_, rfl, rfl, ?_⟩
  dsimp only
  split_ifs
  · exact ⟨le_rfl, Nat.le_add_left ..⟩
  · exact resident.hint

theorem Resident.allocLoop (few : lay.ncluster + pcfFirstcluster < 2 ^ 16) (zwrite : Bool)
    (werr : ℕ → Bool) {fuel : ℕ} (first : pcfFirstcluster ≤ c)
    (enough : lay.ncluster + pcfFirstcluster < c + fuel)
    (last : c ≤ lay.ncluster + pcfFirstcluster) :
    ∃ cn fs', allocLoop lay fs zwrite werr fuel c = some (cn, fs') ∧
      (pcfFirstcluster ≤ fs'.nxfrecls ∧ fs'.nxfrecls ≤ lay.ncluster + pcfFirstcluster) ∧
      (cn = pcfFreecluster ∨ cn = pcfErrorcluster ∨ validcl lay cn = true ∧ Resident lay fs') := by
  induction fuel generalizing c with
  | zero => omega
  | succ fuel ih =>
    rw [Pcfs.allocLoop]
    by_cases inside : ¬ c < lay.ncluster + pcfFirstcluster
    · rw [if_neg inside]
      exact ⟨_, _, rfl, resident.hint, .inl rfl⟩
    rw [not_not] at inside
    have valid : validcl lay c = true := validcl_iff.2 ⟨first, inside⟩
    rw [if_pos inside, pcGetcluster_eq resident.present valid]
    simp only [bind_eq_bind, bind_some]
    by_cases free : entry lay fs c = pcfFreecluster
    · rw [if_pos free]
      obtain ⟨fs', set, resident'⟩ := resident.setcluster valid pcfLastcluster
      rw [set]
      simp only [bind_some]
      split_ifs
      · refine ⟨_, _, rfl, ?_, .inr (.inl rfl)⟩
        rw [pcGldiskchanged]
        split_ifs <;> exact resident'.hint
      · have hint : pcfFirstcluster ≤ c + 1 ∧ c + 1 ≤ lay.ncluster + pcfFirstcluster := by omega
        exact ⟨_, _, rfl, hint, .inr (.inr ⟨valid, resident'.present, hint⟩)⟩
    · rw [if_neg free, Nat.mod_eq_of_lt (by omega)]
      exact ih (by omega) (by omega) inside

theorem Resident.alloccluster (few : lay.ncluster + pcfFirstcluster < 2 ^ 16) (zwrite : Bool)
    (werr : ℕ → Bool) :
    ∃ cn fs', pcAlloccluster lay fs zwrite werr = some (cn, fs') ∧
      (pcfFirstcluster ≤ fs'.nxfrecls ∧ fs'.nxfrecls ≤ lay.ncluster + pcfFirstcluster) ∧
      (cn = pcfFreecluster ∨ cn = pcfErrorcluster ∨ validcl lay cn = true ∧ Resident lay fs') := by
  obtain ⟨fat, fat_eq⟩ := isSome_iff_exists.1 resident.present
  obtain ⟨first, last⟩ := id resident.hint
  rw [pcAlloccluster, fat_eq, bind_eq_bind, bind_some, Nat.mod_eq_of_lt (by omega)]
  exact resident.allocLoop few zwrite werr first (by omega) last

theorem Resident.ballocLoop (few : lay.ncluster + pcfFirstcluster < 2 ^ 16) (zwrite : Bool)
    (werr : ℕ → Bool) (lcn : ℕ) (valid : validcl lay c = true) :
    ∃ r fs', ballocLoop lay zwrite werr lcn fs c = some (r, fs') ∧
      pcfFirstcluster ≤ fs'.nxfrecls ∧ fs'.nxfrecls ≤ lay.ncluster + pcfFirstcluster := by
  induction lcn generalizing fs c with
  | zero => exact ⟨_, _, rfl, resident.hint⟩
  | succ lcn ih =>
    rw [Pcfs.ballocLoop, pcGetcluster_eq resident.present valid]
    simp only [bind_eq_bind, bind_some]
    split_ifs with ends follows
    · obtain ⟨cn, fs', alloc, hint, outcome⟩ :=
        @Resident.alloccluster lay fs resident few zwrite werr
      rw [alloc]
      simp only [bind_some]
      split_ifs
      · exact ⟨_, _, rfl, hint⟩
      · exact ⟨_, _, rfl, hint⟩
      rcases outcome with free | error | ⟨valid', resident'⟩
      · contradiction
      · contradiction
      obtain ⟨fs₂, set, resident₂⟩ := resident'.setcluster valid cn
      rw [set]
      exact ih resident₂ valid'
    · exact ih resident follows
    · exact ⟨_, _, rfl, resident.hint⟩

theorem Resident.balloc (few : lay.ncluster + pcfFirstcluster < 2 ^ 16)
    (at_f : fs.nodes f = some node) (lcn : ℤ) (zwrite : Bool) (werr : ℕ → Bool) :
    ∃ r fs', pcBalloc lay fs f lcn zwrite werr = some (r, fs') ∧
      pcfFirstcluster ≤ fs'.nxfrecls ∧ fs'.nxfrecls ≤ lay.ncluster + pcfFirstcluster := by
  rw [pcBalloc, at_f]
  simp only [bind_eq_bind, bind_some]
  split_ifs with _ _ _ _ _ valid
  iterate 4 exact ⟨_, _, rfl, resident.hint⟩
  · obtain ⟨cn, fs', alloc, hint, outcome⟩ := @Resident.alloccluster lay fs resident few true werr
    rw [alloc]
    simp only [bind_some]
    split_ifs
    · exact ⟨_, _, rfl, hint⟩
    · exact ⟨_, _, rfl, hint⟩
    rcases outcome with free | error | ⟨valid', resident'⟩
    · contradiction
    · contradiction
    have started : Resident lay (setScluster fs' f cn) := ⟨resident'.present, resident'.hint⟩
    exact started.ballocLoop few zwrite werr _ valid'
  · exact resident.ballocLoop few zwrite werr _ valid
  · exact ⟨_, _, rfl, resident.hint⟩

theorem Resident.bfreeLoop (vtype : Vtype) (left c skipcl : ℕ) :
    ∃ r fs', bfreeLoop lay vtype left fs c skipcl = some (r, fs') ∧ Resident lay fs' := by
  induction left generalizing fs c skipcl with
  | zero => exact ⟨_, _, rfl, resident⟩
  | succ left ih =>
    rw [Pcfs.bfreeLoop]
    split_ifs with valid
    · have entry_set : ∃ fs', bfreeEntry lay fs c skipcl = some fs' ∧ Resident lay fs' := by
        rw [bfreeEntry]
        split_ifs
        · exact resident.setcluster valid _
        · exact resident.setcluster valid _
        · exact ⟨fs, rfl, resident⟩
      obtain ⟨fs', set, resident'⟩ := entry_set
      rw [pcGetcluster_eq resident.present valid]
      simp only [bind_eq_bind, bind_some, set]
      split_ifs
      · exact ⟨_, _, rfl, resident'⟩
      · exact ih resident' _ _
    · exact ⟨_, _, rfl, resident⟩

theorem Resident.bfree (at_f : fs.nodes f = some node) (plain : node.root = false) (skipcl : ℕ) :
    ∃ r fs', pcBfree lay fs f skipcl = some (r, fs') ∧ Resident lay fs' := by
  rw [pcBfree, at_f]
  simp only [bind_eq_bind, bind_some, plain, Bool.false_eq_true, if_false]
  generalize (if node.vtype = .vreg then howmany node.size lay.clsize else lay.ncluster) = n
  split_ifs
  · exact ⟨_, _, rfl, resident⟩
  · exact ⟨_, _, rfl, resident⟩
  · have started : Resident lay (setScluster fs f pcfLastcluster) :=
      ⟨resident.present, resident.hint⟩
    exact started.bfreeLoop _ _ _ _
  · exact resident.bfreeLoop _ _ _ _

theorem Resident.bmapLoop (vtype : Vtype) (lcn c : ℕ) :
    ∃ r, bmapLoop lay fs vtype lcn c = some r := by
  induction lcn generalizing c with
  | zero =>
    rw [Pcfs.bmapLoop]
    split_ifs with valid
    · rw [pcGetcluster_eq resident.present valid]
      exact ⟨_, rfl⟩
    · exact ⟨_, rfl⟩
    · exact ⟨_, rfl⟩
  | succ lcn ih =>
    rw [Pcfs.bmapLoop]
    split_ifs with valid
    · rw [pcGetcluster_eq resident.present valid]
      exact ih _
    · exact ⟨_, rfl⟩
    · exact ⟨_, rfl⟩

end

/-- The rounds that are allowed for the contiguous clusters are enough. -/
theorem contigLoop_enough (wanted extra : ℕ) {left ncn count : ℕ}
    (enough : lay.ncluster + 1 ≤ c + left) :
    contigLoop lay fs wanted (left + extra) c ncn count =
      contigLoop lay fs wanted left c ncn count := by
  induction left generalizing c ncn count with
  | zero =>
    cases extra with
    | zero => rfl
    | succ extra =>
      rw [Nat.zero_add, contigLoop, contigLoop, if_neg]
      rintro ⟨rfl, -, valid⟩
      have := validcl_iff.1 valid
      omega
  | succ left ih =>
    rw [Nat.succ_add, contigLoop, contigLoop]
    split_ifs with goes
    · have more : lay.ncluster + 1 ≤ ncn + left := by omega
      simp only [ih more]
    · rfl

theorem Resident.bmap (resident : Resident lay fs) (at_f : fs.nodes f = some node) (lcn : ℤ)
    (contigbp : Option ℕ) : ∃ r, pcBmap lay fs f lcn contigbp = some r := by
  rw [pcBmap, at_f]
  simp only [bind_eq_bind, bind_some]
  split_ifs
  iterate 5 exact ⟨_, rfl⟩
  obtain ⟨r, walked⟩ := @Resident.bmapLoop lay fs resident node.vtype lcn.toNat node.scluster
  rw [walked]
  simp only [bind_some]
  cases r with
  | error e => exact ⟨_, rfl⟩
  | ok found =>
    obtain ⟨cn, ncn⟩ := found
    cases contigbp with
    | none => exact ⟨_, rfl⟩
    | some wanted =>
      dsimp only
      split_ifs
      · obtain ⟨count, counted⟩ :=
          @contigLoop_some lay fs resident.present wanted lay.ncluster cn ncn lay.clsize
        rw [counted]
        exact ⟨_, rfl⟩
      · exact ⟨_, rfl⟩

/-! ### The walk that does not count -/

theorem Resident.fileclsize (resident : Resident lay fs) (valid : validcl lay c = true) (fuel : ℕ) :
    pcFileclsize lay fs (fuel + 1) c = (pcFileclsize lay fs fuel (entry lay fs c)).map (· + 1) := by
  rw [pcFileclsize, if_pos valid, pcGetcluster_eq resident.present valid]
  simp only [bind_eq_bind, bind_some]
  cases pcFileclsize lay fs fuel (entry lay fs c) <;> rfl

/-- A walk from a cluster further on is shorter. -/
theorem Resident.shorter (resident : Resident lay fs)
    (path : Relation.TransGen (Follows lay fs) c d) {fuel n : ℕ}
    (returns : pcFileclsize lay fs fuel c = some n) :
    ∃ fuel m, pcFileclsize lay fs fuel d = some m ∧ m < n := by
  have step {c d fuel n : ℕ} (follows : Follows lay fs c d)
      (returns : pcFileclsize lay fs fuel c = some n) :
      ∃ fuel m, pcFileclsize lay fs fuel d = some m ∧ m < n := by
    obtain ⟨valid, -, rfl⟩ := follows
    cases fuel with
    | zero => simp [pcFileclsize, valid] at returns
    | succ fuel =>
      rw [resident.fileclsize valid] at returns
      obtain ⟨m, rest, rfl⟩ := map_eq_some_iff.1 returns
      exact ⟨fuel, m, rest, Nat.lt_succ_self m⟩
  induction path with
  | single follows => exact step follows returns
  | tail _ follows ih =>
    obtain ⟨fuel, m, returns, less⟩ := ih
    obtain ⟨fuel, k, returns, less'⟩ := step follows returns
    exact ⟨fuel, k, returns, less'.trans less⟩

theorem Resident.straight_of_returns (resident : Resident lay fs) {fuel n : ℕ}
    (returns : pcFileclsize lay fs fuel v = some n) : Straight lay fs v := by
  intro c reach loop
  have ends : ∃ n fuel, pcFileclsize lay fs fuel c = some n := by
    rcases Relation.reflTransGen_iff_eq_or_transGen.1 reach with rfl | path
    · exact ⟨n, fuel, returns⟩
    · obtain ⟨fuel, m, returns, -⟩ := resident.shorter path returns
      exact ⟨m, fuel, returns⟩
  obtain ⟨n, fuel, returns⟩ := ends
  induction n using Nat.strong_induction_on generalizing fuel with
  | h n ih =>
    obtain ⟨fuel, m, returns, less⟩ := resident.shorter loop returns
    exact ih m less fuel returns

theorem Resident.returns_of_straight (resident : Resident lay fs) (straight : Straight lay fs v) :
    ∃ fuel n, pcFileclsize lay fs fuel v = some n := by
  let later (a b : Fin (lay.ncluster + 2)) : Prop :=
    Relation.TransGen (Follows lay fs) b a ∧ Relation.ReflTransGen (Follows lay fs) v b
  have transitive : IsTrans _ later :=
    ⟨fun _ _ _ first second => ⟨second.1.trans first.1, second.2⟩⟩
  have irreflexive : Std.Irrefl later := ⟨fun a loop => straight a loop.2 loop.1⟩
  have wf : WellFounded later := Finite.wellFounded_of_trans_of_irrefl later
  have returns (a : Fin (lay.ncluster + 2)) : Relation.ReflTransGen (Follows lay fs) v a →
        ∃ fuel n, pcFileclsize lay fs fuel a = some n := by
    induction a using wf.induction with
    | h a ih =>
      intro reach
      by_cases valid : validcl lay a = true
      · by_cases goes : validcl lay (entry lay fs a) = true
        · have follows : Follows lay fs a (entry lay fs a) := ⟨valid, goes, rfl⟩
          obtain ⟨fuel, n, returns⟩ := ih ⟨entry lay fs a, (validcl_iff.1 goes).2⟩
            ⟨.single follows, reach⟩ (reach.tail follows)
          exact ⟨fuel + 1, n + 1, by rw [resident.fileclsize valid, returns]; rfl⟩
        · refine ⟨1, 1, ?_⟩
          rw [resident.fileclsize valid, pcFileclsize, if_neg goes]
          rfl
      · exact ⟨0, 0, by rw [pcFileclsize, if_neg valid]⟩
  by_cases valid : validcl lay v = true
  · exact returns ⟨v, (validcl_iff.1 valid).2⟩ .refl
  · exact ⟨0, 0, by rw [pcFileclsize, if_neg valid]⟩

/-! ### A table without a free cluster -/

/-- With too many clusters the search for a free one goes on from zero. -/
theorem allocLoop_wraps (many : 2 ^ 16 ≤ lay.ncluster + pcfFirstcluster)
    (present : fs.fatp.isSome) (full : ∀ c, entry lay fs c ≠ pcfFreecluster) {zwrite : Bool}
    {werr : ℕ → Bool} (fuel : ℕ) (lt : c < 2 ^ 16) :
    allocLoop lay fs zwrite werr fuel c = none := by
  induction fuel generalizing c with
  | zero => rfl
  | succ fuel ih =>
    rw [allocLoop, if_pos (lt.trans_le many)]
    by_cases first : pcfFirstcluster ≤ c
    · rw [pcGetcluster_eq present (validcl_iff.2 ⟨first, lt.trans_le many⟩)]
      simp only [bind_eq_bind, bind_some, if_neg (full c)]
      exact ih (Nat.mod_lt _ (by decide))
    · obtain ⟨fat, fat_eq⟩ := isSome_iff_exists.1 present
      have panics : pcGetcluster lay fs c = none := by
        rw [pcGetcluster, fat_eq]
        exact if_neg fun valid => first (validcl_iff.1 valid).1
      rw [panics]
      rfl

/-- A table with the last value in all entries, and an empty directory. -/
def fullFs : Fs :=
  ⟨some fun _ => 0xff, 2, fun f => if f = 0 then some ⟨.vdir, false, 0, 0⟩ else none⟩

theorem fullFs_entry (c : ℕ) : entry lay fullFs c ≠ pcfFreecluster := by
  obtain wide | narrow := Bool.eq_false_or_eq_true lay.fat16
  · simp [entry, fullFs, getEntry, wide, pcfFreecluster]
  · by_cases odd : c % 2 = 1 <;>
      simp [entry, fullFs, getEntry, narrow, odd, pcfFreecluster, pcf12bcluster]

theorem fullFs_balloc (many : 2 ^ 16 ≤ lay.ncluster + pcfFirstcluster) :
    pcBalloc lay fullFs 0 0 true (fun _ => false) = none := by
  have inside : lay.ncluster ≠ 0 := by
    simp only [pcfFirstcluster] at many
    omega
  have alloc : pcAlloccluster lay fullFs true (fun _ => false) = none :=
    allocLoop_wraps many rfl fullFs_entry _ (by decide)
  have node : fullFs.nodes 0 = some ⟨.vdir, false, 0, 0⟩ := rfl
  rw [pcBalloc, node, alloc]
  simp [inside, Pcnode.fresh]

/-- Whatever the table holds, `pc_bmap` and `pc_bfree` return and follow no number that is not the
number of a cluster, and `pc_fileclsize` returns exactly when the chain does not run into itself.
`pc_balloc` returns for every table exactly when the numbers of the clusters do not come to the
end of 16 bits. -/
theorem corrupt_fat_iff (lay : Layout) :
    (∀ fs f node, Resident lay fs → fs.nodes f = some node →
      (∀ lcn contigbp, ∃ r, pcBmap lay fs f lcn contigbp = some r) ∧
      (∀ wanted cn ncn count extra, validcl lay cn = true →
        contigLoop lay fs wanted (lay.ncluster + extra) cn ncn count =
          contigLoop lay fs wanted lay.ncluster cn ncn count) ∧
      (node.root = false → ∀ skipcl,
        ∃ r fs', pcBfree lay fs f skipcl = some (r, fs') ∧ Resident lay fs') ∧
      ∀ strtcluster, (∃ fuel n, pcFileclsize lay fs fuel strtcluster = some n) ↔
        Straight lay fs strtcluster) ∧
    ((∀ fs f node lcn zwrite werr, Resident lay fs → fs.nodes f = some node →
      ∃ r fs', pcBalloc lay fs f lcn zwrite werr = some (r, fs') ∧ pcfFirstcluster ≤ fs'.nxfrecls ∧
        fs'.nxfrecls ≤ lay.ncluster + pcfFirstcluster) ↔
      lay.ncluster + pcfFirstcluster < 2 ^ 16) := by
  refine ⟨fun fs f node resident at_f => ⟨resident.bmap at_f, ?_, resident.bfree at_f,
    fun strtcluster => ⟨?_, resident.returns_of_straight⟩⟩, fun returns => ?_, ?_⟩
  · intro wanted cn ncn count extra valid
    have := validcl_iff.1 valid
    exact contigLoop_enough wanted extra (by omega)
  · rintro ⟨fuel, n, returns⟩
    exact resident.straight_of_returns returns
  · by_contra many
    have resident : Resident lay fullFs := ⟨rfl, le_rfl, Nat.le_add_left ..⟩
    obtain ⟨r, fs', panics, -⟩ := returns fullFs 0 _ 0 true (fun _ => false) resident rfl
    rw [fullFs_balloc (not_lt.1 many)] at panics
    cases panics
  · exact fun few fs f node lcn zwrite werr resident at_f =>
      resident.balloc few at_f lcn zwrite werr

/-- A disk whose first cluster follows itself. -/
def loopedFs : Fs :=
  ⟨some fun fp => if fp = 4 then 2 else 0, 2,
    fun f => if f = 0 then some ⟨.vdir, false, 0, 2⟩ else none⟩

theorem loopedFs_resident : Resident smallDisk loopedFs := ⟨rfl, le_rfl, by decide⟩

/-- A disk whose second cluster follows the first one and ends the chain. -/
def linkedFs : Fs :=
  ⟨some fun fp => if fp = 4 then 3 else if fp = 5 then 0 else 0xff, 2,
    fun f => if f = 0 then some ⟨.vdir, false, 0, 2⟩ else none⟩

/-- The chain of two clusters is walked to its end, and there is no third one. -/
theorem corrupt_fat_iff_linkedFs : (∃ fuel n, pcFileclsize smallDisk linkedFs fuel 2 = some n) ∧
    (∃ r, pcBmap smallDisk linkedFs 0 1 none = some r) ∧
    ∃ r fs', pcBalloc smallDisk linkedFs 0 1 true (fun _ => false) = some (r, fs') := by
  have resident : Resident smallDisk linkedFs := ⟨rfl, le_rfl, by decide⟩
  have only {c d : ℕ} (follows : Follows smallDisk linkedFs c d) : c = 2 ∧ d = 3 := by
    obtain ⟨valid, valid', rfl⟩ := follows
    have range := validcl_iff.1 valid
    obtain rfl | rfl : c = 2 ∨ c = 3 := by
      simp only [smallDisk] at range
      omega
    · exact ⟨rfl, rfl⟩
    · exact absurd valid' (by decide)
  have straight : Straight smallDisk linkedFs 2 := by
    intro c _ loop
    obtain ⟨d, first, -⟩ := Relation.TransGen.head'_iff.1 loop
    obtain ⟨e, -, last⟩ := Relation.TransGen.tail'_iff.1 loop
    exact absurd ((only first).1.symm.trans (only last).2) (by decide)
  obtain ⟨walks, allocates⟩ := corrupt_fat_iff smallDisk
  obtain ⟨maps, -, -, sizes⟩ := walks linkedFs 0 _ resident rfl
  obtain ⟨r, fs', allocated, -⟩ :=
    allocates.2 (by decide) linkedFs 0 _ 1 true (fun _ => false) resident rfl
  exact ⟨(sizes 2).2 straight, maps 1 none, r, fs', allocated⟩

/-- `pc_fileclsize` does not return on the disk whose first cluster follows itself. -/
theorem fileclsize_hangs : ¬ ∀ lay fs strtcluster, Resident lay fs →
    ∃ fuel n, pcFileclsize lay fs fuel strtcluster = some n := by
  intro holds
  obtain ⟨fuel, n, returns⟩ := holds smallDisk loopedFs 2 loopedFs_resident
  have follows : Follows smallDisk loopedFs 2 2 := ⟨rfl, rfl, rfl⟩
  exact loopedFs_resident.straight_of_returns returns 2 .refl (.single follows)

end Sol25.Pcfs
