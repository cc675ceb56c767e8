import Sol25.Pcfs.Model

/-!
# Entries of the file allocation table

What is put into an entry is read from it again, and the other entries keep their values although
two entries of 12 bits share a byte.
-/

namespace Sol25.Pcfs

open Function Option

variable {lay : Layout} {fat : ℕ → BitVec 8} {fs fs' : Fs} {c d v : ℕ}

/-- The values the allocator puts into entries. -/
def Storable (lay : Layout) (v : ℕ) : Prop :=
  validcl lay v = true ∨ v = pcfFreecluster ∨ v = pcfLastcluster

theorem validcl_iff : validcl lay c = true ↔ 2 ≤ c ∧ c < lay.ncluster + 2 := by
  rw [validcl, decide_eq_true_iff]
  rfl

theorem lt_of_validcl (numbered : lay.Numbered) (valid : validcl lay c = true) :
    c < if lay.fat16 then 0xFFF7 else 0xFF0 := by
  rw [validcl_iff] at valid
  unfold Layout.Numbered pcfFirstcluster pcfBadcluster pcf12bcluster at numbered
  omega

theorem lt_badcluster (numbered : lay.Numbered) (valid : validcl lay c = true) : c < 0xFFF7 := by
  have below := lt_of_validcl numbered valid
  split_ifs at below
  · exact below
  · omega

theorem Layout.Numbered.ncluster_lt (numbered : lay.Numbered) :
    lay.ncluster + pcfFirstcluster < 2 ^ 16 := by
  unfold Layout.Numbered pcfBadcluster pcf12bcluster at numbered
  split_ifs at numbered <;> omega

/-! ### Nibbles -/

theorem toNat_byte (n : ℕ) : (BitVec.ofNat 8 n).toNat = n &&& 0xff := by
  rw [BitVec.toNat_ofNat, ← Nat.and_two_pow_sub_one_eq_mod]

theorem and_low_nibble (b : ℕ) : b &&& 0x0f = b % 16 := Nat.and_two_pow_sub_one_eq_mod b 4

theorem low_of_or (x y : ℕ) : ((x &&& 0x0f) ||| (y &&& 0xf0)) &&& 0xff &&& 0x0f = x &&& 0x0f := by
  have whole : 0x0f &&& (0xff &&& 0x0f) = 0x0f := rfl
  have none : 0xf0 &&& (0xff &&& 0x0f) = 0 := rfl
  rw [Nat.and_assoc, Nat.and_or_distrib_right, Nat.and_assoc, Nat.and_assoc, whole, none,
    Nat.and_zero, Nat.or_zero]

theorem high_of_or (x y : ℕ) : ((x &&& 0x0f) ||| (y &&& 0xf0)) &&& 0xff &&& 0xf0 = y &&& 0xf0 := by
  have whole : 0xf0 &&& (0xff &&& 0xf0) = 0xf0 := rfl
  have none : 0x0f &&& (0xff &&& 0xf0) = 0 := rfl
  rw [Nat.and_assoc, Nat.and_or_distrib_right, Nat.and_assoc, Nat.and_assoc, whole, none,
    Nat.and_zero, Nat.zero_or]

/-! ### Entries of 12 bits -/

/-- The reserved values of 12 bits are read as those of 16 bits. -/
def widen (n : ℕ) : ℕ := if pcf12bcluster ≤ n then n ||| pcfRescluster else n

theorem widen_eq (small : v < 0xFF0 ∨ v = 0xFFF8) : widen (v % 4096) = v := by
  unfold widen pcf12bcluster pcfRescluster
  rcases small with small | rfl
  · rw [if_neg (by omega)]
    omega
  · rfl

section Narrow

variable (narrow : lay.fat16 = false)
include narrow

theorem getEntry_odd (odd : c % 2 = 1) : getEntry lay fat c =
    widen ((((fat (c + c >>> 1)).toNat &&& 0xf0) >>> 4) +
      ((fat (c + c >>> 1 + 1)).toNat <<< 4)) := by
  rw [getEntry, narrow, if_neg Bool.false_ne_true]
  dsimp only
  rw [if_pos odd]
  rfl

theorem getEntry_even (even : ¬ c % 2 = 1) : getEntry lay fat c =
    widen ((fat (c + c >>> 1)).toNat + (((fat (c + c >>> 1 + 1)).toNat &&& 0x0f) <<< 8)) := by
  rw [getEntry, narrow, if_neg Bool.false_ne_true]
  dsimp only
  rw [if_neg even]
  rfl

theorem setEntry_odd (odd : c % 2 = 1) : setEntry lay fat c v = update (update fat (c + c >>> 1)
        (BitVec.ofNat 8 (((fat (c + c >>> 1)).toNat &&& 0x0f) ||| ((v <<< 4) &&& 0xf0))))
      (c + c >>> 1 + 1) (BitVec.ofNat 8 ((v >>> 4) &&& 0xff)) := by
  rw [setEntry, narrow, if_neg Bool.false_ne_true]
  exact if_pos odd

theorem setEntry_even (even : ¬ c % 2 = 1) : setEntry lay fat c v =
    update (update fat (c + c >>> 1) (BitVec.ofNat 8 (v &&& 0xff))) (c + c >>> 1 + 1)
      (BitVec.ofNat 8 (((fat (c + c >>> 1 + 1)).toNat &&& 0xf0) ||| ((v >>> 8) &&& 0x0f))) := by
  rw [setEntry, narrow, if_neg Bool.false_ne_true]
  exact if_neg even

theorem entry12_self (small : v < 0xFF0 ∨ v = 0xFFF8) :
    getEntry lay (setEntry lay fat c v) c = v := by
  have apart : c + c >>> 1 ≠ c + c >>> 1 + 1 := by omega
  refine Eq.trans ?_ (widen_eq small)
  by_cases odd : c % 2 = 1
  · rw [getEntry_odd narrow odd, setEntry_odd narrow odd, update_of_ne apart,
      update_self, update_self, toNat_byte, toNat_byte, high_of_or,
      Nat.shiftRight_and_distrib, Nat.shiftLeft_shiftRight]
    have low : v &&& 0xf0 >>> 4 = v % 16 := and_low_nibble v
    have high : v >>> 4 &&& 0xff &&& 0xff = v / 16 % 256 := by
      rw [Nat.and_assoc, Nat.shiftRight_eq_div_pow]
      exact Nat.and_two_pow_sub_one_eq_mod (v / 2 ^ 4) 8
    rw [low, high, Nat.shiftLeft_eq]
    congr 1
    omega
  · rw [getEntry_even narrow odd, setEntry_even narrow odd, update_of_ne apart,
      update_self, update_self, toNat_byte, toNat_byte, Nat.or_comm, low_of_or]
    have low : v &&& 0xff &&& 0xff = v % 256 := by
      rw [Nat.and_assoc]
      exact Nat.and_two_pow_sub_one_eq_mod v 8
    rw [low, and_low_nibble, Nat.shiftRight_eq_div_pow, Nat.shiftLeft_eq]
    congr 1
    omega

/-- Where the neighbours meet in a byte, each keeps its nibble. -/
theorem entry12_ne (ne : d ≠ c) : getEntry lay (setEntry lay fat c v) d = getEntry lay fat d := by
  have half_c : c >>> 1 = c / 2 := Nat.shiftRight_eq_div_pow c 1
  have half_d : d >>> 1 = d / 2 := Nat.shiftRight_eq_div_pow d 1
  by_cases odd : c % 2 = 1
  · rw [setEntry_odd narrow odd]
    by_cases odd_d : d % 2 = 1
    · rw [getEntry_odd narrow odd_d, getEntry_odd narrow odd_d]
      rw [update_of_ne (by omega), update_of_ne (by omega),
        update_of_ne (by omega), update_of_ne (by omega)]
    · rw [getEntry_even narrow odd_d, getEntry_even narrow odd_d]
      rw [update_of_ne (by omega), update_of_ne (by omega)]
      by_cases before : d + 1 = c
      · subst before
        rw [update_of_ne (by omega), show d + d >>> 1 + 1 = d + 1 + (d + 1) >>> 1 by omega,
          update_self, toNat_byte, low_of_or]
      · rw [update_of_ne (by omega), update_of_ne (by omega)]
  · rw [setEntry_even narrow odd]
    by_cases odd_d : d % 2 = 1
    · rw [getEntry_odd narrow odd_d, getEntry_odd narrow odd_d]
      by_cases behind : d = c + 1
      · subst behind
        rw [show c + 1 + (c + 1) >>> 1 = c + c >>> 1 + 1 by omega, update_self,
          update_of_ne (by omega), update_of_ne (by omega), toNat_byte,
          Nat.or_comm, high_of_or]
      · rw [update_of_ne (by omega), update_of_ne (by omega),
          update_of_ne (by omega), update_of_ne (by omega)]
    · rw [getEntry_even narrow odd_d, getEntry_even narrow odd_d]
      rw [update_of_ne (by omega), update_of_ne (by omega),
        update_of_ne (by omega), update_of_ne (by omega)]

end Narrow

/-! ### Entries of both widths -/

theorem getEntry_self (numbered : lay.Numbered) (storable : Storable lay v) :
    getEntry lay (setEntry lay fat c v) c = v := by
  by_cases wide : lay.fat16 = true
  · have small : v < 65536 := by
      rcases storable with valid | rfl | rfl
      · have := lt_badcluster numbered valid
        omega
      · decide
      · decide
    have apart : c <<< 1 ≠ c <<< 1 + 1 := by omega
    rw [getEntry, if_pos wide, setEntry, if_pos wide]
    dsimp only
    rw [update_of_ne apart, update_self, update_self, BitVec.toNat_ofNat,
      BitVec.toNat_ofNat, Nat.shiftRight_eq_div_pow, Nat.shiftLeft_eq]
    omega
  · have narrow : lay.fat16 = false := by simpa using wide
    refine entry12_self narrow ?_
    rcases storable with valid | rfl | rfl
    · have below := lt_of_validcl numbered valid
      rw [if_neg wide] at below
      exact Or.inl below
    · exact Or.inl (by decide)
    · exact Or.inr rfl

theorem getEntry_ne (ne : d ≠ c) : getEntry lay (setEntry lay fat c v) d = getEntry lay fat d := by
  by_cases wide : lay.fat16 = true
  · have twice_c : c <<< 1 = c * 2 := Nat.shiftLeft_eq c 1
    have twice_d : d <<< 1 = d * 2 := Nat.shiftLeft_eq d 1
    rw [getEntry, if_pos wide, getEntry, if_pos wide, setEntry, if_pos wide]
    dsimp only
    rw [update_of_ne (by omega), update_of_ne (by omega),
      update_of_ne (by omega), update_of_ne (by omega)]
  · exact entry12_ne (by simpa using wide) ne

/-! ### The table of a file system -/

def entry (lay : Layout) (fs : Fs) (c : ℕ) : ℕ :=
  (fs.fatp.map (getEntry lay · c)).getD pcfFreecluster

theorem pcGetcluster_eq (present : fs.fatp.isSome) (valid : validcl lay c = true) :
    pcGetcluster lay fs c = some (entry lay fs c) := by
  obtain ⟨fat, fatp_eq⟩ := isSome_iff_exists.1 present
  rw [pcGetcluster, entry, fatp_eq]
  exact if_pos valid

/-- Only the entry of one cluster has changed. -/
structure Written (lay : Layout) (fs fs' : Fs) (c v : ℕ) : Prop where
  present : fs'.fatp.isSome
  entry_eq : entry lay fs' = update (entry lay fs) c v
  nxfrecls_eq : fs'.nxfrecls = if v = pcfFreecluster then pcfFirstcluster else fs.nxfrecls
  nodes_eq : fs'.nodes = fs.nodes

theorem pcSetcluster_written (numbered : lay.Numbered) (present : fs.fatp.isSome) 
    (valid : validcl lay c = true) (storable : Storable lay v) :
    ∃ fs', pcSetcluster lay fs c v = some fs' ∧ Written lay fs fs' c v := by
  obtain ⟨fat, fatp_eq⟩ := isSome_iff_exists.1 present
  refine ⟨⟨some (setEntry lay fat c v), if v = pcfFreecluster then pcfFirstcluster else
    fs.nxfrecls, fs.nodes⟩,
    ?_, rfl, ?_, rfl, rfl⟩
  · rw [pcSetcluster, fatp_eq]
    exact if_pos valid
  · funext d
    by_cases same : d = c
    · subst same
      rw [update_self]
      exact getEntry_self numbered storable
    · rw [update_of_ne same, entry, entry, fatp_eq]
      exact getEntry_ne same

/-! ### `pc_alloccluster` -/

/-- A cluster is available. -/
def Free (lay : Layout) (fs : Fs) (c : ℕ) : Prop :=
  validcl lay c = true ∧ entry lay fs c = pcfFreecluster

/-- No free cluster lies below `pcfs_nxfrecls`. -/
structure Hinted (lay : Layout) (fs : Fs) : Prop where
  lower : pcfFirstcluster ≤ fs.nxfrecls
  upper : fs.nxfrecls ≤ lay.ncluster + pcfFirstcluster
  below : ∀ c, Free lay fs c → fs.nxfrecls ≤ c

/-- What `pc_alloccluster` can do. -/
inductive Allocated (lay : Layout) (fs : Fs) (zwrite : Bool) (werr : ℕ → Bool) : ℕ → Fs → Prop
  | full : (∀ c, ¬ Free lay fs c) → Allocated lay fs zwrite werr pcfFreecluster fs
  | failed {c : ℕ} {fs' : Fs} : Free lay fs c → zwrite = true → werr c = true →
      Written lay fs fs' c pcfLastcluster →
        Allocated lay fs zwrite werr pcfErrorcluster (pcGldiskchanged lay fs')
  | taken {c : ℕ} {fs' : Fs} : Free lay fs c → (∀ d, Free lay fs d → c ≤ d) →
      Written lay fs fs' c pcfLastcluster →
        Allocated lay fs zwrite werr c { fs' with nxfrecls := c + 1 }

theorem allocLoop_allocated {zwrite : Bool} {werr : ℕ → Bool} {fuel : ℕ} (numbered : lay.Numbered)
    (present : fs.fatp.isSome) (first : pcfFirstcluster ≤ c) (looked : ∀ d, Free lay fs d → c ≤ d)
    (enough : lay.ncluster + pcfFirstcluster < c + fuel)
    (last : c ≤ lay.ncluster + pcfFirstcluster) :
    ∃ cn fs', allocLoop lay fs zwrite werr fuel c = some (cn, fs') ∧
      Allocated lay fs zwrite werr cn fs' := by
  induction fuel generalizing c with
  | zero => omega
  | succ fuel ih =>
    rw [allocLoop]
    by_cases inside : ¬ c < lay.ncluster + pcfFirstcluster
    · rw [if_neg inside]
      exact ⟨_, _, rfl, .full fun d free =>
        inside ((looked d free).trans_lt (validcl_iff.1 free.1).2)⟩
    rw [not_not] at inside
    have valid : validcl lay c = true := validcl_iff.2 ⟨first, inside⟩
    have below := lt_badcluster numbered valid
    rw [if_pos inside, pcGetcluster_eq present valid]
    by_cases free : entry lay fs c = pcfFreecluster
    · obtain ⟨fs', set_eq, written⟩ := pcSetcluster_written numbered present valid
        (Or.inr (Or.inr rfl))
      simp only [bind_eq_bind, bind_some, if_pos free, set_eq]
      by_cases failed : (zwrite && werr c) = true
      · rw [if_pos failed]
        obtain ⟨zwrite_eq, werr_eq⟩ := Bool.and_eq_true_iff.1 failed
        exact ⟨_, _, rfl, .failed ⟨valid, free⟩ zwrite_eq werr_eq written⟩
      · rw [if_neg failed]
        exact ⟨_, _, rfl, .taken ⟨valid, free⟩ looked written⟩
    · simp only [bind_eq_bind, bind_some, if_neg free]
      rw [Nat.mod_eq_of_lt (by omega)]
      refine ih (by omega) (fun d free_d => ?_) (by omega) inside
      rcases Nat.eq_or_lt_of_le (looked d free_d) with rfl | lt
      · exact absurd free_d.2 free
      · exact lt

theorem pcAlloccluster_allocated (numbered : lay.Numbered) (present : fs.fatp.isSome)
    (hinted : Hinted lay fs) (zwrite : Bool) (werr : ℕ → Bool) :
    ∃ cn fs', pcAlloccluster lay fs zwrite werr = some (cn, fs') ∧
      Allocated lay fs zwrite werr cn fs' := by
  have few := numbered.ncluster_lt
  have upper := hinted.upper
  obtain ⟨cn, fs', loop_eq, allocated⟩ := @allocLoop_allocated lay fs fs.nxfrecls zwrite werr
    (2 ^ 16 + 1) numbered present hinted.lower hinted.below (by omega) upper
  obtain ⟨fat, fatp_eq⟩ := isSome_iff_exists.1 present
  refine ⟨cn, fs', ?_, allocated⟩
  rw [pcAlloccluster, fatp_eq, Nat.mod_eq_of_lt (by omega)]
  exact loop_eq

end Sol25.Pcfs
