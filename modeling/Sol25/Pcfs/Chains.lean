import Sol25.Data.Singly
import Sol25.Pcfs.Table

/-!
# Chains of clusters

The clusters of a file system belong to its files: each file owns the chain that starts at its
`pc_scluster`, no cluster is on two chains, and every cluster in use is on one.
-/

namespace Sol25.Pcfs

open Function

variable {lay : Layout} {fs fs₁ fs' : Fs} {ch : ℕ → List ℕ} {f c p v : ℕ} {l : List ℕ}
  {node : Pcnode}

/-- The cluster that a value points to. -/
def link (lay : Layout) (v : ℕ) : Option ℕ := if validcl lay v then some v else none

/-- The cluster after a cluster. -/
def next (lay : Layout) (fs : Fs) (c : ℕ) : Option ℕ := link lay (entry lay fs c)

theorem link_eq_some : link lay v = some c ↔ v = c ∧ validcl lay c = true := by
  rw [link]
  split_ifs with valid
  · rw [Option.some.injEq]
    constructor
    · rintro rfl
      exact ⟨rfl, valid⟩
    · exact And.left
  · constructor
    · exact nofun
    · rintro ⟨rfl, valid_c⟩
      exact absurd valid_c valid

theorem link_eq_none : link lay v = none ↔ validcl lay v = false := by
  rw [link]
  split_ifs with valid
  · simp [valid]
  · simpa using valid

theorem link_valid (valid : validcl lay v = true) : link lay v = some v :=
  link_eq_some.2 ⟨rfl, valid⟩

theorem link_last (numbered : lay.Numbered) : link lay pcfLastcluster = none := by
  rw [link_eq_none, ← Bool.not_eq_true]
  intro valid
  exact absurd (lt_badcluster numbered valid) (by decide)

/-- A cluster belongs to a file: it is neither free nor bad. -/
def InUse (lay : Layout) (fs : Fs) (c : ℕ) : Prop :=
  validcl lay c = true ∧ entry lay fs c ≠ pcfFreecluster ∧ entry lay fs c ≠ pcfBadcluster

/-- The entry of a cluster on a chain. -/
def Continues (lay : Layout) (fs : Fs) (c : ℕ) : Prop :=
  validcl lay (entry lay fs c) = true ∨ pcfLastcluster ≤ entry lay fs c

/-- The chains of the files take up the clusters in use. -/
structure Chains (lay : Layout) (fs : Fs) (ch : ℕ → List ℕ) : Prop where
  numbered : lay.Numbered
  present : fs.fatp.isSome
  hinted : Hinted lay fs
  linked : ∀ f node, fs.nodes f = some node →
    Links (next lay fs) (link lay node.scluster) (ch f) none
  missing : ∀ f, fs.nodes f = none → ch f = []
  continued : ∀ f, ∀ c ∈ ch f, Continues lay fs c
  nodup : ∀ f, (ch f).Nodup
  disjoint : ∀ f g, f ≠ g → (ch f).Disjoint (ch g)
  covered : ∀ c, InUse lay fs c → ∃ f, c ∈ ch f

theorem Continues.inUse (numbered : lay.Numbered) (continues : Continues lay fs c)
    (valid : validcl lay c = true) : InUse lay fs c := by
  refine ⟨valid, ?_, ?_⟩ <;> rcases continues with inside | last
  · have := (validcl_iff.1 inside).1
    unfold pcfFreecluster
    omega
  · unfold pcfLastcluster at last
    unfold pcfFreecluster
    omega
  · exact Nat.ne_of_lt (lt_badcluster numbered inside)
  · unfold pcfLastcluster at last
    unfold pcfBadcluster
    omega

theorem Continues.not_free (continues : Continues lay fs c) : ¬ Free lay fs c :=
  fun free => by
    rcases continues with inside | last
    · exact absurd (validcl_iff.1 inside).1 (by rw [free.2]; decide)
    · exact absurd last (by rw [free.2]; decide)

theorem Continues.last (continues : Continues lay fs c) (ends : next lay fs c = none) :
    pcfLastcluster ≤ entry lay fs c := by
  rcases continues with inside | last
  · rw [next, link_valid inside] at ends
    exact nomatch ends
  · exact last

theorem valid_of_links {nxt : ℕ → ℕ}
    (links : Links (fun c => link lay (nxt c)) (link lay v) l none) :
    ∀ c ∈ l, validcl lay c = true := by
  induction l generalizing v with
  | nil => exact fun _ => nofun
  | cons a l ih =>
    exact List.forall_mem_cons.2 ⟨(link_eq_some.1 links.1).2, ih links.2⟩

namespace Chains

variable (chains : Chains lay fs ch)
include chains

theorem valid (mem : c ∈ ch f) : validcl lay c = true := by
  cases at_f : fs.nodes f with
  | none =>
    rw [chains.missing f at_f] at mem
    exact nomatch mem
  | some node => exact valid_of_links (chains.linked f node at_f) c mem

theorem notMem (free : Free lay fs c) (f : ℕ) : c ∉ ch f :=
  fun mem => (chains.continued f c mem).not_free free

/-- One file gets another chain, and the chains of the others are left alone. -/
theorem replace (present : fs'.fatp.isSome) (hinted : Hinted lay fs')
    (nodes : ∀ g, g ≠ f → fs'.nodes g = fs.nodes g)
    (same : ∀ g, g ≠ f → ∀ c ∈ ch g, entry lay fs' c = entry lay fs c)
    (linked : ∀ node, fs'.nodes f = some node →
      Links (next lay fs') (link lay node.scluster) l none)
    (missing : fs'.nodes f = none → l = []) (continued : ∀ c ∈ l, Continues lay fs' c)
    (nodup : l.Nodup) (apart : ∀ g, g ≠ f → l.Disjoint (ch g))
    (covered : ∀ c, InUse lay fs' c → c ∈ l ∨ ∃ g, g ≠ f ∧ c ∈ ch g) :
    Chains lay fs' (update ch f l) := by
  have at_f : update ch f l f = l := update_self ..
  have at_g : ∀ g, g ≠ f → update ch f l g = ch g := fun g ne => update_of_ne ne ..
  refine ⟨chains.numbered, present, hinted, fun g node at_node => ?_, fun g none => ?_,
    fun g c mem => ?_, fun g => ?_, fun g h ne => ?_, fun c used => ?_⟩
  · by_cases eq : g = f
    · subst eq
      rw [at_f]
      exact linked node at_node
    · rw [at_g g eq]
      rw [nodes g eq] at at_node
      refine (chains.linked g node at_node).congr fun a mem => ?_
      rw [next, next, same g eq a mem]
  · by_cases eq : g = f
    · subst eq
      rw [at_f]
      exact missing none
    · rw [at_g g eq]
      exact chains.missing g (nodes g eq ▸ none)
  · by_cases eq : g = f
    · subst eq
      rw [at_f] at mem
      exact continued c mem
    · rw [at_g g eq] at mem
      rw [Continues, same g eq c mem]
      exact chains.continued g c mem
  · by_cases eq : g = f
    · subst eq
      rwa [at_f]
    · rw [at_g g eq]
      exact chains.nodup g
  · by_cases eq : g = f
    · subst eq
      rw [at_f, at_g h ne.symm]
      exact apart h ne.symm
    · rw [at_g g eq]
      by_cases eq_h : h = f
      · subst eq_h
        rw [at_f]
        exact List.disjoint_comm.1 (apart g eq)
      · rw [at_g h eq_h]
        exact chains.disjoint g h ne
  · rcases covered c used with mem | ⟨g, ne, mem⟩
    · exact ⟨f, by rwa [at_f]⟩
    · exact ⟨g, by rwa [at_g g ne]⟩

end Chains

end Sol25.Pcfs
