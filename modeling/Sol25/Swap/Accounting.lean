import Sol25.Swap.Model

/-!
# The counters of swap space

Memory stands in for swap space that is reserved and has no place on a device: `mem_resv` pages,
taken from `availrmem`.  Each step but two moves the counters together.  A `swapdel` that has to
take memory in place of the device takes the pages from the pool of free slots all the same, and one
that is abandoned lowers `mem_resv` without giving the memory back.
-/

namespace Sol25.Swap

open List Option

/-! ### The books -/

/-- The counters agree, and the memory in the system is as much as ever. -/
structure Balanced (total : ℤ) (s : State) : Prop where
  memResv : s.memResv = max 0 (s.ani.resv - s.ani.max)
  memory : s.availrmem + s.memResv = total
  pool : ∑ i, s.pool i = s.ani.max + s.memResv - s.anons.length

/-- What the books are about. -/
def books (s : State) : Anoninfo × ℤ × ℤ × (Fin 8 → ℤ) × ℕ :=
  (s.ani, s.memResv, s.availrmem, s.pool, s.anons.length)

variable {s s' : State} {total : ℤ}

theorem Balanced.of_books (balanced : Balanced total s) (same : books s' = books s) :
    Balanced total s' := by
  simp only [books, Prod.mk.injEq] at same
  obtain ⟨ani, memResv, availrmem, pool, anons⟩ := same
  refine ⟨?_, ?_, ?_⟩
  · rw [memResv, ani]
    exact balanced.memResv
  · rw [availrmem, memResv]
    exact balanced.memory
  · rw [pool, ani, memResv, anons]
    exact balanced.pool

section

variable (s) (cpu : Fin 8) (inc : ℤ)

@[simp] theorem sum_aniAdd : ∑ i, (s.aniAdd cpu inc).pool i = ∑ i, s.pool i + inc := by
  simp only [State.aniAdd]
  rw [Finset.sum_update_of_mem (Finset.mem_univ cpu),
    ← Finset.sum_sdiff (Finset.subset_univ {cpu}), Finset.sum_singleton]
  omega

@[simp] theorem aniAdd_ani : (s.aniAdd cpu inc).ani = s.ani := rfl

@[simp] theorem aniAdd_memResv : (s.aniAdd cpu inc).memResv = s.memResv := rfl

@[simp] theorem aniAdd_availrmem : (s.aniAdd cpu inc).availrmem = s.availrmem := rfl

@[simp] theorem aniAdd_anons : (s.aniAdd cpu inc).anons = s.anons := rfl

end

/-! ### Steps that leave the books alone -/

theorem books_swapPhysAlloc {other : Option (ℕ × ℕ)} {lenp : ℕ} {run : Option (ℕ × ℕ × ℕ)}
    (alloc : swapPhysAlloc s other lenp = some (run, s')) : books s' = books s := by
  simp only [swapPhysAlloc] at alloc
  split at alloc
  · obtain ⟨-, rfl⟩ := Prod.mk.inj (some.inj alloc)
    rfl
  · obtain ⟨⟨first, len, d⟩, -, alloc⟩ := map_eq_some_iff.1 alloc
    split_ifs at alloc <;> (obtain ⟨-, rfl⟩ := Prod.mk.inj alloc; rfl)

theorem books_swapPhysFree {vp off len : ℕ} (free : swapPhysFree s vp off len = some s') :
    books s' = books s := by
  simp only [swapPhysFree] at free
  split at free
  · cases free
  · obtain ⟨d, -, rfl⟩ := map_eq_some_iff.1 free
    rfl

theorem books_freePhys {phys : Option (ℕ × ℕ)} (free : freePhys s phys = some s') :
    books s' = books s := by
  cases phys with
  | none =>
    cases free
    rfl
  | some page => exact books_swapPhysFree free

theorem books_rename {i : ℕ} {phys : Option (ℕ × ℕ)} (renames : rename s i phys = some s') :
    books s' = books s := by
  simp only [rename] at renames
  split at renames
  · cases renames
    rfl
  · obtain ⟨s₁, free, rfl⟩ := map_eq_some_iff.1 renames
    rw [← books_freePhys free]
    simp only [books, length_set]

theorem books_nameLoop {vp offset start pvp pstart : ℕ} {rest off poff : ℕ} {kluster : Kluster}
    (names : nameLoop vp offset start pvp pstart rest s off poff = some (kluster, s')) :
    books s' = books s := by
  induction rest generalizing s off poff with
  | zero =>
    cases names
    rfl
  | succ rest ih =>
    simp only [nameLoop] at names
    split at names
    · obtain ⟨s₁, renames, names⟩ := bind_eq_some_iff.1 names
      rw [ih names, books_rename renames]
    · split_ifs at names
      · obtain ⟨s₁, free, names⟩ := map_eq_some_iff.1 names
        obtain ⟨-, rfl⟩ := Prod.mk.inj names
        exact books_swapPhysFree free
      · obtain ⟨s₁, free, names⟩ := map_eq_some_iff.1 names
        obtain ⟨-, rfl⟩ := Prod.mk.inj names
        exact books_swapPhysFree free
      · split at names
        · obtain ⟨s₁, free, names⟩ := map_eq_some_iff.1 names
          obtain ⟨-, rfl⟩ := Prod.mk.inj names
          exact books_swapPhysFree free
        · obtain ⟨s₁, renames, names⟩ := bind_eq_some_iff.1 names
          obtain ⟨s₂, free, names⟩ := map_eq_some_iff.1 names
          obtain ⟨-, rfl⟩ := Prod.mk.inj names
          rw [books_swapPhysFree free, books_rename renames]

theorem books_swapNewphysname {vp offset offp lenp : ℕ} {kluster : Kluster}
    (names : swapNewphysname s vp offset offp lenp = some (kluster, s')) : books s' = books s := by
  obtain ⟨⟨run, s₁⟩, alloc, names⟩ := bind_eq_some_iff.1 names
  have same := books_swapPhysAlloc alloc
  cases run with
  | none =>
    simp only at names
    split at names
    · cases names
      exact same
    · cases names
      exact same
  | some run =>
    obtain ⟨pvp, pstart, plen⟩ := run
    exact (books_nameLoop names).trans same

theorem books_slotFree {t : Del} {vp off : ℕ} {result : Getpage} {failed : Bool}
    (free : t.slotFree s vp off result = some (failed, s')) : books s' = books s := by
  cases result with
  | failure =>
    cases free
    rfl
  | gone =>
    cases free
    rfl
  | success =>
    simp only [Del.slotFree] at free
    split at free
    · cases free
      rfl
    · split_ifs at free
      · obtain ⟨s₁, renames, free⟩ := map_eq_some_iff.1 free
        obtain ⟨-, rfl⟩ := Prod.mk.inj free
        exact books_rename renames
      · cases free
        rfl

/-! ### Steps that keep the books -/

section

variable (balanced : Balanced total s)

include balanced

theorem Balanced.anonResvmem (size : ℕ) (takemem : Bool) (cpu : Fin 8) :
    Balanced total (anonResvmem s size takemem cpu).2 := by
  obtain ⟨memResv, memory, pool⟩ := balanced
  simp only [Swap.anonResvmem]
  split_ifs with room taken small positive <;> refine ⟨?_, ?_, ?_⟩ <;>
    simp only [sum_aniAdd, aniAdd_ani, aniAdd_memResv, aniAdd_availrmem, aniAdd_anons] <;> omega

theorem Balanced.anonUnresv (size : ℕ) (cpu : Fin 8) :
    Balanced total (anonUnresv s size cpu) := by
  obtain ⟨memResv, memory, pool⟩ := balanced
  simp only [Swap.anonUnresv]
  split_ifs with backed <;> refine ⟨?_, ?_, ?_⟩ <;>
    simp only [sum_aniAdd, aniAdd_ani, aniAdd_memResv, aniAdd_availrmem, aniAdd_anons] <;> omega

theorem Balanced.anonAlloc (vp off : ℕ) (cpu : Fin 8) :
    Balanced total (anonAlloc s vp off cpu) := by
  obtain ⟨memResv, memory, pool⟩ := balanced
  refine ⟨memResv, memory, ?_⟩
  simp only [Swap.anonAlloc, sum_aniAdd, aniAdd_ani, aniAdd_memResv, aniAdd_anons, length_cons]
  omega

theorem Balanced.anonDecref {i : ℕ} {cpu : Fin 8} (drops : anonDecref s i cpu = some s') :
    Balanced total s' := by
  simp only [Swap.anonDecref] at drops
  split at drops
  · cases drops
    exact balanced
  · next ap is_slot =>
      have present : i < s.anons.length := (List.getElem?_eq_some_iff.1 is_slot).1
      split_ifs at drops with zero last
      · obtain ⟨s₁, free, rfl⟩ := map_eq_some_iff.1 drops
        have same := books_freePhys free
        obtain ⟨memResv, memory, pool⟩ := balanced.of_books same
        have length : s₁.anons.length = s.anons.length := by
          simp only [books, Prod.mk.injEq] at same
          exact same.2.2.2.2
        refine ⟨memResv, memory, ?_⟩
        simp only [sum_aniAdd, aniAdd_ani, aniAdd_memResv, aniAdd_anons, length_eraseIdx]
        rw [if_pos (length ▸ present)]
        omega
      · cases drops
        exact balanced.of_books (by simp only [books, length_set])

theorem Balanced.addPages (pages : ℕ) (cpu : Fin 8) :
    Balanced total (s.addPages pages cpu) := by
  obtain ⟨memResv, memory, pool⟩ := balanced
  simp only [State.addPages]
  split_ifs <;> refine ⟨?_, ?_, ?_⟩ <;>
    simp only [sum_aniAdd, aniAdd_ani, aniAdd_memResv, aniAdd_availrmem, aniAdd_anons] <;> omega

theorem Balanced.swapadd (vp soff eoff : ℕ) (cpu : Fin 8) :
    Balanced total (swapadd s vp soff eoff cpu).2 := by
  simp only [Swap.swapadd]
  split_ifs
  · exact balanced
  · split
    · exact balanced.of_books rfl
    · exact balanced
    · refine Balanced.addPages ?_ _ _
      exact ⟨balanced.memResv, balanced.memory, balanced.pool⟩

end

/-! ### `swapdel` -/

/-- The device that `swapdel` is to delete. -/
def State.target (s : State) (vp soff : ℕ) : Option Swapinfo :=
  s.swapinfo.find? fun d => d.vp = vp ∧ d.soff = soff ∧ !d.indel ∧ !d.doingdel

/-- No memory has to stand in for the pages of the device, when there would be enough of it. -/
def Spare (s : State) (vp soff : ℕ) : Prop :=
  ∀ d, s.target vp soff = some d →
    (d.npgs : ℤ) ≤ max (s.ani.max - s.ani.resv) 0 + max (s.availrmem - s.minfree) 0 →
    (d.npgs : ℤ) ≤ s.ani.max - s.ani.resv

/-- No memory stands in for swap space when the deletion is about to be abandoned. -/
def Unbacked (s : State) (k : ℕ) : Prop :=
  ∀ t bucket failed, s.dels[k]? = some t → t.pc = .checking bucket failed →
    (failed = true ∨ ∀ d ∈ s.swapinfo, d.id = t.dev → d.doingdel = false) → s.ani.resv ≤ s.ani.max

theorem Balanced.swapdel (balanced : Balanced total s) {vp soff : ℕ} (spare : Spare s vp soff)
    (cpu : Fin 8) : Balanced total (swapdel s vp soff cpu).2 := by
  obtain ⟨memResv, memory, pool⟩ := balanced
  simp only [Swap.swapdel]
  split
  · exact ⟨memResv, memory, pool⟩
  · next d is_target =>
      have enough := spare d is_target
      split_ifs with short missing
      · exact ⟨memResv, memory, pool⟩
      · omega
      · refine ⟨?_, ?_, ?_⟩ <;>
          simp only [sum_aniAdd, aniAdd_ani, aniAdd_memResv, aniAdd_availrmem, aniAdd_anons] <;>
            omega

theorem Balanced.abort (balanced : Balanced total s) (t : Del) (unbacked : s.ani.resv ≤ s.ani.max)
    (cpu : Fin 8) : Balanced total (t.abort s cpu) := by
  obtain ⟨memResv, memory, pool⟩ := balanced
  refine ⟨?_, ?_, ?_⟩ <;>
    simp only [Del.abort, sum_aniAdd, aniAdd_ani, aniAdd_memResv, aniAdd_availrmem,
      aniAdd_anons] <;> omega

theorem Balanced.delStep {k : ℕ} {result : Getpage} {cpu : Fin 8} (balanced : Balanced total s)
    (unbacked : Unbacked s k) (steps : delStep s k result cpu = some s') : Balanced total s' := by
  simp only [Swap.delStep] at steps
  split at steps
  · cases steps
    exact balanced
  · next t is_thread =>
      obtain ⟨⟨pc, s₁⟩, step, rfl⟩ := map_eq_some_iff.1 steps
      -- The list of threads is not in the books.
      suffices reached : Balanced total s₁ by
        cases pc with
        | none => exact reached.of_books rfl
        | some pc => exact reached.of_books rfl
      simp only [Del.step] at step
      split at step
      · split_ifs at step
        · split at step
          · obtain ⟨-, rfl⟩ := Prod.mk.inj (some.inj step)
            exact balanced
          · obtain ⟨-, rfl⟩ := Prod.mk.inj (some.inj step)
            exact balanced
        · obtain ⟨-, rfl⟩ := Prod.mk.inj (some.inj step)
          exact balanced.of_books rfl
      · obtain ⟨⟨failed, s₂⟩, free, step⟩ := map_eq_some_iff.1 step
        obtain ⟨-, rfl⟩ := Prod.mk.inj step
        exact balanced.of_books (books_slotFree free)
      · next bucket failed is_checking =>
          split_ifs at step with goes_on
          · obtain ⟨-, rfl⟩ := Prod.mk.inj (some.inj step)
            exact balanced
          · obtain ⟨-, rfl⟩ := Prod.mk.inj (some.inj step)
            refine balanced.abort t (unbacked t bucket failed is_thread is_checking ?_) cpu
            simpa [or_iff_not_imp_left] using goes_on

/-! ### Runs -/

/-- The two steps that may upset the books are taken when they do not. -/
def Op.Backed (s : State) : Op → Prop
  | .swapdel vp soff _ => Spare s vp soff
  | .delStep k _ _ => Unbacked s k
  | _ => True

theorem Balanced.step {op : Op} (balanced : Balanced total s) (backed : op.Backed s)
    (steps : step s op = some s') : Balanced total s' := by
  cases op with
  | anonResvmem size takemem cpu =>
    cases steps
    exact balanced.anonResvmem size takemem cpu
  | anonUnresv size cpu =>
    cases steps
    exact balanced.anonUnresv size cpu
  | setAnoninfo =>
    cases steps
    exact ⟨balanced.memResv, balanced.memory, balanced.pool⟩
  | anonAlloc vp off cpu =>
    cases steps
    exact balanced.anonAlloc vp off cpu
  | anonDup i =>
    cases steps
    exact balanced.of_books (by simp only [books, anonDup, length_modify])
  | anonDecref i cpu => exact balanced.anonDecref steps
  | swapPhysAlloc other lenp =>
    obtain ⟨⟨run, s₁⟩, alloc, rfl⟩ := map_eq_some_iff.1 steps
    exact balanced.of_books (books_swapPhysAlloc alloc)
  | swapPhysFree vp off len => exact balanced.of_books (books_swapPhysFree steps)
  | swapNewphysname vp offset offp lenp =>
    obtain ⟨⟨kluster, s₁⟩, names, rfl⟩ := map_eq_some_iff.1 steps
    exact balanced.of_books (books_swapNewphysname names)
  | swapadd vp soff eoff cpu =>
    cases steps
    exact balanced.swapadd vp soff eoff cpu
  | swapdel vp soff cpu =>
    cases steps
    exact balanced.swapdel backed cpu
  | delStep k result cpu => exact balanced.delStep backed steps

/-- Every step of a sequence is backed when it is taken. -/
def BackedRun : State → List Op → Prop
  | _, [] => True
  | s, op :: ops => op.Backed s ∧ ∀ s', step s op = some s' → BackedRun s' ops

/-- The books stay balanced along every sequence of steps in which no deletion starts that needs
memory and none is abandoned while memory stands in for swap space. -/
theorem swap_space_balanced {total : ℤ} {s s' : State} {ops : List Op} (balanced : Balanced total s)
    (backed : BackedRun s ops) (runs : run s ops = some s') : Balanced total s' := by
  induction ops generalizing s with
  | nil =>
    cases runs
    exact balanced
  | cons op ops ih =>
    obtain ⟨s₁, steps, runs⟩ := bind_eq_some_iff.1 runs
    exact ih (balanced.step backed.1 steps) (backed.2 s₁ steps) runs

/-- A device of four pages whose first slot is taken. -/
def fourPages : Swapinfo :=
  { newSwapinfo 0 1 0 4 with nfpgs := 3, slots := (newSwapinfo 0 1 0 4).slots.set 0 true }

/-- Two devices of four pages each; the first slot of the first one belongs to an anonymous page,
and `resv` pages are reserved. -/
def twoDevices (resv : ℤ) : State where
  ani := ⟨8, 7, resv⟩
  memResv := 0
  availrmem := 100
  availsmem := 100
  minfree := 10
  desfree := 10
  pool := fun i => if i = 0 then 7 else 0
  swapinfo := [fourPages, newSwapinfo 1 2 0 4]
  silast := some 0
  fresh := 2
  anons := [⟨9, 0, some (1, 0), 1⟩]
  hashBits := 0
  maxcontig := 0
  dels := []

theorem twoDevices_balanced (resv : ℤ) (small : resv ≤ 8) : Balanced 100 (twoDevices resv) := by
  refine ⟨?_, rfl, ?_⟩
  · simp only [twoDevices]
    omega
  · simp only [twoDevices, Finset.sum_ite_eq', Finset.mem_univ, if_true, length_singleton]
    rfl

/-- A deletion that needs no memory, in a system with little reserved. -/
theorem swap_space_balanced_spare :
    ∃ s', run (twoDevices 1) [.swapdel 1 0 0] = some s' ∧ Balanced 100 s' := by
  have backed : BackedRun (twoDevices 1) [.swapdel 1 0 0] := by
    refine ⟨?_, fun _ _ => trivial⟩
    intro d is_target _
    have is_first : d = fourPages := by
      have found : (twoDevices 1).target 1 0 = some fourPages := by decide
      exact some.inj (is_target.symm.trans found)
    rw [is_first]
    decide
  exact ⟨_, rfl, swap_space_balanced (twoDevices_balanced 1 (by decide)) backed rfl⟩

/-- A deletion that takes two pages of memory leaves two pages too few in the pool; when it is then
abandoned, the two pages of memory are lost. -/
theorem swap_space_not_balanced :
    Balanced 100 (twoDevices 6) ∧
      (∃ s', run (twoDevices 6) [.swapdel 1 0 0] = some s' ∧
        ∑ i, s'.pool i ≠ s'.ani.max + s'.memResv - s'.anons.length) ∧
      ∃ s', run (twoDevices 6) [.swapdel 1 0 0, .delStep 0 .failure 0, .delStep 0 .failure 0,
          .delStep 0 .failure 0] = some s' ∧ s'.dels = [] ∧ s'.availrmem + s'.memResv ≠ 100 := by
  refine ⟨twoDevices_balanced 6 (by decide), ⟨_, rfl, ?_⟩, ⟨_, rfl, ?_, ?_⟩⟩
  · decide
  · decide
  · decide

end Sol25.Swap
