import Sol25.Rmap.Space

/-!
# Runs of resource-map calls

Each operation keeps the representation invariant, or panics, and stays inside the array, provided
that no address range wraps around and that `rmfree` does not have to discard one of the last two
segments of a map that holds only one.
-/

namespace Sol25.Rmap

/-- An outcome is safe when it is a well-formed map or a panic, never a stray access. -/
def Safe : Except Fault Map → Prop
  | .ok m => RepInv m
  | .error (.panic _) => True
  | .error _ => False

@[simp] theorem safe_panic (message : String) : Safe (.error (.panic message)) ↔ True := Iff.rfl

variable {m : Map}

theorem rmallocLocked_safe (inv : RepInv m) (size : Nat) :
    Safe ((rmallocLocked m size).map Prod.snd) := by
  rcases rmallocLocked_spec inv size with ⟨refused, -⟩ | ⟨seg, -, after, granted, -, after_inv, -⟩
  · rw [refused]
    exact inv
  · rw [granted]
    exact after_inv

theorem rmalloc_safe (inv : RepInv m) (size : Nat) : Safe ((rmalloc m size).map Prod.snd) := by
  unfold rmalloc
  split
  · trivial
  · exact rmallocLocked_safe inv size

theorem rmget_safe (inv : RepInv m) (size addr : Nat) (no_wrap : addr + size < 2 ^ 32) :
    Safe ((rmget m size addr).map Prod.snd) := by
  by_cases positive : intNonpos size = true
  · simp [rmget, positive, throw, throwThe, MonadExceptOf.throw, bind, Except.bind, Except.map]
  have ends := rmget_ends inv (Bool.eq_false_iff.mpr positive) no_wrap
  generalize rmget m size addr = outcome at ends
  cases ends with
  | outside => exact inv
  | short => exact inv
  | full => exact inv
  | taken _ _ _ _ after_inv => exact after_inv

/-! ## Freeing -/

/-- A safe pass of `rmfree`; one that has to be repeated has freed a slot. -/
def PassSafe : Except Fault Pass → Prop
  | .ok (.done m) => RepInv m
  | .ok (.retry m) => RepInv m ∧ m.free ≠ 0
  | .error (.panic _) => True
  | .error _ => False

@[simp] theorem passSafe_done (m : Map) : PassSafe (.ok (.done m)) ↔ RepInv m := Iff.rfl

@[simp] theorem passSafe_retry (m : Map) :
    PassSafe (.ok (.retry m)) ↔ RepInv m ∧ m.free ≠ 0 := Iff.rfl

theorem rmfreePass_safe (inv : RepInv m) (size addr : Nat) (size_pos : size ≠ 0)
    (no_wrap : addr + size < 2 ^ 32) (room : ¬ (m.cap = 1 ∧ m.free = 0 ∧ Detached m size addr)) :
    PassSafe (rmfreePass m size addr) ∧
      (m.free ≠ 0 → ∀ after, rmfreePass m size addr ≠ .ok (.retry after)) := by
  have ends := rmfreePass_ends inv size addr size_pos no_wrap
  generalize rmfreePass m size addr = outcome at ends
  cases ends with
  | overlap => exact ⟨trivial, fun _ after retried => by cases retried⟩
  | done freed => exact ⟨freed.inv, fun _ after retried => by cases retried⟩
  | retry full _ after_inv after_free =>
    exact ⟨⟨after_inv, after_free⟩, fun nonzero => absurd full nonzero⟩
  | single full detached one => exact absurd ⟨one, full, detached⟩ room

theorem rmfree_safe (inv : RepInv m) (size addr : Nat) (no_wrap : addr + size < 2 ^ 32)
    (room : ¬ (m.cap = 1 ∧ m.free = 0 ∧ Detached m size addr)) :
    Safe (rmfree m size addr) := by
  unfold rmfree
  by_cases bad : addr = 0 ∨ intNonpos size = true
  · simp [bad]
  rw [if_neg bad]
  have size_pos : size ≠ 0 := by
    rintro rfl
    simp [intNonpos] at bad
  have first := rmfreePass_safe inv size addr size_pos no_wrap room
  simp only [rmfreeLoop, bind, Except.bind, pure, Except.pure]
  rcases outcome : rmfreePass m size addr with fault | after | after
  · cases fault with
    | panic message => trivial
    | _ => exact absurd first.1 (by simp [outcome, PassSafe])
  · exact RepInv.woken (by simpa [outcome] using first.1)
  · have retried : RepInv after ∧ after.free ≠ 0 := by simpa [outcome] using first.1
    have second := rmfreePass_safe retried.1 size addr size_pos no_wrap
      fun stuck => retried.2 stuck.2.1
    simp only
    rcases again : rmfreePass after size addr with fault | final | final
    · cases fault with
      | panic message => trivial
      | _ => exact absurd second.1 (by simp [again, PassSafe])
    · exact RepInv.woken (by simpa [again] using second.1)
    · exact absurd again (second.2 retried.2 final)

/-! ## Runs -/

/-- A call on a map; the arguments are 32-bit words. -/
inductive Op
  | mapinit (size addr : BitVec 32)
  | rmalloc (size : BitVec 32)
  | rmallocLocked (size : BitVec 32)
  | rmfree (size addr : BitVec 32)
  | rmget (size addr : BitVec 32)
deriving DecidableEq

/-- The effect of a call on the map; `mapinit` is given the map's own array again. -/
def apply (m : Map) : Op → Except Fault Map
  | .mapinit size addr => mapinit m.slots size.toNat addr.toNat (m.cap + mapOverhead : Nat)
  | .rmalloc size => (rmalloc m size.toNat).map Prod.snd
  | .rmallocLocked size => (rmallocLocked m size.toNat).map Prod.snd
  | .rmfree size addr => rmfree m size.toNat addr.toNat
  | .rmget size addr => (rmget m size.toNat addr.toNat).map Prod.snd

/-- What a call is promised by its caller: `mapinit` gets cleared storage. -/
def Called (m : Map) : Op → Prop
  | .mapinit _ _ => Zeroed m.slots
  | _ => True

/-- The calls that keep a map well formed: no address range runs past the last address, and
`rmfree` on a full map of one segment returns space that touches that segment. -/
def Sound (m : Map) : Op → Prop
  | .mapinit size addr => addr.toNat + size.toNat < 2 ^ 32
  | .rmalloc _ | .rmallocLocked _ => True
  | .rmfree size addr =>
    addr.toNat + size.toNat < 2 ^ 32 ∧ ¬ (m.cap = 1 ∧ m.free = 0 ∧ Detached m size.toNat addr.toNat)
  | .rmget size addr => addr.toNat + size.toNat < 2 ^ 32

/-- The map header and array before the first `mapinit` with the given `mapsize`. -/
def blank (mapsize : Nat) : Map :=
  let cap := mapsize - mapOverhead
  ⟨0, 0, cap, List.replicate (cap + 1) ⟨0, 0⟩⟩

/-- The maps reached from `mapinit` on cleared storage by calls satisfying `allowed`. -/
inductive Reached (allowed : Map → Op → Prop) : Map → Prop
  | init (size addr : BitVec 32) (mapsize : BitVec 31) {m : Map} :
      allowed (blank mapsize.toNat) (.mapinit size addr) →
      mapinit (blank mapsize.toNat).slots size.toNat addr.toNat mapsize.toNat = .ok m →
      Reached allowed m
  | step (op : Op) {m after : Map} :
      Reached allowed m → Called m op → allowed m op → apply m op = .ok after →
      Reached allowed after

theorem mapinit_safe {storage : List Seg} (size addr : BitVec 32) (mapsize : Nat)
    (cap_lt : mapsize - mapOverhead < 2 ^ 31) (zeroed : Zeroed storage)
    (length_eq : storage.length = mapsize - mapOverhead + 1)
    (no_wrap : addr.toNat + size.toNat < 2 ^ 32) :
    Safe (mapinit storage size.toNat addr.toNat mapsize) := by
  rcases mapinit_spec cap_lt zeroed length_eq no_wrap with ⟨message, panics⟩ | ⟨m, made, inv, -⟩
  · rw [panics]
    trivial
  · rw [made]
    exact inv

theorem apply_safe (inv : RepInv m) (op : Op) (called : Called m op) (sound : Sound m op) :
    Safe (apply m op) := by
  cases op with
  | mapinit size addr =>
    have cap_lt := inv.cap_lt
    exact mapinit_safe size addr (m.cap + mapOverhead) (by omega) called
      (by rw [inv.length]; omega) sound
  | rmalloc size => exact rmalloc_safe inv size.toNat
  | rmallocLocked size => exact rmallocLocked_safe inv size.toNat
  | rmfree size addr => exact rmfree_safe inv size.toNat addr.toNat sound.1 sound.2
  | rmget size addr => exact rmget_safe inv size.toNat addr.toNat sound

theorem repInv_of_reached (reached : Reached Sound m) : RepInv m := by
  induction reached with
  | init size addr mapsize sound result =>
    have zeroed : Zeroed (blank mapsize.toNat).slots := by simp [Zeroed, blank]
    have mapsize_lt := mapsize.isLt
    have safe := mapinit_safe size addr mapsize.toNat (by omega) zeroed (by simp [blank]) sound
    rw [result] at safe
    exact safe
  | step op _ called sound result inv =>
    have safe := apply_safe inv op called sound
    rw [result] at safe
    exact safe

/-- In every run of sound calls the map stays well formed and no call leaves the array. -/
theorem reached_repInv_and_safe (m : Map) (reached : Reached Sound m) :
    RepInv m ∧ ∀ op, Called m op → Sound m op → Safe (apply m op) :=
  ⟨repInv_of_reached reached, fun op called sound =>
    apply_safe (repInv_of_reached reached) op called sound⟩

/-- A map of capacity one, filled by one segment and relieved of part of it. -/
theorem reached_repInv_and_safe_one_segment :
    RepInv ⟨0, 0, 1, [⟨3, 12⟩, ⟨0, 0⟩]⟩ ∧
      Safe (apply ⟨0, 0, 1, [⟨3, 12⟩, ⟨0, 0⟩]⟩ (.rmfree 2 10)) := by
  have filled : Reached Sound ⟨0, 0, 1, [⟨5, 10⟩, ⟨0, 0⟩]⟩ :=
    .init 5 10 7 (by simp [Sound]) (by decide)
  have taken : Reached Sound ⟨0, 0, 1, [⟨3, 12⟩, ⟨0, 0⟩]⟩ :=
    .step (.rmalloc 2) filled trivial trivial (by decide)
  have both := reached_repInv_and_safe _ taken
  exact ⟨both.1, both.2 (.rmfree 2 10) trivial (by unfold Sound; decide)⟩

/-- Without the condition the property fails: on a map of capacity one that holds the segment
`[100, 105)`, freeing `[200, 205)` compares the segment with the element before `mapstart`. -/
theorem not_safe_of_one_segment :
    ¬ ∀ m, Reached (fun _ _ => True) m →
      RepInv m ∧ ∀ op, Called m op → Safe (apply m op) := by
  intro holds
  have filled : Reached (fun _ _ => True) ⟨0, 0, 1, [⟨5, 100⟩, ⟨0, 0⟩]⟩ :=
    .init 5 100 7 trivial (by decide)
  have stray : apply ⟨0, 0, 1, [⟨5, 100⟩, ⟨0, 0⟩]⟩ (.rmfree 5 200) = .error .beforeStart := by
    decide
  have safe := (holds _ filled).2 (.rmfree 5 200) trivial
  rw [stray] at safe
  exact safe

end Sol25.Rmap
