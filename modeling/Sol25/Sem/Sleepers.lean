import Sol25.Sem.Semop

/-!
# Sleepers of a semaphore set

The calls of `semop` on one set as a machine: a call checks its operations, sleeps on a condition

variable of a semaphore, is woken, or has returned.  `SETVAL`, `SETALL`, the adjustments of
`semexit` and signals interleave with it; the undo structures, which are shared with other sets, may
change at any time.
-/

namespace Sol25.Sem

open Function

/-- What a call of `semop` is doing. -/
inductive Proc
  /-- The call of process `p` is about to make its first pass. -/
  | checking (p : Nat) (ops : List Sembuf)
  /-- The call sleeps on a queue of the semaphore of `op`. -/
  | asleep (p : Nat) (ops : List Sembuf) (op : Sembuf) (queue : Queue)
  /-- The call has been woken, by `cv_signal` or by `cv_broadcast`, and has not run yet. -/
  | woken (p : Nat) (ops : List Sembuf) (op : Sembuf) (queue : Queue) (signalled : Bool)
  /-- The call has returned. -/
  | returned (errno : Option Errno)
deriving DecidableEq, Repr

/-- The call sleeps on the queue of semaphore `num`. -/
def Proc.asleepOn (queue : Queue) (num : Nat) : Proc → Bool
  | .asleep _ _ op queue' => queue' == queue && op.num == num
  | _ => false

/-- `cv_signal` and `cv_broadcast` on a sleeper. -/
def Proc.wake (signalled : Bool) : Proc → Proc
  | .asleep p ops op queue => .woken p ops op queue signalled
  | proc => proc

/-- `cv_broadcast`. -/
def wakeAll (queue : Queue) (num : Nat) (procs : List Proc) : List Proc :=
  procs.map fun proc => if proc.asleepOn queue num then proc.wake false else proc

/-- `cv_signal`: one sleeper is woken, the one at `pick` if it is on the queue. -/
def wakeOne (queue : Queue) (num pick : Nat) (procs : List Proc) : List Proc :=
  let test := Proc.asleepOn queue num
  let i := if (procs[pick]?).any test then pick else procs.findIdx test
  match procs[i]? with
  | none => procs
  | some proc => procs.set i (proc.wake true)

/-- Send some wake-ups; `picks` resolves the choices of `cv_signal`. -/
def deliver : List Nat → List Wake → List Proc → List Proc
  | _, [], procs => procs
  | picks, .broadcast queue num :: rest, procs => deliver picks rest (wakeAll queue num procs)
  | picks, .signal queue num :: rest, procs =>
    deliver picks.tail rest (wakeOne queue num picks.headI procs)

/-- The set, the undo structures and the calls. -/
structure World where
  set : SemSet
  pool : Pool
  procs : List Proc

/-- A step of the system. -/
inductive WorldEvent
  /-- Process `p` calls `semop`. -/
  | start (p : Nat) (ops : List Sembuf)
  /-- A call makes a pass. -/
  | check (i : Nat) (picks : List Nat)
  /-- A signal interrupts a sleeper, which may have been woken already. -/
  | interrupt (i : Nat)
  | setval (num : Nat) (value : BitVec 16)
  | setall (vals : Nat → BitVec 16)
  /-- `semexit` comes to an entry for semaphore `num`. -/
  | adjust (num : Nat) (aoe : Int)
  /-- Calls on other sets change the undo structures. -/
  | other (pool : Pool)

section Machine

variable (tuning : Tuning) (id : Int)

/-- A pass of the call at `i`, after which it has returned or sleeps. -/
def World.pass (world : World) (i : Nat) (picks : List Nat) (p : Nat) (ops : List Sembuf) : World :=
  match semopLoop tuning p id world.set.binaryType [] ops world.set world.pool [] with
  | .completed set pool wakes =>
    ⟨set, pool, deliver picks wakes (world.procs.set i (.returned none))⟩
  | .stopped (.error errno) _ set pool wakes =>
    ⟨set, pool, deliver picks wakes (world.procs.set i (.returned (some errno)))⟩
  | .stopped (.sleep queue) op set pool wakes =>
    let procs := deliver picks wakes (world.procs.set i (.checking p ops))
    ⟨set.sleep op queue, pool, procs.set i (.asleep p ops op queue)⟩

/-- A change of one semaphore, with its wake-ups. -/
def World.change (world : World) (num : Nat) (result : Sema × List Wake) : World :=
  { world with
    set := world.set.put num result.1
    procs := deliver [] result.2 world.procs }

/-- One step of the system; an event that is not possible does nothing. -/
def World.step (world : World) : WorldEvent → World
  | .start p ops =>
    if ∀ op ∈ ops, op.num < world.set.nsems then
      { world with procs := world.procs ++ [.checking p ops] }
    else world
  | .check i picks =>
    match world.procs[i]? with
    | some (.checking p ops) => world.pass tuning id i picks p ops
    | some (.woken p ops _ _ _) => world.pass tuning id i picks p ops
    | _ => world
  | .interrupt i =>
    let back := fun (op : Sembuf) queue =>
      { world with procs := world.procs.set i (.returned (some .eintr)) }.change op.num
        ((world.set.sem op.num).interrupt queue op.num)
    match world.procs[i]? with
    | some (.asleep _ _ op queue) => back op queue
    | some (.woken _ _ op queue _) => back op queue
    | _ => world
  | .setval num value =>
    if num < world.set.nsems ∧ value.toNat ≤ tuning.semvmx then
      world.change num ((world.set.sem num).assign value num)
    else world
  | .setall vals =>
    if ∀ num < world.set.nsems, (vals num).toNat ≤ tuning.semvmx then
      (List.range world.set.nsems).foldl (fun world num =>
        world.change num ((world.set.sem num).assign (vals num) num)) world
    else world
  | .adjust num aoe =>
    if num < world.set.nsems then
      world.change num ((world.set.sem num).adjust tuning aoe num)
    else world
  | .other pool => { world with pool := pool }

/-- A set of `nsems` semaphores as `semget` makes it. -/
def World.initial (nsems : Nat) (pool : Pool) : World :=
  ⟨⟨nsems, true, fun _ => ⟨0, 0, 0⟩⟩, pool, []⟩

/-- The states reached by steps that meet a condition. -/
inductive Reached (nsems : Nat) (meets : World → WorldEvent → Prop) : World → Prop
  | initial (pool : Pool) : Reached nsems meets (.initial nsems pool)
  | step {world : World} (event : WorldEvent) :
      Reached nsems meets world → meets world event →
      Reached nsems meets (world.step tuning id event)

end Machine

/-! ## What the machine should achieve -/

/-- The values of a set. -/
def SemSet.vals (set : SemSet) (num : Nat) : BitVec 16 := (set.sem num).semval

/-- The values after some operations. -/
def applyAll : List Sembuf → (Nat → BitVec 16) → Nat → BitVec 16
  | [], vals => vals
  | op :: rest, vals => applyAll rest (update vals op.num (vals op.num + op.op))

/-- The operations can be done one after the other. -/
def Succeeds (tuning : Tuning) : List Sembuf → (Nat → BitVec 16) → Prop
  | [], _ => True
  | op :: rest, vals =>
    op.Fits tuning (vals op.num) ∧ Succeeds tuning rest (update vals op.num (vals op.num + op.op))

instance (tuning : Tuning) : ∀ ops vals, Decidable (Succeeds tuning ops vals)
  | [], _ => inferInstanceAs (Decidable True)
  | op :: rest, vals =>
    have := instDecidableSucceeds tuning rest
      (update vals op.num (vals op.num + op.op))
    inferInstanceAs (Decidable (_ ∧ _))

/-- No call is checking or woken. -/
def World.Quiet (world : World) : Prop :=
  ∀ proc ∈ world.procs, match proc with
    | .checking _ _ => False
    | .woken _ _ _ _ _ => False
    | _ => True

/-- No sleeper could go on, and a semaphore with a sleeper that waits for a greater value counts
it. -/
def World.NoneLost (tuning : Tuning) (world : World) : Prop :=
  ∀ p ops op queue, .asleep p ops op queue ∈ world.procs →
    ¬ Succeeds tuning ops world.set.vals ∧ (queue = .semncnt → 1 ≤ (world.set.sem op.num).semncnt)

end Sol25.Sem
