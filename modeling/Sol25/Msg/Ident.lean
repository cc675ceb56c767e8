import Sol25.Msg.Run

/-!
# Identifiers of message queues

The identifier of a queue names its slot and the number of queues that the slot has held before.
In every history of `msgget` and `IPC_RMID` an identifier is accepted as long as its queue exists,
and refused after that until the slot counts from 0 again.
-/

namespace Sol25.Msg

open Ipc Function BitVec Nat

variable {t : Msginfo} {k after : Kernel} {id : BitVec 32} {qp : ℕ}

/-- The identifier that `msgget` returns for a queue. -/
def Kernel.msqid (t : Msginfo) (k : Kernel) (qp : ℕ) : BitVec 32 :=
  BitVec.ofNat 32 (k.que qp).perm.seq * t.msgmni + BitVec.ofNat 32 qp

/-- The calls that make and remove queues. -/
def Event.names : Event → Bool
  | .msgget _ _ _ => true
  | .rmid _ _ => true
  | _ => false

/-- `later` is reached from `k` by calls that make and remove queues, and every state on the way has
a property. -/
inductive Along (t : Msginfo) (holds : Kernel → Prop) (k : Kernel) : Kernel → Prop
  | refl : holds k → Along t holds k k
  | step (event : Event) {mid later : Kernel} :
      Along t holds k mid → event.names = true → mid.step t event = .ok later → holds later →
        Along t holds k later

/-! ### Conversion -/

theorem msgmni_toNat (positive : 0 < t.msgmni.toInt) :
    t.msgmni.toNat = t.queues ∧ 0 < t.queues ∧ t.queues < 2 ^ 31 := by
  have bound := t.msgmni.isLt
  simp only [Msginfo.queues]
  rw [toInt_eq_toNat_cond] at positive ⊢
  split_ifs at positive ⊢ with small
  · omega
  · omega

/-- `msgconv` finds a queue exactly by the slot and the sequence number of the identifier. -/
theorem msgconv_some_iff (positive : 0 < t.msgmni.toInt) :
    msgconv t k id = .ok (some qp) ↔ qp < t.queues ∧ (k.que qp).perm.allocated = true ∧
      id.toNat = (k.que qp).perm.seq * t.queues + qp ∧ id.toNat < 2 ^ 31 := by
  obtain ⟨mni_eq, some_queue, few⟩ := msgmni_toNat positive
  have bound := id.isLt
  unfold msgconv
  by_cases negative : id.toInt < 0
  · rw [if_pos negative]
    rw [toInt_eq_toNat_cond] at negative
    constructor
    · rintro ⟨⟩
    · rintro ⟨-, -, -, small⟩
      split_ifs at negative <;> omega
  have small : id.toNat < 2 ^ 31 := by
    rw [toInt_eq_toNat_cond] at negative
    split_ifs at negative <;> omega
  have id_msb : id.msb = false := by simpa [msb_eq_toInt] using negative
  have mni_msb : t.msgmni.msb = false := by simpa [msb_eq_toInt] using Int.le_of_lt positive
  have nonzero : t.msgmni ≠ 0 := by
    intro zero
    rw [zero] at positive
    exact absurd positive (by decide)
  rw [if_neg negative, if_neg nonzero]
  simp only [srem_eq, sdiv_eq, id_msb, mni_msb, toNat_umod, udiv_eq, toNat_udiv, mni_eq]
  have whole := div_add_mod' id.toNat t.queues
  constructor
  · intro found
    split_ifs at found with accepted
    · cases found
      rw [Bool.and_eq_true, beq_iff_eq] at accepted
      rw [← accepted.2]
      exact ⟨mod_lt _ some_queue, accepted.1, whole.symm, small⟩
    · cases found
  · rintro ⟨slot, used, id_eq, -⟩
    have qp_eq : id.toNat % t.queues = qp := by
      rw [id_eq, mul_add_mod', mod_eq_of_lt slot]
    have seq_eq : id.toNat / t.queues = (k.que qp).perm.seq := by
      rw [id_eq, Nat.mul_comm, mul_add_div some_queue, div_eq_of_lt slot, Nat.add_zero]
    rw [qp_eq, seq_eq, if_pos (by simp [used])]

theorem msgconv_total (positive : 0 < t.msgmni.toInt) (k : Kernel) (id : BitVec 32) :
    ∃ result, msgconv t k id = .ok result := by
  have nonzero : t.msgmni ≠ 0 := by
    intro zero
    rw [zero] at positive
    exact absurd positive (by decide)
  unfold msgconv
  rw [if_neg nonzero]
  simp only
  split_ifs <;> exact ⟨_, rfl⟩

/-! ### One call -/

/-- What a call does to the queues when none of them has a message. -/
inductive Turn (t : Msginfo) (k : Kernel) : Kernel → Prop
  | same : Turn t k k
  | made {qp : ℕ} (q : MsqidDs) : qp < t.queues → (k.que qp).perm.allocated = false →
      q.first = none → q.perm.seq = (k.que qp).perm.seq →
      (q.perm.key ≠ 0 → ∀ other < t.queues, (k.que other).perm.allocated = true →
        (k.que other).perm.key ≠ q.perm.key) → Turn t k (k.put qp q)
  | removed {qp : ℕ} {id : BitVec 32} : msgconv t k id = .ok (some qp) →
      Turn t k (k.put qp ((k.que qp).remove t id))

theorem msgget_turn {caller : Caller} {key : ℤ} {msgflg : BitVec 32}
    {result : Except Errno (BitVec 32)} (got : msgget t k caller key msgflg = (result, after)) :
    Turn t k after ∧ ∀ id, result = .ok id → ∃ qp < t.queues,
      (after.que qp).perm.allocated = true ∧ (after.que qp).perm.key = key ∧
        id = after.msqid t qp := by
  unfold msgget at got
  cases found : ipcget (fun qp => (k.que qp).perm) t.queues key msgflg caller.cr with
  | error errno =>
    simp only [Msginfo.queues] at found
    simp only [found] at got
    cases got
    exact ⟨.same, fun _ returned => by cases returned⟩
  | ok entry =>
    obtain ⟨qp, created⟩ := entry
    cases created with
    | none =>
      obtain ⟨small, used, key_eq⟩ := ipcget_found found
      simp only [Msginfo.queues] at found
      simp only [found] at got
      cases got
      refine ⟨.same, ?_⟩
      rintro id ⟨⟩
      exact ⟨qp, small, used, key_eq, rfl⟩
    | some perm =>
      obtain ⟨small, unused, perm_eq⟩ := ipcget_created found
      have fresh := ipcget_fresh found
      simp only [Msginfo.queues] at found
      simp only [found] at got
      cases got
      have key_eq : perm.key = key := by rw [perm_eq, IpcPerm.init]
      have seq_eq : perm.seq = (k.que qp).perm.seq := by rw [perm_eq, IpcPerm.init]
      refine ⟨.made _ small unused rfl seq_eq ?_, ?_⟩
      · intro shared other slot used
        rw [key_eq] at shared ⊢
        exact fresh shared slot used
      · rintro id ⟨⟩
        refine ⟨qp, small, ?_, ?_, ?_⟩
        · simp [Kernel.put, perm_eq, IpcPerm.init_allocated]
        · simp [Kernel.put, key_eq]
        · simp [Kernel.put, Kernel.msqid]

theorem rmid_turn (positive : 0 < t.msgmni.toInt) (empty : ∀ qp, (k.que qp).first = none)
    (cr : Cred) (id : BitVec 32) :
    (∃ errno, rmid t k cr id = .ok (some errno, k)) ∨ ∃ qp, msgconv t k id = .ok (some qp) ∧
      rmid t k cr id = .ok (none, k.put qp ((k.que qp).remove t id)) := by
  obtain ⟨result, conv⟩ := msgconv_total positive k id
  unfold rmid
  simp only [bind, Except.bind, pure, Except.pure]
  rw [conv]
  cases result with
  | none => exact .inl ⟨.einval, rfl⟩
  | some qp =>
    simp only
    split_ifs with stranger
    · exact .inl ⟨.eperm, rfl⟩
    · have walk : freeAll t (t.msgtql.toInt.toNat + 1) k qp = .ok k := by
        rw [freeAll, empty qp]
      rw [walk]
      exact .inr ⟨qp, rfl, rfl⟩

theorem step_turn (positive : 0 < t.msgmni.toInt) (empty : ∀ qp, (k.que qp).first = none)
    {event : Event} (names : event.names = true) : ∃ after, k.step t event = .ok after ∧
      Turn t k after := by
  cases event with
  | msgget caller key msgflg => exact ⟨_, rfl, (msgget_turn rfl).1⟩
  | rmid cr id =>
    rcases rmid_turn positive empty cr id with ⟨errno, refused⟩ | ⟨qp, conv, removed⟩
    · exact ⟨k, by simp [Kernel.step, refused, Except.map], .same⟩
    · exact ⟨_, by simp [Kernel.step, removed, Except.map], .removed conv⟩
  | _ => cases names

/-- The sequence number of a queue that exists after a call is the one before the call. -/
theorem Turn.seq_eq (turn : Turn t k after) (qp : ℕ) (used : (after.que qp).perm.allocated = true) :
    (after.que qp).perm.seq = (k.que qp).perm.seq := by
  cases turn with
  | same => rfl
  | @made slot q _ _ _ seq_eq _ =>
    by_cases here : qp = slot
    · subst here
      simpa [Kernel.put] using seq_eq
    · simp [Kernel.put, here]
  | @removed slot id _ =>
    by_cases here : qp = slot
    · subst here
      simp [Kernel.put, MsqidDs.remove, IpcPerm.allocated] at used
    · simp [Kernel.put, here]

/-- The sequence number that a queue has after it was removed. -/
theorem remove_seq (positive : 0 < t.msgmni.toInt) (conv : msgconv t k id = .ok (some qp)) :
    let seq := ((k.que qp).remove t id).perm.seq
    seq = 0 ∨ seq = (k.que qp).perm.seq + 1 ∧ seq * t.queues + qp < 2 ^ 31 := by
  obtain ⟨mni_eq, some_queue, few⟩ := msgmni_toNat positive
  obtain ⟨slot, -, id_eq, small⟩ := (msgconv_some_iff positive).1 conv
  simp only [MsqidDs.remove]
  split_ifs with wraps
  · exact .inl rfl
  have sum_eq : (id + t.msgmni).toNat = id.toNat + t.queues := by
    rw [BitVec.toNat_add, mni_eq, Nat.mod_eq_of_lt (by omega)]
  have bound : id.toNat + t.queues < 2 ^ 31 := by
    rw [BitVec.toInt_eq_toNat_cond, sum_eq] at wraps
    split_ifs at wraps <;> omega
  have le : (k.que qp).perm.seq ≤ (k.que qp).perm.seq * t.queues :=
    Nat.le_mul_of_pos_right _ some_queue
  have ulong_eq : Rmap.ulong ((k.que qp).perm.seq + 1) = (k.que qp).perm.seq + 1 :=
    Nat.mod_eq_of_lt (by omega)
  rw [ulong_eq, Nat.succ_mul]
  exact .inr ⟨rfl, by omega⟩

/-- A sequence number never falls, unless to 0. -/
theorem Turn.seq_le (positive : 0 < t.msgmni.toInt) (turn : Turn t k after) (qp : ℕ)
    (counts : (after.que qp).perm.seq ≠ 0) : (k.que qp).perm.seq ≤ (after.que qp).perm.seq := by
  cases turn with
  | same => rfl
  | @made slot q _ _ _ seq_eq _ =>
    by_cases here : qp = slot
    · subst here
      simpa [Kernel.put] using seq_eq.ge
    · simp [Kernel.put, here]
  | @removed slot id conv =>
    by_cases here : qp = slot
    · subst here
      simp only [Kernel.put, update_self] at counts ⊢
      have seq := remove_seq positive conv
      dsimp only at seq
      omega
    · simp [Kernel.put, here]

/-! ### Histories -/

/-- No queue has a message, every identifier fits in an `int`, and no two queues share a key. -/
structure Named (t : Msginfo) (k : Kernel) : Prop where
  empty : ∀ qp, (k.que qp).first = none
  small : ∀ qp < t.queues, (k.que qp).perm.seq * t.queues + qp < 2 ^ 31
  keys : ∀ qp < t.queues, ∀ other < t.queues, (k.que qp).perm.allocated = true →
    (k.que other).perm.allocated = true → (k.que qp).perm.key ≠ 0 →
      (k.que qp).perm.key = (k.que other).perm.key → qp = other

theorem Named.init (positive : 0 < t.msgmni.toInt) {maxavail : BitVec 32}
    (loaded : Msg.init t maxavail = .ok (some k)) : Named t k := by
  obtain ⟨-, -, few⟩ := msgmni_toNat positive
  simp only [Msg.init] at loaded
  split at loaded
  · cases loaded
  split at loaded
  · cases loaded
  cases loaded
  refine ⟨fun _ => rfl, fun qp slot => ?_, fun _ _ _ _ used => ?_⟩
  · simp only [MsqidDs.unused]
    omega
  · simp [MsqidDs.unused, IpcPerm.allocated] at used

theorem Named.turn (named : Named t k) (positive : 0 < t.msgmni.toInt) (turn : Turn t k after) :
    Named t after := by
  cases turn with
  | same => exact named
  | @made slot q inside unused first_eq seq_eq fresh =>
    refine ⟨fun qp => ?_, fun qp small => ?_,
      fun qp small other small' used used' shared same => ?_⟩
    · by_cases here : qp = slot
      · subst here
        simpa [Kernel.put] using first_eq
      · simpa [Kernel.put, here] using named.empty qp
    · by_cases here : qp = slot
      · subst here
        simpa [Kernel.put, seq_eq] using named.small qp small
      · simpa [Kernel.put, here] using named.small qp small
    · by_cases here : qp = slot <;> by_cases there : other = slot
      · rw [here, there]
      · subst here
        simp only [Kernel.put, update_self, update_of_ne there] at *
        exact absurd same.symm (fresh shared other small' used')
      · subst there
        simp only [Kernel.put, update_self, update_of_ne here] at *
        exact absurd same (fresh (same ▸ shared) qp small used)
      · simp only [Kernel.put, update_of_ne there, update_of_ne here] at *
        exact named.keys qp small other small' used used' shared same
  | @removed slot id conv =>
    refine ⟨fun qp => ?_, fun qp small => ?_,
      fun qp small other small' used used' shared same => ?_⟩
    · by_cases here : qp = slot
      · subst here
        simpa [Kernel.put, MsqidDs.remove] using named.empty qp
      · simpa [Kernel.put, here] using named.empty qp
    · by_cases here : qp = slot
      · subst here
        simp only [Kernel.put, update_self]
        have seq := remove_seq positive conv
        dsimp only at seq
        rcases seq with zero | ⟨-, bound⟩
        · rw [zero]
          obtain ⟨-, -, few⟩ := msgmni_toNat positive
          omega
        · exact bound
      · simpa [Kernel.put, here] using named.small qp small
    · have gone : ((k.que slot).remove t id).perm.allocated = false := by
        simp [MsqidDs.remove, IpcPerm.allocated]
      by_cases here : qp = slot
      · subst here
        simp [Kernel.put, gone] at used
      by_cases there : other = slot
      · subst there
        simp [Kernel.put, gone] at used'
      simp only [Kernel.put, update_of_ne there, update_of_ne here] at *
      exact named.keys qp small other small' used used' shared same

theorem Named.step (named : Named t k) (positive : 0 < t.msgmni.toInt) {event : Event}
    (names : event.names = true) (steps : k.step t event = .ok after) :
    Turn t k after ∧ Named t after := by
  obtain ⟨after', steps', turn⟩ := step_turn positive named.empty names
  rw [steps] at steps'
  cases steps'
  exact ⟨turn, named.turn positive turn⟩

theorem Reached.named (positive : 0 < t.msgmni.toInt)
    (reached : Reached t (fun event => event.names = true) k) : Named t k := by
  induction reached with
  | init maxavail loaded => exact .init positive loaded
  | step event _ names steps ih => exact (ih.step positive names steps).2

theorem Along.here {holds : Kernel → Prop} (along : Along t holds k after) : holds after := by
  cases along with
  | refl holds => exact holds
  | step _ _ _ _ holds => exact holds

theorem Along.start {holds : Kernel → Prop} (along : Along t holds k after) : holds k := by
  induction along with
  | refl holds => exact holds
  | step _ _ _ _ _ ih => exact ih

section

variable (named : Named t k) (positive : 0 < t.msgmni.toInt)

include named positive

theorem Along.seq_eq (along : Along t (fun k => (k.que qp).perm.allocated = true) k after) :
    Named t after ∧ (after.que qp).perm.seq = (k.que qp).perm.seq := by
  induction along with
  | refl _ => exact ⟨named, rfl⟩
  | step event _ names steps used ih =>
    obtain ⟨turn, named'⟩ := ih.1.step positive names steps
    exact ⟨named', (turn.seq_eq qp used).trans ih.2⟩

theorem Along.seq_le (along : Along t (fun k => (k.que qp).perm.seq ≠ 0) k after) :
    Named t after ∧ (k.que qp).perm.seq ≤ (after.que qp).perm.seq := by
  induction along with
  | refl _ => exact ⟨named, le_rfl⟩
  | step event _ names steps counts ih =>
    obtain ⟨turn, named'⟩ := ih.1.step positive names steps
    exact ⟨named', ih.2.trans (turn.seq_le positive qp counts)⟩

theorem Named.msqid_toNat (slot : qp < t.queues) :
    (k.msqid t qp).toNat = (k.que qp).perm.seq * t.queues + qp := by
  obtain ⟨mni_eq, some_queue, few⟩ := msgmni_toNat positive
  have small := named.small qp slot
  have le : (k.que qp).perm.seq ≤ (k.que qp).perm.seq * t.queues :=
    Nat.le_mul_of_pos_right _ some_queue
  have seq_eq : (k.que qp).perm.seq % 2 ^ 32 = (k.que qp).perm.seq := mod_eq_of_lt (by omega)
  have qp_eq : qp % 2 ^ 32 = qp := mod_eq_of_lt (by omega)
  rw [Kernel.msqid, toNat_add, toNat_mul, toNat_ofNat, toNat_ofNat,
    mni_eq, seq_eq, qp_eq,
    mod_eq_of_lt (@Nat.lt_of_le_of_lt _ (2 ^ 31) _ (by omega) (by decide)),
    mod_eq_of_lt (by omega)]

theorem Named.msqid_injective {other : ℕ} (slot : qp < t.queues) (slot' : other < t.queues)
    (same : k.msqid t qp = k.msqid t other) :
    qp = other := by
  have numbers := congrArg BitVec.toNat same
  rw [named.msqid_toNat positive slot, named.msqid_toNat positive slot'] at numbers
  have slots := congrArg (· % t.queues) numbers
  simpa only [mul_add_mod', mod_eq_of_lt slot, mod_eq_of_lt slot'] using slots

end

/-- In every history of `msgget` and `IPC_RMID` no call faults; every identifier that `msgget`
returns is not negative and finds its queue as long as the queue exists; queues that exist at the
same time have different identifiers and different keys; and the identifier of a removed queue is
refused until the sequence number of its slot is reset. -/
theorem stale_msqids_refused {t : Msginfo} (positive : 0 < t.msgmni.toInt) {k : Kernel}
    (reached : Reached t (fun event => event.names = true) k) :
    (∀ event, event.names = true → ∃ after, k.step t event = .ok after) ∧
      (∀ caller key msgflg id after, msgget t k caller key msgflg = (.ok id, after) →
        0 ≤ id.toInt ∧ ∃ qp < t.queues, (after.que qp).perm.allocated = true ∧
          (after.que qp).perm.key = key ∧ id = after.msqid t qp ∧
          ∀ later, Along t (fun k => (k.que qp).perm.allocated = true) after later →
            msgconv t later id = .ok (some qp)) ∧
      (∀ qp < t.queues, ∀ other < t.queues, (k.que qp).perm.allocated = true →
        (k.que other).perm.allocated = true → qp ≠ other →
        k.msqid t qp ≠ k.msqid t other ∧
          ((k.que qp).perm.key ≠ 0 → (k.que qp).perm.key ≠ (k.que other).perm.key)) ∧
      ∀ cr id after, rmid t k cr id = .ok (none, after) → ∃ qp, msgconv t k id = .ok (some qp) ∧
        ∀ later, Along t (fun k => (k.que qp).perm.seq ≠ 0) after later →
          msgconv t later id = .ok none := by
  have named := reached.named positive
  refine ⟨fun event names => ?_, fun caller key msgflg id after got => ?_,
    fun qp slot other slot' used used' differ => ?_, fun cr id after removes => ?_⟩
  · obtain ⟨after, steps, -⟩ := step_turn positive named.empty names
    exact ⟨after, steps⟩
  · obtain ⟨turn, returned⟩ := msgget_turn got
    obtain ⟨qp, slot, used, key_eq, rfl⟩ := returned id rfl
    have named' := named.turn positive turn
    have id_eq := named'.msqid_toNat positive slot
    have small := named'.small qp slot
    refine ⟨?_, qp, slot, used, key_eq, rfl, fun later along => ?_⟩
    · rw [toInt_eq_toNat_cond, id_eq, if_pos (by omega)]
      exact Int.natCast_nonneg _
    · obtain ⟨-, seq_eq⟩ := along.seq_eq named' positive
      exact (msgconv_some_iff positive).2 ⟨slot, along.here, by rw [id_eq, seq_eq], by omega⟩
  · exact ⟨fun same => differ (named.msqid_injective positive slot slot' same),
      fun shared same => differ (named.keys qp slot other slot' used used' shared same)⟩
  · rcases rmid_turn positive named.empty cr id with ⟨errno, refused⟩ | ⟨qp, conv, removed⟩
    · rw [refused] at removes
      cases removes
    rw [removed] at removes
    cases removes
    refine ⟨qp, conv, fun later along => ?_⟩
    have named' := named.turn positive (.removed conv)
    obtain ⟨-, le⟩ := along.seq_le named' positive
    obtain ⟨slot, -, id_eq, -⟩ := (msgconv_some_iff positive).1 conv
    have counts := along.start
    simp only [Kernel.put, update_self] at counts le
    have seq := remove_seq positive conv
    dsimp only at seq
    obtain ⟨result, conv'⟩ := msgconv_total positive later id
    cases result with
    | none => exact conv'
    | some other =>
      obtain ⟨slot', -, id_eq', -⟩ := (msgconv_some_iff positive).1 conv'
      have slots := congrArg (· % t.queues) (id_eq.symm.trans id_eq')
      simp only [mul_add_mod', mod_eq_of_lt slot, mod_eq_of_lt slot'] at slots
      subst slots
      have numbers : (k.que qp).perm.seq * t.queues = (later.que qp).perm.seq * t.queues := by omega
      have seqs := eq_of_mul_eq_mul_right (zero_lt_of_lt slot) numbers
      omega

theorem stale_msqids_refused_run :
    ∃ k, Reached longMessages (fun event => event.names = true) k ∧ (k.que 0).perm.seq = 1 ∧
      msgconv longMessages k 0 = .ok none ∧
        ∀ caller key msgflg id after, msgget longMessages k caller key msgflg = (.ok id, after) →
          0 ≤ id.toInt := by
  have reached : ∃ k, Reached longMessages (fun event => event.names = true) k ∧
      (k.que 0).perm.seq = 1 ∧ msgconv longMessages k 0 = .ok none :=
    ⟨_, .step (.rmid root.cr 0) (.step (.msgget root 0 0) (.init 0xffffffff rfl) rfl rfl) rfl rfl,
      rfl, rfl⟩
  obtain ⟨k, reached, seq_eq, refused⟩ := reached
  obtain ⟨-, returned, -, -⟩ := stale_msqids_refused (by decide) reached
  exact ⟨k, reached, seq_eq, refused, fun caller key msgflg id after got =>
    (returned caller key msgflg id after got).1⟩

end Sol25.Msg
