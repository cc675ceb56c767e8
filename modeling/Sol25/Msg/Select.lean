import Sol25.Msg.Run

/-!
# The message that is received

`msgrcv` takes the first message, the first one of a type, or the earliest one of the smallest type
up to a bound, and the others stay in order.
-/

namespace Sol25.Msg

open Ipc List

variable {t : Msginfo} {k k' : Kernel} {qp fuel : ℕ} {hdr : ℕ → Header} {msgtyp : BitVec 32}
  {l before after : List ℕ}
  {best : Option ℕ × Option ℕ} {mp pmp : Option ℕ}

/-- A type that a call asks for. -/
def Wanted (msgtyp type : ℤ) : Prop :=
  msgtyp = 0 ∨ 0 < msgtyp ∧ type = msgtyp ∨ msgtyp < 0 ∧ type ≤ -msgtyp

/-- The message that a call asks for stands between two parts of the queue. -/
structure Selected (type : ℕ → ℤ) (msgtyp : ℤ) (before : List ℕ) (i : ℕ)
    (after : List ℕ) : Prop where
  first : msgtyp = 0 → before = []
  first_of_type : 0 < msgtyp → type i = msgtyp ∧ ∀ j ∈ before, type j ≠ msgtyp
  least : msgtyp < 0 → type i ≤ -msgtyp ∧ (∀ j ∈ before, type j ≤ -msgtyp → type i < type j) ∧
    ∀ j ∈ after, type j ≤ -msgtyp → type i ≤ type j

def typeOf (hdr : ℕ → Header) (i : ℕ) : ℤ := (hdr i).type.toInt

/-! ### The scan -/

/-- The earliest message of the smallest type up to a bound, and its predecessor. -/
def FirstLeast (type : ℕ → ℤ) (bound : ℤ) (l : List ℕ) (best : Option ℕ × Option ℕ) : Prop :=
  (best.1 = none ∧ ∀ i ∈ l, bound < type i) ∨
    ∃ before i after, l = before ++ i :: after ∧ best = (some i, before.getLast?) ∧ type i ≤ bound ∧
      (∀ j ∈ before, type j ≤ bound → type i < type j) ∧ ∀ j ∈ after, type j ≤ bound →
        type i ≤ type j

variable {type : ℕ → ℤ} {bound : ℤ} {i : ℕ}

/-- A message that is not better changes nothing. -/
theorem FirstLeast.skip (least : FirstLeast type bound l best)
    (worse : type i ≤ bound → best.1.any (fun smp => decide (type smp ≤ type i)) = true) :
    FirstLeast type bound (l ++ [i]) best := by
  rcases least with ⟨empty, above⟩ | ⟨before, smp, after, rfl, rfl, le, strict, weak⟩
  · refine .inl ⟨empty, fun j mem => ?_⟩
    rcases mem_append.1 mem with mem | mem
    · exact above j mem
    · obtain rfl := mem_singleton.1 mem
      by_contra within
      rw [empty] at worse
      exact nomatch worse (not_lt.1 within)
  · refine .inr ⟨before, smp, after ++ [i], by simp, rfl, le, strict, fun j mem within => ?_⟩
    rcases mem_append.1 mem with mem | mem
    · exact weak j mem within
    · obtain rfl := mem_singleton.1 mem
      exact of_decide_eq_true (worse within)

theorem FirstLeast.take (least : FirstLeast type bound l best) (le : type i ≤ bound)
    (better : best.1.any (fun smp => decide (type smp ≤ type i)) = false) :
    FirstLeast type bound (l ++ [i]) (some i, l.getLast?) := by
  refine .inr ⟨l, i, [], rfl, rfl, le, fun j mem within => ?_, by simp⟩
  rcases least with ⟨-, above⟩ | ⟨before, smp, after, rfl, rfl, -, strict, weak⟩
  · exact absurd within (not_le.2 (above j mem))
  · have smaller : type i < type smp := not_le.1 (@of_decide_eq_false _ (_) better)
    rcases mem_append.1 mem with mem | mem
    · exact smaller.trans (strict j mem within)
    · rcases mem_cons.1 mem with rfl | mem
      · exact smaller
      · exact smaller.trans_le (weak j mem within)

theorem search_least (negative : ¬ 0 < msgtyp.toInt) (links : Links (nexts hdr) mp after none)
    (pred : pmp = before.getLast?) (least : FirstLeast (typeOf hdr) (-msgtyp).toInt before best)
    (enough : after.length < fuel) :
    ∃ best', search hdr msgtyp fuel mp pmp best = .ok best' ∧
      FirstLeast (typeOf hdr) (-msgtyp).toInt (before ++ after) best' := by
  induction after generalizing fuel mp pmp best before with
  | nil =>
    obtain ⟨fuel, rfl⟩ := Nat.exists_eq_succ_of_ne_zero (Nat.ne_of_gt enough)
    obtain rfl : mp = none := links
    rw [append_nil]
    exact ⟨best, rfl, least⟩
  | cons i after ih =>
    obtain ⟨fuel, rfl⟩ := Nat.exists_eq_succ_of_ne_zero (Nat.ne_zero_of_lt enough)
    obtain ⟨rfl, rest⟩ := links
    have next {best : Option ℕ × Option ℕ}
      (least : FirstLeast (typeOf hdr) (-msgtyp).toInt (before ++ [i]) best) :
        ∃ best', search hdr msgtyp fuel (hdr i).next (some i) best = .ok best' ∧
          FirstLeast (typeOf hdr) (-msgtyp).toInt (before ++ i :: after) best' := by
      rw [append_cons]
      refine ih rest (by simp) least ?_
      rw [length_cons] at enough
      omega
    rw [search, if_neg negative]
    by_cases taken : (hdr i).type.sle (-msgtyp) ∧ ¬ best.1.any fun smp =>
      (hdr smp).type.sle (hdr i).type
    · rw [if_pos taken, pred]
      exact next (least.take (of_decide_eq_true taken.1) (Bool.eq_false_iff.2 taken.2))
    · rw [if_neg taken]
      refine next (least.skip fun within => ?_)
      by_contra better
      exact taken ⟨decide_eq_true within, better⟩

theorem search_type (positive : 0 < msgtyp.toInt) (links : Links (nexts hdr) mp after none)
    (pred : pmp = before.getLast?) (none_before : ∀ j ∈ before, typeOf hdr j ≠ msgtyp.toInt)
    (enough : after.length < fuel) :
    (search hdr msgtyp fuel mp pmp (none, none) = .ok (none, none) ∧ ∀ j ∈ before ++ after,
      typeOf hdr j ≠ msgtyp.toInt) ∨
    ∃ front i back, before ++ after = front ++ i :: back ∧
      search hdr msgtyp fuel mp pmp (none, none) = .ok (some i, front.getLast?) ∧
        typeOf hdr i = msgtyp.toInt ∧
      ∀ j ∈ front, typeOf hdr j ≠ msgtyp.toInt := by
  induction after generalizing fuel mp pmp before with
  | nil =>
    obtain ⟨fuel, rfl⟩ := Nat.exists_eq_succ_of_ne_zero (Nat.ne_of_gt enough)
    obtain rfl : mp = none := links
    rw [append_nil]
    exact .inl ⟨rfl, none_before⟩
  | cons i after ih =>
    obtain ⟨fuel, rfl⟩ := Nat.exists_eq_succ_of_ne_zero (Nat.ne_zero_of_lt enough)
    obtain ⟨rfl, rest⟩ := links
    rw [search, if_pos positive]
    by_cases other : msgtyp ≠ (hdr i).type
    · rw [if_pos other, append_cons]
      refine ih rest (by simp) (fun j mem => ?_) ?_
      · rcases mem_append.1 mem with mem | mem
        · exact none_before j mem
        · obtain rfl := mem_singleton.1 mem
          exact fun same => other (BitVec.eq_of_toInt_eq same).symm
      · rw [length_cons] at enough
        omega
    · rw [if_neg other]
      refine .inr ⟨before, i, after, rfl, by rw [pred], ?_, none_before⟩
      rw [not_not.1 other]
      rfl

/-- The message that `findmsg` chooses is the one asked for, except for the one type that has no
negative: with it the scan passes over every message of a proper type. -/
theorem findmsg_selects (chained : Chained k.hdr (k.que qp) l) (few : l.length ≤ t.headers) :
    ∃ best, findmsg t k qp msgtyp = .ok best ∧
      (msgtyp ≠ BitVec.intMin 32 →
        best.1 = none ∧ (∀ i ∈ l, ¬ Wanted msgtyp.toInt (typeOf k.hdr i)) ∨
        ∃ before i after, l = before ++ i :: after ∧ best = (some i, before.getLast?) ∧
          Selected (typeOf k.hdr) msgtyp.toInt before i after) ∧
      (msgtyp = BitVec.intMin 32 → (∀ i ∈ l, 0 < typeOf k.hdr i) → best.1 = none) := by
  have links := chained.links
  rw [findmsg]
  by_cases any : msgtyp = 0
  · subst any
    rw [if_pos rfl, links.start_eq]
    refine ⟨_, rfl, fun _ => ?_, fun eq => absurd eq (by decide)⟩
    cases l with
    | nil => exact .inl ⟨rfl, fun i mem => by cases mem⟩
    | cons i rest =>
      exact .inr ⟨[], i, rest, rfl, rfl, fun _ => rfl, fun positive => absurd positive (by decide),
        fun negative => absurd negative (by decide)⟩
  rw [if_neg any]
  have nonzero : msgtyp.toInt ≠ 0 := fun eq => any (BitVec.eq_of_toInt_eq eq)
  by_cases positive : 0 < msgtyp.toInt
  · have none_before : ∀ j ∈ ([] : List Nat), typeOf k.hdr j ≠ msgtyp.toInt :=
      fun j mem => by cases mem
    rcases search_type positive links rfl none_before (Nat.lt_succ_of_le few) with
      ⟨found, absent⟩ | ⟨front, i, back, split, found, of_type, earlier⟩
    · refine ⟨_, found, fun _ => .inl ⟨rfl, fun i mem wanted => ?_⟩, fun _ _ => rfl⟩
      rcases wanted with zero | ⟨-, eq⟩ | ⟨negative, -⟩
      · exact nonzero zero
      · exact absent i mem eq
      · omega
    · refine ⟨_, found, fun _ => .inr ⟨front, i, back, split, rfl, fun zero => absurd zero nonzero,
        fun _ => ⟨of_type, earlier⟩, fun negative => by omega⟩, fun eq => ?_⟩
      subst eq
      exact absurd positive (by decide)
  · have at_start : FirstLeast (typeOf k.hdr) (-msgtyp).toInt [] (none, none) :=
      .inl ⟨rfl, fun j mem => by cases mem⟩
    obtain ⟨best, found, least⟩ := search_least positive links rfl at_start (Nat.lt_succ_of_le few)
    rw [nil_append] at least
    refine ⟨best, found, fun proper => ?_, fun eq proper => ?_⟩
    · rw [BitVec.toInt_neg_of_ne_intMin proper] at least
      rcases least with ⟨empty, above⟩ | ⟨before, i, after, split, eq, le, strict, weak⟩
      · refine .inl ⟨empty, fun i mem wanted => ?_⟩
        have above_i := above i mem
        rcases wanted with zero | ⟨positive', -⟩ | ⟨-, le⟩
        · exact nonzero zero
        · exact positive positive'
        · omega
      · exact .inr ⟨before, i, after, split, eq, fun zero => absurd zero nonzero,
          fun positive' => absurd positive' positive, fun _ => ⟨le, strict, weak⟩⟩
    · rcases least with ⟨empty, -⟩ | ⟨before, i, after, rfl, -, le, -⟩
      · exact empty
      · have least_type : (-msgtyp).toInt = -0x80000000 := by
          rw [eq]
          decide
        have proper_i := proper i (by simp)
        omega

/-! ### The queue afterwards -/

/-- A queue holds some messages, with the contents they had. -/
structure Remaining (k k' : Kernel) (qp : ℕ) (l : List ℕ) : Prop where
  chained : Chained k'.hdr (k'.que qp) l
  type : ∀ i ∈ l, (k'.hdr i).type = (k.hdr i).type
  ts : ∀ i ∈ l, (k'.hdr i).ts = (k.hdr i).ts
  spot : ∀ i ∈ l, (k'.hdr i).spot = (k.hdr i).spot

theorem setNext_type (hdr : ℕ → Header) (i j : ℕ) (next : Option ℕ) :
    (setNext hdr i next j).type = (hdr j).type := by
  by_cases same : j = i
  · subst same
    simp [setNext]
  · rw [setNext_of_ne same]

theorem unlink_type (k : Kernel) (qp mp i : ℕ) (pmp : Option ℕ) :
    ((k.unlink qp pmp mp).hdr i).type = (k.hdr i).type := by
  cases pmp with
  | none => rfl
  | some p => exact setNext_type _ _ _ _

/-- `msgfree` takes a message off its queue. -/
theorem msgfree_remaining {smp : ℕ} (chained : Chained k.hdr (k.que qp) (before ++ smp :: after))
    (distinct : (before ++ smp :: after).Nodup) (few : (before ++ smp :: after).length ≤ t.headers)
    (frees : msgfree t k qp before.getLast? smp = .ok k') :
    Remaining k k' qp (before ++ after) := by
  have short : (before ++ smp :: after).length < 2 ^ 32 := by
    have bound := t.headers_lt
    omega
  obtain ⟨map, rfl⟩ : ∃ map,
      k' = { k.unlink qp before.getLast? smp with map := map }.pushHeader smp := by
    rw [msgfree] at frees
    simp only [bind, Except.bind, pure, Except.pure] at frees
    split at frees
    · split at frees
      · cases frees
      split at frees
      · cases frees
      · cases frees
        exact ⟨_, rfl⟩
    · cases frees
      exact ⟨_, rfl⟩
  have outside : smp ∉ before ++ after := (nodup_middle.1 distinct).notMem
  refine ⟨(chained.unlink distinct short).congr fun i mem => ?_, fun i _ => ?_, fun i _ => ?_,
    fun i _ => ?_⟩
  · have other : i ≠ smp := by
      rintro rfl
      exact outside mem
    exact congrArg Header.next (setNext_of_ne other)
  · exact (setNext_type _ _ _ _).trans (unlink_type _ _ _ _ _)
  · exact (setNext_ts _ _ _ _).trans (unlink_ts _ _ _ _ _)
  · exact (setNext_spot _ _ _ _).trans (unlink_spot _ _ _ _ _)

/-- A pass that has chosen a message removes it, or reports that it does not fit or cannot be copied
out and leaves everything alone. -/
theorem receive_remaining {smp : ℕ} {caller : Caller} {msgsz msgflg : BitVec 32}
    {typeOut textOut : Bool} {e : End} (chained : Chained k.hdr (k.que qp) (before ++ smp :: after))
    (distinct : (before ++ smp :: after).Nodup) (few : (before ++ smp :: after).length ≤ t.headers)
    (receives : receive t k caller qp before.getLast? smp msgsz msgflg typeOut textOut =
      .ok (e, k')) :
    (∃ sz, e = .done sz) ∧ Remaining k k' qp (before ++ after) ∨
      (e = .fails .e2big ∨ e = .fails .efault) ∧ k' = k := by
  rw [receive] at receives
  simp only [bind, Except.bind, pure, Except.pure] at receives
  by_cases big : msgsz.toNat < (k.hdr smp).ts.toNat ∧ msgflg &&& msgNoerror = 0
  · rw [if_pos big] at receives
    cases receives
    exact .inr ⟨.inl rfl, rfl⟩
  rw [if_neg big] at receives
  by_cases no_type : (!typeOut) = true
  · rw [if_pos no_type] at receives
    cases receives
    exact .inr ⟨.inr rfl, rfl⟩
  rw [if_neg no_type] at receives
  generalize (if msgsz.toNat < (k.hdr smp).ts.toNat then msgsz.toNat else (k.hdr smp).ts.toNat) =
    sz at receives
  by_cases no_text : sz ≠ 0 ∧ (!textOut) = true
  · rw [if_pos no_text] at receives
    cases receives
    exact .inr ⟨.inr rfl, rfl⟩
  rw [if_neg no_text] at receives
  generalize q_eq : ({ k.que qp with
    cbytes := minus (k.que qp).cbytes (k.hdr smp).ts.toNat
    lrpid := caller.pid
    rtime := caller.now } : MsqidDs) = q at receives
  cases frees : msgfree t (k.put qp q) qp before.getLast? smp with
  | error fault =>
    rw [frees] at receives
    exact nomatch receives
  | ok k'' =>
    rw [frees] at receives
    cases receives
    have que_eq : (k.put qp q).que qp = q := Function.update_self ..
    have chained' : Chained (k.put qp q).hdr ((k.put qp q).que qp) (before ++ smp :: after) := by
      rw [que_eq]
      refine chained.of_fields ?_ ?_ ?_ ?_ <;> rw [← q_eq]
    obtain ⟨chained'', type, ts, spot⟩ := msgfree_remaining chained' distinct few frees
    exact .inl ⟨⟨_, rfl⟩, chained'', type, ts, spot⟩

/-- How a pass of `msgrcv` should end. -/
def Received (k k' : Kernel) (qp : ℕ) (l : List ℕ) (msgtyp : ℤ) (e : End) : Prop :=
  (∃ before i after, l = before ++ i :: after ∧ Selected (typeOf k.hdr) msgtyp before i after ∧
    ((∃ sz, e = .done sz) ∧ Remaining k k' qp (before ++ after) ∨
      (e = .fails .e2big ∨ e = .fails .efault) ∧ k' = k)) ∨
  (∀ i ∈ l, ¬ Wanted msgtyp (typeOf k.hdr i)) ∧ (e = .fails .enomsg ∨ e = .waits) ∧
    Remaining k k' qp l

/-- A pass that looks for a message. -/
theorem msgrcv_eq {caller : Caller} {again : Bool} {id msgsz msgflg : BitVec 32}
    {typeOut textOut : Bool} (found : msgconv t k id = .ok (some qp))
    (granted : again = true ∨ ipcaccess (k.que qp).perm msgR caller.cr = none)
    (nonneg : 0 ≤ msgsz.toInt) (finds : findmsg t k qp msgtyp = .ok best) :
    msgrcv t k caller again id msgsz msgtyp msgflg typeOut textOut =
      match best with
      | (some smp, spmp) => receive t k caller qp spmp smp msgsz msgflg typeOut textOut
      | (none, _) =>
        if msgflg &&& ipcNowait ≠ 0 then .ok (.fails .enomsg, k)
        else .ok (.waits, k.put qp ((k.que qp).setMode ((k.que qp).perm.mode ||| msgRwait))) := by
  have passes : (if again then none else ipcaccess (k.que qp).perm msgR caller.cr) = none := by
    rcases granted with rfl | granted
    · rfl
    · rw [granted]
      exact ite_self _
  rw [msgrcv]
  simp only [bind, Except.bind, pure, Except.pure, found, passes, finds, if_neg (not_lt.2 nonneg)]
  obtain ⟨smp | smp, spmp⟩ := best <;> rfl

theorem nothing_received (chained : Chained k.hdr (k.que qp) l) {msgflg : BitVec 32} {e : End}
    (result : (if msgflg &&& ipcNowait ≠ 0 then Except.ok (End.fails .enomsg, k) else
      .ok (.waits, k.put qp ((k.que qp).setMode ((k.que qp).perm.mode ||| msgRwait))) :
        Except Fault _) = .ok (e, k')) :
    (e = .fails .enomsg ∨ e = .waits) ∧ Remaining k k' qp l := by
  split at result
  · cases result
    exact ⟨.inl rfl, chained, fun _ _ => rfl, fun _ _ => rfl, fun _ _ => rfl⟩
  · cases result
    refine ⟨.inr rfl, ?_, fun _ _ => rfl, fun _ _ => rfl, fun _ _ => rfl⟩
    have que_eq : (k.put qp ((k.que qp).setMode ((k.que qp).perm.mode ||| msgRwait))).que qp =
      (k.que qp).setMode ((k.que qp).perm.mode ||| msgRwait) := Function.update_self ..
    rw [que_eq]
    exact chained.of_fields rfl rfl rfl (allocated_or rfl)

/-- For every queue a pass of `msgrcv` ends its scan, and it takes the message that was asked for,
or nothing if there is none, if and only if `msgtyp` has a negative or the queue is empty. -/
theorem msgrcv_selects_iff (t : Msginfo) (k : Kernel) (qp : ℕ) (l : List ℕ) (caller : Caller)
    (again : Bool) (id msgsz msgtyp msgflg : BitVec 32) (typeOut textOut : Bool)
    (found : msgconv t k id = .ok (some qp))
    (granted : again = true ∨ ipcaccess (k.que qp).perm msgR caller.cr = none)
    (nonneg : 0 ≤ msgsz.toInt) (chained : Chained k.hdr (k.que qp) l) (distinct : l.Nodup)
    (few : l.length ≤ t.headers) (proper : ∀ i ∈ l, 0 < typeOf k.hdr i) :
    (∃ best, findmsg t k qp msgtyp = .ok best) ∧
    ((∀ e k', msgrcv t k caller again id msgsz msgtyp msgflg typeOut textOut = .ok (e, k') →
      Received k k' qp l msgtyp.toInt e) ↔ msgtyp ≠ BitVec.intMin 32 ∨ l = []) := by
  obtain ⟨best, finds, selects, misses⟩ := @findmsg_selects t k qp msgtyp l chained few
  have result := @msgrcv_eq t k qp msgtyp best caller again id msgsz msgflg typeOut textOut found
    granted nonneg finds
  have lawful : msgtyp ≠ BitVec.intMin 32 → ∀ e k',
    msgrcv t k caller again id msgsz msgtyp msgflg typeOut textOut =
      .ok (e, k') → Received k k' qp l msgtyp.toInt e := by
    intro regular e k' receives
    rw [result] at receives
    rcases selects regular with ⟨empty, unwanted⟩ | ⟨before, i, after, rfl, rfl, selected⟩
    · obtain ⟨smp, spmp⟩ := best
      obtain rfl : smp = none := empty
      exact .inr ⟨unwanted, nothing_received chained receives⟩
    · exact .inl ⟨before, i, after, rfl, selected, receive_remaining chained distinct few receives⟩
  refine ⟨⟨best, finds⟩, fun law => ?_, ?_⟩
  · by_contra neither
    rw [not_or, not_not] at neither
    obtain ⟨least, some_queued⟩ := neither
    obtain ⟨smp, spmp⟩ := best
    obtain rfl : smp = none := misses least proper
    have ends : ∃ e k', msgrcv t k caller again id msgsz msgtyp msgflg typeOut textOut =
      .ok (e, k') ∧
        (e = .fails .enomsg ∨ e = .waits) := by
      rw [result]
      dsimp only
      split
      · exact ⟨_, _, rfl, .inl rfl⟩
      · exact ⟨_, _, rfl, .inr rfl⟩
    obtain ⟨e, k', receives, nothing⟩ := ends
    rcases law e k' receives with ⟨-, -, -, -, -, ⟨⟨sz, rfl⟩, -⟩ | ⟨failed, -⟩⟩ | ⟨unwanted, -⟩
    · rcases nothing with eq | eq <;> exact nomatch eq
    · rcases nothing with rfl | rfl <;> rcases failed with eq | eq <;> exact nomatch eq
    · obtain ⟨i, mem⟩ := exists_mem_of_ne_nil l some_queued
      have small : (k.hdr i).type.toInt < 2 ^ 31 := BitVec.toInt_lt
      refine unwanted i mem (.inr (.inr ⟨by rw [least]; decide, ?_⟩))
      rw [least, typeOf]
      have negative : (BitVec.intMin 32).toInt = -2 ^ 31 := by decide
      omega
  · rintro (regular | rfl)
    · exact lawful regular
    · intro e k' receives
      obtain ⟨smp, spmp⟩ := best
      have empty : smp = none := by
        by_contra taken
        obtain ⟨i, rfl⟩ := Option.ne_none_iff_exists'.1 taken
        rcases eq_or_ne msgtyp (BitVec.intMin 32) with least | regular
        · exact nomatch misses least fun i mem => nomatch mem
        · rcases selects regular with ⟨eq, -⟩ | ⟨before, j, after, split, -⟩
          · exact nomatch eq
          · simp at split
      subst empty
      rw [result] at receives
      exact .inr ⟨fun i mem => (nomatch mem), nothing_received chained receives⟩

/-- One queue with two messages, of the types 5 and 2. -/
def twoQueued : Kernel where
  hdr i := if i = 0 then ⟨some 1, 5, 0, 0⟩ else ⟨none, 2, 0, 0⟩
  msgfp := none
  que _ := { MsqidDs.unused with
    perm := { MsqidDs.unused.perm with mode := ipcAlloc }
    first := some 0
    last := some 1
    qnum := 2 }
  map := ⟨0, 0, 0, []⟩

theorem twoQueued_chained : Chained twoQueued.hdr (twoQueued.que 0) [0, 1] where
  links := ⟨rfl, rfl, rfl⟩
  last := rfl
  qnum := rfl
  idle unused := absurd unused (by decide)

theorem twoQueued_proper : ∀ i ∈ [0, 1], 0 < typeOf twoQueued.hdr i := by decide

theorem msgrcv_selects_iff_two :
    ∃ e k', msgrcv longMessages twoQueued root false 0 100 (-3) 0 true true = .ok (e, k') ∧
      Received twoQueued k' 0 [0, 1] (-3) e := by
  obtain ⟨⟨e, k'⟩, eq⟩ :
      ∃ r, msgrcv longMessages twoQueued root false 0 100 (-3) 0 true true = .ok r := ⟨_, rfl⟩
  exact ⟨e, k', eq, (msgrcv_selects_iff longMessages twoQueued 0
    [0, 1] root false 0 100 (-3) 0 true true rfl (.inr rfl)
    (by decide) twoQueued_chained (by decide) (by decide) twoQueued_proper).2.2 (.inl (by decide))
    e k' eq⟩

/-- With the least `long` no message is found, although every type is small enough. -/
theorem not_msgrcv_selects :
    ¬ ∀ (t : Msginfo) (k : Kernel) (qp : ℕ) (l : List ℕ) (caller : Caller) (again : Bool)
      (id msgsz msgtyp msgflg : BitVec 32) (typeOut textOut : Bool),
        msgconv t k id = .ok (some qp) →
      (again = true ∨ ipcaccess (k.que qp).perm msgR caller.cr = none) → 0 ≤ msgsz.toInt →
      Chained k.hdr (k.que qp) l → l.Nodup → l.length ≤ t.headers → (∀ i ∈ l, 0 < typeOf k.hdr i) →
      ∀ e k', msgrcv t k caller again id msgsz msgtyp msgflg typeOut textOut = .ok (e, k') →
        Received k k' qp l msgtyp.toInt e := by
  intro law
  have received :=
    law longMessages twoQueued 0
      [0, 1] root false 0 100 0x80000000 ipcNowait true true rfl (.inr rfl)
    (by decide) twoQueued_chained (by decide)
      (by decide) twoQueued_proper (.fails .enomsg) twoQueued rfl
  rcases received with ⟨-, -, -, -, -, ⟨⟨sz, eq⟩, -⟩ | ⟨eq | eq, -⟩⟩ | ⟨unwanted, -⟩
  · exact nomatch eq
  · exact nomatch eq
  · exact nomatch eq
  · exact unwanted 0 (by decide) (.inr (.inr (by decide)))

end Sol25.Msg
