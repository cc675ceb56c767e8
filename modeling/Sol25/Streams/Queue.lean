import Sol25.Data.Doubly

/-!
# STREAMS queues

The queueing routines of `io/stream.c`.  A message is named by the order in which it was handed to
the queue, which stands for the address of its first block while it is queued.  An operation has no
result where the code would follow a null pointer.
-/

namespace Sol25.Streams

open Function

scoped instance neZero : NeZero 256 := ⟨by decide⟩

/-- A message: the fields of its first block that the queue reads, and its blocks. -/
structure Msg where
  /-- `b_datap->db_type` -/
  type : Fin 256
  /-- `b_band` -/
  band : Fin 256
  /-- `b_wptr - b_rptr` of each block along `b_cont` -/
  blocks : List ℕ
  /-- `MSGNOGET` in `b_flag` -/
  noget : Bool
deriving Repr

/-- The bytes of a message. -/
def Msg.size (m : Msg) : ℕ := m.blocks.sum

def qnorm : ℕ := 0x00

def qpctl : ℕ := 0x80

/-- The queue class of a message. -/
def queclass (m : Msg) : ℕ := if qpctl ≤ m.type.val then qpctl else qnorm

/-- `M_DATA`, `M_PROTO`, `M_PCPROTO` or `M_DELAY` -/
def datamsg (type : Fin 256) : Bool := type = 0x00 || type = 0x01 || type = 0x83 || type = 0x0c

/-- The flow control of one band, in the queue for band 0 and in a `qband` for the others. -/
structure Flow where
  /-- `q_count`, `qb_count` -/
  count : ℕ
  /-- `q_hiwat`, `qb_hiwat` -/
  hiwat : ℕ
  /-- `q_lowat`, `qb_lowat` -/
  lowat : ℕ
  /-- `QFULL`, `QB_FULL` -/
  full : Bool
  /-- `QWANTW`, `QB_WANTW` -/
  wantw : Bool
deriving Repr, DecidableEq

namespace Flow

/-- Nothing is queued. -/
def fresh (hiwat lowat : ℕ) : Flow := ⟨0, hiwat, lowat, false, false⟩

/-- Count the bytes of a message put on the queue. -/
def add (f : Flow) (size : ℕ) : Flow :=
  { f with count := f.count + size, full := f.full || decide (f.hiwat ≤ f.count + size) }

/-- Count the bytes of a message taken off the queue. -/
def sub (f : Flow) (size : ℕ) : Flow :=
  { f with count := f.count - size, full := f.full && !decide (f.count - size < f.hiwat) }

/-- What a flush does before it puts the messages back. -/
def zero (f : Flow) : Flow := { f with count := 0, full := false }

/-- The test for a back-enable. -/
def low (f : Flow) : Bool := decide (f.count < f.lowat) || decide (f.lowat = 0)

def due (f : Flow) : Bool := f.wantw && f.low

/-- Clear the want flag when a back-enable is due. -/
def release (f : Flow) : Flow := if f.due then { f with wantw := false } else f

def ask (f : Flow) : Flow := if f.full then { f with wantw := true } else f

end Flow

/-- A `qband`. -/
structure Qband where
  /-- `qb_first` -/
  first : Option ℕ
  /-- `qb_last` -/
  last : Option ℕ
  flow : Flow

/-- What an operation calls outside the queue. -/
inductive Call
  | qenable
  | backenable (pri : ℕ)
  | strwakeq
deriving DecidableEq, Repr

/-- A queue and the messages that were handed to it. -/
structure Queue where
  msg : ℕ → Msg
  /-- How many messages were handed to the queue; it bounds every walk along its links. -/
  made : ℕ
  /-- `b_next`, `b_prev`, `q_first` and `q_last` -/
  links : Doubly ℕ
  flow : Flow
  /-- `q_bandp` along `qb_next`; there are `q_nband` of them. -/
  bands : List Qband
  /-- `QWANTR` -/
  wantr : Bool
  /-- `QWANTWSYNC` -/
  wantwsync : Bool
  /-- `QNOENB` -/
  noenb : Bool

/-- The captured `wantw`: `QWANTW` (0x04) and `QWANTWSYNC` (0x80000) of the queue or `QB_WANTW`
(0x02) of a band, three different bits. -/
structure Want where
  qwantw : Bool
  qwantwsync : Bool
  qbwantw : Bool

/-- The bits captured for a band other than 0. -/
def Qband.wants (qb : Qband) : Want := ⟨false, false, qb.flow.wantw⟩

namespace Queue

/-- The bits captured for band 0. -/
def wants (q : Queue) : Want := ⟨q.flow.wantw, q.wantwsync, false⟩

/-- `q_nband` -/
def nband (q : Queue) : ℕ := q.bands.length

/-- A new `qband` has the marks of the queue. -/
def allocband (q : Queue) : Qband := ⟨none, none, .fresh q.flow.hiwat q.flow.lowat⟩

/-- Change the `qband` of a band. -/
def setBand (q : Queue) (band : ℕ) (change : Qband → Qband) : Queue :=
  { q with bands := q.bands.modify (band - 1) change }

/-! ### putq and putbq -/

/-- The sanity checks: a high priority message goes to band 0, and the `qband` exists. -/
def checkBand (q : Queue) (bp : ℕ) : Queue :=
  let m := q.msg bp
  if queclass m = qpctl then { q with msg := update q.msg bp { m with band := 0 } }
  else { q with bands := q.bands ++ List.replicate (m.band.val - q.nband) q.allocband }

/-- The place in front of a message; there is none behind the end. -/
def before (q : Queue) : Option ℕ → Option (Option ℕ × Option ℕ)
  | none => none
  | some tmp => some (q.links.prev tmp, some tmp)

/-- The loops of `putq` and `putbq` that look for a message to insert before. -/
def skip (q : Queue) (test : Msg → Bool) (tmp : Option ℕ) : Option ℕ :=
  q.links.walk (fun x => test (q.msg x)) (q.made + 1) tmp

/-- The neighbours between which `putq` puts a message. -/
def putqPlace (q : Queue) (bp : ℕ) : Option (Option ℕ × Option ℕ) :=
  let m := q.msg bp
  if q.links.first = none then some (none, none)
  else match q.links.last with
    | none => none
    | some last =>
      if m.band = 0 then
        if queclass m ≤ queclass (q.msg last) then some (some last, none)
        else q.before (q.skip (fun tmp => queclass m ≤ queclass tmp) q.links.first)
      else match q.bands[m.band.val - 1]? with
        | none => none
        | some qb =>
          if qb.first = none then
            if queclass m < queclass (q.msg last) ∨ m.band ≤ (q.msg last).band then
              some (some last, none)
            else
              q.before (q.skip (fun tmp => m.band ≤ tmp.band)
                (q.skip (fun tmp => qpctl ≤ tmp.type.val) q.links.first))
          else match qb.last with
            | none => none
            | some tmp => some (some tmp, q.links.next tmp)

/-- The neighbours between which `putbq` puts a message. -/
def putbqPlace (q : Queue) (bp : ℕ) : Option (Option ℕ × Option ℕ) :=
  let m := q.msg bp
  -- the last two branches of the source: in front of the first message of no higher band
  let search : Option (Option ℕ × Option ℕ) :=
    match q.links.last with
    | none => none
    | some last =>
      if queclass m < queclass (q.msg last) ∨ m.band < (q.msg last).band then
        some (some last, none)
      else
        q.before (q.skip (fun tmp => m.band < tmp.band)
          (q.skip (fun tmp => qpctl ≤ tmp.type.val) q.links.first))
  if q.links.first = none ∨ queclass m = qpctl then some (none, q.links.first)
  else if m.band = 0 then search
  else match q.bands[m.band.val - 1]? with
    | none => none
    | some qb =>
      match qb.first with
      | none => search
      | some tmp => q.before (some tmp)

/-- Link a message in, count its bytes and move the ends of its band. -/
def enlist (q : Queue) (bp : ℕ) (place : Option ℕ × Option ℕ) (ends : Qband → Qband) : Queue :=
  let m := q.msg bp
  let q := { q with links := q.links.link place.1 bp place.2 }
  if m.band = 0 then { q with flow := q.flow.add m.size }
  else q.setBand m.band.val fun qb => { ends qb with flow := qb.flow.add m.size }

/-- Put a message on the queue, behind those of its band. -/
def putq (q : Queue) (bp : ℕ) : Option (Queue × List Call) :=
  let q := q.checkBand bp
  let m := q.msg bp
  match q.putqPlace bp with
  | none => none
  | some place =>
    let q' := q.enlist bp place fun qb =>
      { qb with
        first := if q.links.first = none ∨ qb.first = none then some bp else qb.first
        last := some bp }
    some (q', if qnorm < queclass m ∨ (!q.noenb && (q.wantr || decide (m.band ≠ 0))) then
      [.qenable] else [])

/-- Put a message back on the queue, in front of those of its band. -/
def putbq (q : Queue) (bp : ℕ) : Option (Queue × List Call) :=
  let q := q.checkBand bp
  let m := q.msg bp
  match q.putbqPlace bp with
  | none => none
  | some place =>
    let q' := q.enlist bp place fun qb =>
      { qb with
        first := some bp
        last := if q.links.first = none ∨ qb.first = none then some bp else qb.last }
    some (q', if qnorm < queclass m ∨ (!q.noenb && q.wantr) then [.qenable] else [])

/-! ### getq and rmvq -/

/-- The end of `getq` and `rmvq`: wake the stream head, and back-enable the band. -/
def handoff (q : Queue) (band : ℕ) (wantw : Want) (wake backenab : Bool) : Queue × List Call :=
  let sync := wake && wantw.qwantwsync
  let back := backenab && (wantw.qwantw || wantw.qbwantw)
  let q := if sync then { q with wantwsync := false } else q
  let q :=
    if back then
      if band = 0 then { q with flow := { q.flow with wantw := false } }
      else q.setBand band fun qb => { qb with flow := { qb.flow with wantw := false } }
    else q
  (q, (if sync then [.strwakeq] else []) ++ (if back then [.backenable band] else []))

/-- A neighbour, when it is a message of the band. -/
def within (q : Queue) (band : Fin 256) (x : Option ℕ) : Option ℕ :=
  x.filter fun y => (q.msg y).band = band

/-- Remove a message from the queue. -/
def rmvq (q : Queue) (mp : ℕ) : Option (Queue × List Call) :=
  let m := q.msg mp
  let prev := q.links.prev mp
  let next := q.links.next mp
  let links := q.links.unlink prev mp next
  if m.band = 0 then
    let flow := q.flow.sub m.size
    some (handoff { q with links, flow } 0 q.wants (decide (flow.count < flow.hiwat)) flow.low)
  else match q.bands[m.band.val - 1]? with
    | none => none
    | some qb =>
      let flow := qb.flow.sub m.size
      let q' := { q with links }.setBand m.band.val fun qb =>
        { first := if qb.first = some mp then q.within m.band next else qb.first
          last := if qb.last = some mp then q.within m.band prev else qb.last
          flow }
      some (handoff q' m.band.val qb.wants false flow.low)

/-- Take the first message off the queue. -/
def getq (q : Queue) : Option (Option ℕ × Queue × List Call) :=
  match q.links.first with
  | none => some (none, handoff { q with wantr := true } 0 q.wants true q.flow.low)
  | some bp =>
    let m := q.msg bp
    if m.noget then
      match q.skip (fun tmp => tmp.noget) (some bp) with
      | none => some (none, q, [])
      | some mp => (q.rmvq mp).map fun result => (some mp, result)
    else
      let next := q.links.next bp
      let links := q.links.unlink none bp next
      if m.band = 0 then
        let flow := q.flow.sub m.size
        some (some bp, handoff { q with links, flow, wantr := false } 0 q.wants
          (decide (flow.count < flow.hiwat)) flow.low)
      else match q.bands[m.band.val - 1]? with
        | none => none
        | some qb =>
          let flow := qb.flow.sub m.size
          let q' := { q with links, wantr := false }.setBand m.band.val fun qb =>
            if qb.first = qb.last then ⟨none, none, flow⟩ else ⟨next, qb.last, flow⟩
          some (some bp, handoff q' m.band.val qb.wants false flow.low)

/-! ### flushq and flushband -/

/-- A flush starts with an empty queue; the messages stay linked to one another. -/
def cleared (q : Queue) : Queue :=
  { q with
    links := { q.links with first := none, last := none }
    flow := q.flow.zero
    bands := q.bands.map fun qb => ⟨none, none, qb.flow.zero⟩ }

/-- Free each message of the old queue or put it back. -/
def rebuild (drop : Msg → Bool) : ℕ → Queue → Option ℕ → Option (Queue × List Call)
  | 0, _, _ => none
  | _ + 1, q, none => some (q, [])
  | fuel + 1, q, some mp =>
    let nmp := q.links.next mp
    let links := { q.links with
      next := update q.links.next mp none
      prev := update q.links.prev mp none }
    let q := { q with links }
    if drop (q.msg mp) then rebuild drop fuel q nmp
    else match q.putq mp with
      | none => none
      | some (q, calls) => (rebuild drop fuel q nmp).map fun (q, later) => (q, calls ++ later)

/-- The bands that a flush back-enables, the highest first. -/
def dueBands (q : Queue) : List Call :=
  (((List.range q.nband).filter fun i => q.bands[i]?.any fun qb => qb.flow.due).reverse.map
    fun i => .backenable (i + 1)) ++ (if q.flow.due then [.backenable 0] else [])

/-- Empty a queue, of every message or of the data messages. -/
def flushq (q : Queue) (flag : Bool) : Option (Queue × List Call) :=
  if q.links.first = none then some (q, [])
  else match rebuild (fun m => flag || datamsg m.type) (q.made + 1) q.cleared q.links.first with
    | none => none
    | some (q, calls) =>
      some ({ q with
        flow := q.flow.release
        bands := q.bands.map fun qb => { qb with flow := qb.flow.release } },
        calls ++ q.dueBands)

/-- Remove a message of the band that is to be flushed. -/
def flushOne (q : Queue) (pri : Fin 256) (flag : Bool) (mp : ℕ) : Option (Queue × List Call) :=
  let m := q.msg mp
  if m.band = pri ∧ (flag || datamsg m.type) then q.rmvq mp else some (q, [])

/-- The loop of `flushband`, and the test after it of the message it stopped at. -/
def flushLoop (pri : Fin 256) (flag : Bool) (last : Option ℕ) :
    ℕ → Queue → Option ℕ → Option (Queue × List Call)
  | 0, _, _ => none
  | fuel + 1, q, mp =>
    if mp = last then
      match mp with
      | none => some (q, [])
      | some mp => q.flushOne pri flag mp
    else match mp with
      | none => none
      | some mp =>
        let nmp := q.links.next mp
        match q.flushOne pri flag mp with
        | none => none
        | some (q, calls) =>
          (flushLoop pri flag last fuel q nmp).map fun (q, later) => (q, calls ++ later)

def flushband (q : Queue) (pri : Fin 256) (flag : Bool) : Option (Queue × List Call) :=
  if q.nband < pri.val then some (q, [])
  else if pri = 0 then
    match rebuild (fun m => decide (m.band = 0) && (flag || datamsg m.type)) (q.made + 1) q.cleared
        q.links.first with
    | none => none
    | some (q, calls) =>
      some ({ q with flow := q.flow.release },
        calls ++ (if q.flow.due then [.backenable 0] else []))
  else match q.bands[pri.val - 1]? with
    | none => none
    | some qb =>
      match qb.first with
      | none => some (q, [])
      | some mp =>
        let last := if qb.last = some mp then q.links.next mp else qb.last
        flushLoop pri flag last (q.made + 1) q (some mp)

/-! ### canput and bcanput -/

/-- Whether band 0 has room; a refused writer is remembered. -/
def canput (q : Queue) : Bool × Queue := (!q.flow.full, { q with flow := q.flow.ask })

/-- Whether a band has room; a refused writer is remembered. -/
def bcanput (q : Queue) (pri : Fin 256) : Option (Bool × Queue) :=
  if pri = 0 then some q.canput
  else if q.nband < pri.val then some (true, q)
  else match q.bands[pri.val - 1]? with
    | none => none
    | some qb => some (!qb.flow.full, q.setBand pri.val fun qb => { qb with flow := qb.flow.ask })

end Queue

/-! ### Runs -/

/-- A call made on the queue. -/
inductive Event
  | putq (m : Msg)
  | putbq (m : Msg)
  | getq
  | rmvq (mp : ℕ)
  | flushq (flag : Bool)
  | flushband (pri : Fin 256) (flag : Bool)
  | canput
  | bcanput (pri : Fin 256)
deriving Repr

/-- What a call leaves behind. -/
structure Outcome where
  queue : Queue
  calls : List Call
  /-- The band for which a writer was refused. -/
  refusal : Option ℕ

namespace Queue

/-- A message that is about to be put on the queue. -/
def hand (q : Queue) (m : Msg) : Queue :=
  { q with msg := update q.msg q.made m, made := q.made + 1 }

/-- The messages on the queue. -/
def contents (q : Queue) : List ℕ := q.links.toList q.made q.links.first

/-- One call. -/
def act (q : Queue) : Event → Option Outcome
  | .putq m => ((q.hand m).putq q.made).map fun (q, calls) => ⟨q, calls, none⟩
  | .putbq m => ((q.hand m).putbq q.made).map fun (q, calls) => ⟨q, calls, none⟩
  | .getq => q.getq.map fun (_, q, calls) => ⟨q, calls, none⟩
  | .rmvq mp => (q.rmvq mp).map fun (q, calls) => ⟨q, calls, none⟩
  | .flushq flag => (q.flushq flag).map fun (q, calls) => ⟨q, calls, none⟩
  | .flushband pri flag => (q.flushband pri flag).map fun (q, calls) => ⟨q, calls, none⟩
  | .canput => some ⟨q.canput.2, [], if q.canput.1 then none else some 0⟩
  | .bcanput pri =>
    (q.bcanput pri).map fun (room, q) => ⟨q, [], if room then none else some pri.val⟩

/-- A call that the interface allows: a removed message is on the queue. -/
def Allowed (q : Queue) : Event → Prop
  | .rmvq mp => mp ∈ q.contents
  | _ => True

/-- A queue with no messages, with the marks of band 0 and of the bands it has. -/
def idle (hiwat lowat : ℕ) (marks : List (ℕ × ℕ)) (noenb : Bool) : Queue where
  msg := fun _ => ⟨0, 0, [], false⟩
  made := 0
  links := .empty
  flow := .fresh hiwat lowat
  bands := marks.map fun (hiwat, lowat) => ⟨none, none, .fresh hiwat lowat⟩
  wantr := false
  wantwsync := false
  noenb := noenb

end Queue

/-- A queue and what has happened to it. -/
structure History where
  queue : Queue
  /-- The messages that `putq` added. -/
  added : List ℕ
  /-- The bands for which a writer was refused since their last back-enable. -/
  refused : ℕ → Bool
  /-- The refused bands that have lost a message since the refusal. -/
  removed : ℕ → Bool

namespace History

/-- The history before the first call. -/
def start (q : Queue) : History := ⟨q, [], fun _ => false, fun _ => false⟩

/-- One more call. -/
def next (h : History) (event : Event) (out : Outcome) : History where
  queue := out.queue
  added := match event with
    | .putq _ => h.queue.made :: h.added
    | _ => h.added
  refused := fun band =>
    (h.refused band && !decide (.backenable band ∈ out.calls)) || decide (out.refusal = some band)
  removed := fun band =>
    h.refused band && (h.removed band || decide (∃ x ∈ h.queue.contents,
      (h.queue.msg x).band.val = band ∧ x ∉ out.queue.contents))

/-- The histories of a queue. -/
inductive Reachable (initial : Queue) : History → Prop
  | start : Reachable initial (start initial)
  | next {h : History} {event : Event} {out : Outcome} (earlier : Reachable initial h)
      (allowed : h.queue.Allowed event) (acts : h.queue.act event = some out) :
      Reachable initial (h.next event out)

end History

end Sol25.Streams
