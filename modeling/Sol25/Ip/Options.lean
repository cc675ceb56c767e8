import Mathlib.Algebra.Order.Ring.Int
import Mathlib.Data.List.Basic

/-!
# The options of an IP header

`ip_rput_options` looks over the options of a packet that comes in, `ip_rput_forward_options` brings
them up to date in a packet that is sent on and `ip_rput_local_options` in a packet for this host.
Memory is seen from the start of the header.
-/

namespace Sol25.Ip.Options

scoped instance neZero : NeZero 256 := ⟨by decide⟩

/-- Memory from the first byte of the header on. -/
abbrev Mem : Type := ℕ → Fin 256

/-- The byte at a place. -/
def num (m : Mem) (i : ℕ) : ℕ := (m i).val

/-- A word of 32 bits, most significant byte first. -/
def u32At (m : Mem) (i : ℕ) : ℕ :=
  ((num m i * 256 + num m (i + 1)) * 256 + num m (i + 2)) * 256 + num m (i + 3)

def bytesOf (x : ℕ) : List ℕ := [x / 16777216 % 256, x / 65536 % 256, x / 256 % 256, x % 256]

/-- The values of `opt[IPOPT_POS_VAL]` that are told apart. -/
inductive OptVal where
  | eol
  | nop
  | rr
  | it
  | lsrr
  | ssrr
  | other
  deriving DecidableEq, Repr

def optValOf : ℕ → OptVal
  | 0x00 => .eol
  | 0x01 => .nop
  | 0x07 => .rr
  | 0x44 => .it
  | 0x83 => .lsrr
  | 0x89 => .ssrr
  | _ => .other

/-- The low half of `opt[IPOPT_POS_OV_FLG]`; `spec` is `IPOPT_IT_SPEC` or `IPOPT_IT_SPEC_BSD`. -/
inductive ItFlag where
  | time
  | timeAddr
  | spec
  | other
  deriving DecidableEq, Repr

def itFlagOf (ovFlg : ℕ) : ItFlag :=
  match ovFlg &&& 0x0F with
  | 0 => .time
  | 1 => .timeAddr
  | 2 | 3 => .spec
  | _ => .other

/-- An option: where it starts and the length it is taken to have. -/
structure Opt where
  start : ℕ
  optlen : ℕ
  deriving DecidableEq, Repr

namespace Opt

/-- `opt[IPOPT_POS_VAL]`. -/
def val (p : Opt) (m : Mem) : OptVal := optValOf (num m p.start)

/-- `opt[IPOPT_POS_OFF]`. -/
def ptr (p : Opt) (m : Mem) : ℕ := num m (p.start + 2)

/-- `opt[IPOPT_POS_OV_FLG]`. -/
def ovFlg (p : Opt) (m : Mem) : ℕ := num m (p.start + 3)

def flag (p : Opt) (m : Mem) : ItFlag := itFlagOf (p.ovFlg m)

/-- `opt[IPOPT_POS_OFF] - 1` as an unsigned number. -/
def off (p : Opt) (m : Mem) : ℕ := (p.ptr m + (2 ^ 32 - 1)) % 2 ^ 32

/-- `opt + off`. -/
def place (p : Opt) (off : ℕ) : ℕ := (p.start + off) % 2 ^ 32

/-- The address the pointer of an option points to. -/
def listed (p : Opt) (m : Mem) : ℕ := u32At m (p.place (p.off m))

/-- The test for the end of a route: `optlen < IP_ADDR_LEN || off > optlen - IP_ADDR_LEN`. -/
def Full (p : Opt) (m : Mem) : Prop := p.optlen < 4 ∨ p.optlen - 4 < p.off m

instance (p : Opt) (m : Mem) : Decidable (p.Full m) :=
  inferInstanceAs (Decidable (_ ∨ _))

end Opt

/-- What the functions find outside the header.

`stale` is what is left in `off` of an option whose flag is none of the known ones. -/
structure Env where
  /-- `ire_lookup_myaddr`. -/
  myaddr : ℕ → Bool
  /-- `ire_lookup_interface`. -/
  interface : ℕ → Bool
  /-- `ip_forward_src_routed`. -/
  srcRouted : Bool
  /-- `ire->ire_src_addr`. -/
  srcAddr : ℕ
  timeInSecs : ℕ
  lboltMs : ℕ
  stale : ℕ → ℕ

/-- The number of milliseconds since midnight. -/
def Env.millis (env : Env) : ℕ := env.timeInSecs % (24 * 60 * 60) * 1000 + env.lboltMs % 1000

/-- A header at work, with the places that were written and the distance the pointer moved. -/
structure Work where
  mem : Mem
  dst : ℕ
  wrote : List ℕ
  moved : ℕ

namespace Work

/-- A header before any work. -/
def fresh (m : Mem) (dst : ℕ) : Work := ⟨m, dst, [], 0⟩

def put (w : Work) (i b : ℕ) : Work :=
  { w with mem := Function.update w.mem i (Fin.ofNat 256 b), wrote := i :: w.wrote }

/-- The bytes are written one behind the other. -/
def bcopy (w : Work) (i : ℕ) : List ℕ → Work
  | [] => w
  | b :: bytes => (w.put i b).bcopy (i + 1) bytes

/-- `opt[IPOPT_POS_OFF] += n`. -/
def advance (w : Work) (p : Opt) (n : ℕ) : Work :=
  { w.put (p.start + 2) (p.ptr w.mem + n) with moved := w.moved + n }

end Work

/-- An option of the header that was gone through: memory before it, and the work on it. -/
structure Step where
  opt : Opt
  before : Mem
  after : Work

/-- The walk along the options so far; the last option is the first one listed. -/
structure Walk where
  mem : Mem
  dst : ℕ
  steps : List Step

def Walk.step (r : Walk) (p : Opt) (work : Work → Work) : Walk :=
  let w := work (.fresh r.mem r.dst)
  ⟨w.mem, w.dst, ⟨p, r.mem, w⟩ :: r.steps⟩

/-- The length an option is taken to have: `IPOPT_NOP` is a single byte. -/
def optlenAt (m : Mem) (opt : ℕ) : ℕ :=
  if optValOf (num m opt) = .nop then 1 else num m (opt + 1)

section Loop

variable {σ ρ : Type}

/-- `while (totallen != 0)`: the options one after the other, up to the end of the list. -/
def optionLoop (mem : σ → Mem) (body : Opt → σ → ρ ⊕ σ) (bad : Opt → σ → ρ) (done : σ → ρ) :
    ℕ → ℕ → ℕ → σ → Option ρ
  | 0, _, _, _ => none
  | fuel + 1, totallen, opt, s =>
    if totallen = 0 then some (done s)
    else if optValOf (num (mem s) opt) = .eol then some (done s)
    else if optlenAt (mem s) opt = 0 ∨ totallen < optlenAt (mem s) opt then
      some (bad ⟨opt, optlenAt (mem s) opt⟩ s)
    else match body ⟨opt, optlenAt (mem s) opt⟩ s with
      | .inl res => some res
      | .inr s' => optionLoop mem body bad done fuel (totallen - optlenAt (mem s) opt)
          (opt + optlenAt (mem s) opt) s'

end Loop

/-- The length of the options: the words of the header beyond the simple one, in bytes. -/
def totallenOf (m : Mem) : ℕ := (num m 0 + (2 ^ 32 - 0x45)) % 2 ^ 32 * 4 % 2 ^ 32

/-- `ipha->ipha_dst`. -/
def iphaDst (m : Mem) : ℕ := u32At m 16

/-- Why a packet is not taken: `icmp_param_problem` with a place, or `icmp_unreachable`. -/
inductive Refused where
  | paramProb (code : ℕ)
  | badSrcRoute
  deriving DecidableEq, Repr

/-- A source route: the next hop is its next address if this host is the last one. -/
def rputSourceRoute (env : Env) (m : Mem) (p : Opt) (dst : ℕ) : Except Refused ℕ :=
  if env.myaddr dst = false then
    if p.val m = .ssrr then .error (.paramProb 16) else .ok dst
  else if p.ptr m < 4 then .error (.paramProb (p.start + 2))
  else if p.Full m then .ok dst
  else if p.val m = .ssrr ∧ env.interface (p.listed m) = false then .error .badSrcRoute
  else .ok (p.listed m)

/-- The room a time stamp needs. -/
def rputStampLen : ItFlag → Option ℕ
  | .time => some 4
  | .timeAddr | .spec => some (4 + 4)
  | .other => none

def rputTimestamp (m : Mem) (p : Opt) (dst : ℕ) : Except Refused ℕ :=
  if p.optlen < 5 then .error (.paramProb (p.start + 1))
  else match rputStampLen (p.flag m) with
    | none => .error (.paramProb (p.start + 3))
    | some len =>
      if p.optlen < (p.off m + len) % 2 ^ 32 ∧ p.ovFlg m &&& 0xF0 = 0xF0 then
        .error (.paramProb (p.start + 1))
      else if p.ptr m < 5 then .error (.paramProb (p.start + 2))
      else .ok dst

def rputOption (env : Env) (m : Mem) (p : Opt) (dst : ℕ) : Except Refused ℕ :=
  match p.val m with
  | .ssrr | .lsrr => rputSourceRoute env m p dst
  | .rr => if p.ptr m < 4 then .error (.paramProb (p.start + 2)) else .ok dst
  | .it => rputTimestamp m p dst
  | .eol | .nop | .other => .ok dst

/-- One option of a packet that comes in. -/
def rputStep (env : Env) (m : Mem) (p : Opt) (dst : ℕ) : Except Refused ℕ ⊕ ℕ :=
  match rputOption env m p dst with
  | .error refused => .inl (.error refused)
  | .ok dst => .inr dst

def rputLoop (env : Env) (m : Mem) : ℕ → ℕ → ℕ → ℕ → Option (Except Refused ℕ) :=
  optionLoop (fun _ => m) (rputStep env m) (fun p _ => .error (.paramProb (p.start + 1))) .ok

/-- `ip_rput_options`: the next hop of a packet, or why it is not taken. -/
def ipRputOptions (env : Env) (m : Mem) : Option (Except Refused ℕ) :=
  rputLoop env m (totallenOf m + 1) (totallenOf m) 20 (iphaDst m)

/-- A source route of a packet that is sent on. -/
def forwardSourceRoute (env : Env) (p : Opt) (w : Work) : Work :=
  if env.myaddr w.dst = false then w
  else if p.Full w.mem then w
  else
    let off := p.off w.mem
    let dst := p.listed w.mem
    (({ w with dst := dst }.bcopy (p.place off) (bytesOf env.srcAddr)).bcopy 16
      (bytesOf dst)).advance p 4

def recordRoute (env : Env) (p : Opt) (w : Work) : Work :=
  if p.Full w.mem then w
  else (w.bcopy (p.place (p.off w.mem)) (bytesOf env.srcAddr)).advance p 4

/-- The `IPOPT_IT_TIME` case: the time is written. -/
def stampTime (env : Env) (p : Opt) (w : Work) : Work :=
  (w.bcopy (p.place (p.off w.mem)) (bytesOf env.millis)).advance p 4

/-- The first `switch` of a time stamp: the room that is asked for.

A listed address that is not ours only leaves the `switch`, with `off` the place of the address. -/
def stampRoom (env : Env) (p : Opt) (w : Work) : ℕ × Work :=
  match p.flag w.mem with
  | .time => (4, w)
  | .timeAddr => (4 + 4, w)
  | .spec =>
    let w := { w with dst := p.listed w.mem }
    if env.myaddr w.dst = false then (p.off w.mem, w) else (4 + 4, w)
  | .other => (env.stale p.start, w)

/-- A time stamp, if there is room. -/
def timestamp (env : Env) (p : Opt) (w : Work) : Work :=
  match stampRoom env p w with
  | (room, w) =>
    if p.optlen < (p.off w.mem + room) % 2 ^ 32 then
      w.put (p.start + 3) (p.ovFlg w.mem &&& 0x0F ||| (p.ovFlg w.mem / 16 + 1) * 16)
    else match p.flag w.mem with
      | .timeAddr | .spec =>
        stampTime env p
          ((w.bcopy (p.place (p.off w.mem)) (bytesOf env.srcAddr)).advance p 4)
      | .time => stampTime env p w
      | .other => w

/-- One option of a packet that is sent on. -/
def forwardOption (env : Env) (p : Opt) (r : Walk) : (ℤ × Walk) ⊕ Walk :=
  match p.val r.mem with
  | .ssrr | .lsrr =>
    if env.srcRouted = false then .inl (-1, r)
    else .inr (r.step p (forwardSourceRoute env p))
  | .rr => .inr (r.step p (recordRoute env p))
  | .it => .inr (r.step p (timestamp env p))
  | .eol | .nop | .other => .inr (r.step p id)

/-- The loop of the two functions that bring the options up to date. -/
def walkLoop (body : Opt → Walk → (ℤ × Walk) ⊕ Walk) : ℕ → ℕ → ℕ → Walk → Option (ℤ × Walk) :=
  optionLoop Walk.mem body (fun _ r => (0, r)) fun r => (0, r)

def ipRputForwardOptions (env : Env) (m : Mem) : Option (ℤ × Walk) :=
  walkLoop (forwardOption env) (totallenOf m + 1) (totallenOf m) 20 ⟨m, iphaDst m, []⟩

/-- The rest of a loose source route is cut off. -/
def truncateRoute (p : Opt) (w : Work) : Work :=
  if p.Full w.mem then w
  else
    let off := p.off w.mem
    (w.bcopy (p.place off) (List.replicate (p.optlen - off) 0)).put (p.start + 1) off

/-- One option of a packet for this host. -/
def localOption (env : Env) (p : Opt) (r : Walk) : (ℤ × Walk) ⊕ Walk :=
  match p.val r.mem with
  | .ssrr => if p.Full r.mem then .inr (r.step p id) else .inl (-1, r)
  | .lsrr => .inr (r.step p (truncateRoute p))
  | .rr => .inr (r.step p (recordRoute env p))
  | .it => .inr (r.step p (timestamp env p))
  | .eol | .nop | .other => .inr (r.step p id)

/-- `ip_rput_local_options`; `junk` is what is in `dst` at its start. -/
def ipRputLocalOptions (env : Env) (junk : ℕ) (m : Mem) : Option (ℤ × Walk) :=
  walkLoop (localOption env) (totallenOf m + 1) (totallenOf m) 20 ⟨m, junk, []⟩

end Sol25.Ip.Options
