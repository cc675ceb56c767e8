import Sol25.Data.Digits

/-!
# Multiple-precision integers

The arithmetic of `lib/libmp` (`madd.c`, `mult.c`, `mdiv.c`, `mout.c`, `util.c`) on integers with
digits of fifteen bits. Every access outside an array, and every result that does not fit a `long`,
gives `none`.
-/

namespace Sol25.Libmp

open Digits Function

def base : ℤ := 0o100000

/-- A value as it is stored in a `short`. -/
def toShort (x : ℤ) : ℤ := (x + base) % (2 * base) - base

/-- A value of type `long`. -/
def long (x : ℤ) : Option ℤ := if -2 ^ 31 ≤ x ∧ x < 2 ^ 31 then some x else none

/-- `x & 077777`. -/
def low15 (x : ℤ) : ℤ := x % base

/-- `x >> 15`.  The code sets the high bits for a negative value, which a shift of a signed value
has done already. -/
def shift15 (x : ℤ) : ℤ := x / base

/-- `x & 0100000`. -/
def bit15 (x : ℤ) : Bool := decide (x / base % 2 = 1)

/-- A `MINT`: the number of digits with the sign, and the array of the digits, lowest first. -/
structure Mint where
  len : ℤ
  val : List ℤ
  deriving DecidableEq, Repr

def xfree : Mint := ⟨0, []⟩

/-- `xalloc`, of an array with something in it. -/
def xalloc (junk : ℤ) (nint : ℤ) : List ℤ := List.replicate (nint.toNat + 2) junk

def write (v : List ℤ) (i : ℤ) (x : ℤ) : Option (List ℤ) :=
  if 0 ≤ i ∧ i.toNat < v.length then some (v.set i.toNat (toShort x)) else none

def mpMove (junk : ℤ) (a : Mint) : Option Mint :=
  if a.len = 0 then some xfree
  else
    (sweep (fun i _ carry => a.val[i]?.map fun d => (d, carry)) a.len.natAbs 0 0
      (xalloc junk a.len.natAbs) 0).map
      fun r => ⟨a.len, r.1⟩

/-- The loop of `_mp_mcan`, from a number of digits down. -/
def canLen (val : List ℤ) : ℕ → Option ℕ
  | 0 => some 0
  | j + 1 =>
    match val[j]? with
    | none => none
    | some d => if d = 0 then canLen val j else some (j + 1)

def mpMcan (a : Mint) : Option Mint :=
  if a.len = 0 then some a
  else
    (canLen a.val a.len.natAbs).map fun (j : ℕ) =>
      if j = 0 then xfree else if 0 < a.len then { a with len := j } else { a with len := -j }

/-! ### Sums and differences -/

/-- One step of the first loop of `m_add`. -/
def addStep (a b : List ℤ) (i : ℕ) (_ carry : ℤ) : Option (ℤ × ℤ) :=
  match a[i]?, b[i]? with
  | some d, some d' =>
    let x := carry + d + d'
    if bit15 x then some (toShort (low15 x), 1) else some (toShort x, 0)
  | _, _ => none

/-- One step of the second loop of `m_add`. -/
def addCarry (a : List ℤ) (i : ℕ) (_ carry : ℤ) : Option (ℤ × ℤ) :=
  match a[i]? with
  | some d =>
    let x := carry + d
    if bit15 x then some (toShort (low15 x), carry) else some (toShort x, 0)
  | none => none

def mAdd (junk : ℤ) (a b : Mint) : Option Mint :=
  match sweep (addStep a.val b.val) b.len.toNat 0 0 (xalloc junk (a.len + 1)) 0 with
  | none => none
  | some (cval, carry) =>
    match sweep (addCarry a.val) (a.len - b.len).toNat b.len.toNat b.len.toNat cval carry with
    | none => none
    | some (cval, carry) =>
      if carry = 1 then (write cval a.len 1).map fun cval => ⟨a.len + 1, cval⟩
      else if a.len = 0 then some xfree
      else some ⟨a.len, cval⟩

/-- One step of the first loop of `m_sub`. -/
def subStep (a b : List ℤ) (i : ℕ) (_ borrow : ℤ) : Option (ℤ × ℤ) :=
  match a[i]?, b[i]? with
  | some d, some d' =>
    let x := borrow + d - d'
    if bit15 x then some (toShort (low15 x), -1) else some (toShort x, 0)
  | _, _ => none

/-- One step of the second loop of `m_sub`. -/
def subBorrow (a : List ℤ) (i : ℕ) (_ borrow : ℤ) : Option (ℤ × ℤ) :=
  match a[i]? with
  | some d =>
    let x := borrow + d
    if bit15 x then some (toShort (low15 x), borrow) else some (toShort x, 0)
  | none => none

/-- `c->val[i] ^= 077777`. -/
def xorStep (_ : ℕ) (old carry : ℤ) : Option (ℤ × ℤ) :=
  some (toShort ((old.toNat ^^^ 0o77777 : ℕ) : ℤ), carry)

/-- The last loop of `m_sub`: the number of digits below the highest one that is positive. -/
def topLen (val : List ℤ) : ℕ → Option ℕ
  | 0 => some 0
  | i + 1 =>
    match val[i]? with
    | none => none
    | some d => if 0 < d then some (i + 1) else topLen val i

/-- `m_sub` up to the borrow that is left over. -/
def subLoops (junk : ℤ) (a b : Mint) : Option (List ℤ × ℤ) :=
  match sweep (subStep a.val b.val) b.len.toNat 0 0 (xalloc junk a.len) 0 with
  | none => none
  | some (cval, borrow) =>
    sweep (subBorrow a.val) (a.len - b.len).toNat b.len.toNat b.len.toNat cval borrow

/-- The end of `m_sub`, for a result that was freed before. -/
def subEnd (alen : ℤ) (borrow : ℤ) (val : List ℤ) : Option Mint :=
  (topLen val alen.toNat).map fun (n : ℕ) =>
    if n = 0 then xfree else if borrow = 0 then ⟨n, val⟩ else ⟨-n, val⟩

def signed (sign : ℤ) (c : Mint) : Mint := { c with len := sign * c.len }

mutual

/-- `madd`, with the result in its own place.  The number is for the calls in calls. -/
def madd (junk : ℤ) : ℕ → Mint → Mint → Option Mint
  | 0, _, _ => none
  | fuel + 1, a, b =>
    match mpMove junk a, mpMove junk b with
    | some x, some y =>
      if 0 ≤ x.len then
        if 0 ≤ y.len then
          if y.len ≤ x.len then mAdd junk x y else mAdd junk y x
        else msub junk fuel x { y with len := -y.len }
      else if y.len ≤ 0 then
        (madd junk fuel { x with len := -x.len } { y with len := -y.len }).map (signed (-1))
      else msub junk fuel y { x with len := -x.len }
    | _, _ => none

def mSub (junk : ℤ) : ℕ → Mint → Mint → Option Mint
  | 0, _, _ => none
  | fuel + 1, a, b =>
    match subLoops junk a b with
    | none => none
    | some (cval, borrow) =>
      if borrow < 0 then
        match sweep xorStep a.len.toNat 0 0 cval 0 with
        | none => none
        | some (cval, _) =>
          match madd junk fuel ⟨a.len, cval⟩ ⟨1, [1]⟩ with
          | none => none
          | some c => subEnd a.len borrow c.val
      else subEnd a.len borrow cval

/-- `msub`, with the result in its own place. -/
def msub (junk : ℤ) : ℕ → Mint → Mint → Option Mint
  | 0, _, _ => none
  | fuel + 1, a, b =>
    match mpMove junk a, mpMove junk b with
    | some x, some y =>
      if 0 ≤ x.len then
        if 0 ≤ y.len then
          if y.len ≤ x.len then mSub junk fuel x y else (msub junk fuel y x).map (signed (-1))
        else madd junk fuel x { y with len := -y.len }
      else if y.len ≤ 0 then msub junk fuel { y with len := -y.len } { x with len := -x.len }
      else (madd junk fuel { x with len := -x.len } y).map (signed (-1))
    | _, _ => none

end

/-- Calls in calls: a sum with a difference in it, turned around, with a sum in it again. -/
def depth : ℕ := 6

/-! ### Products -/

/-- One step of the inner loops of `m_mult`; the first time round the product is not there yet. -/
def multStep (first : Bool) (a : List ℤ) (bcache : ℤ) (i : ℕ) (old sum : ℤ) : Option (ℤ × ℤ) :=
  match a[i]? with
  | none => none
  | some d =>
    match long (d * bcache) with
    | none => none
    | some product =>
      match if first then some product else long (product + old) with
      | none => none
      | some term => (long (sum + term)).map fun sum => (toShort (low15 sum), shift15 sum)

/-- One row of the product, with its highest digit. -/
def multRow (first : Bool) (a : List ℤ) (alen : ℕ) (bcache : ℤ) (j : ℕ)
    (c : List ℤ) : Option (List ℤ) :=
  match sweep (multStep first a bcache) alen 0 j c 0 with
  | none => none
  | some (c, sum) => write c (j + alen : ℕ) sum

/-- The outer loop of `m_mult`. -/
def multRows (a : List ℤ) (alen : ℕ) (b : List ℤ) : ℕ → ℕ → List ℤ → Option (List ℤ)
  | 0, _, c => some c
  | k + 1, j, c =>
    match b[j]? with
    | none => none
    | some bcache =>
      match multRow false a alen bcache j c with
      | none => none
      | some c => multRows a alen b k (j + 1) c

def mMult (junk : ℤ) (a b : Mint) : Option Mint :=
  match b.val[0]? with
  | none => none
  | some bcache =>
    match multRow true a.val a.len.toNat bcache 0 (xalloc junk (a.len + b.len)) with
    | none => none
    | some c =>
      match multRows a.val a.len.toNat b.val (b.len.toNat - 1) 1 c with
      | none => none
      | some c =>
        match (c)[(a.len + b.len).toNat - 1]? with
        | none => none
        | some top => if top = 0 then some ⟨a.len + b.len - 1, c⟩ else some ⟨a.len + b.len, c⟩

/-- `mult` of two operands that are stripped of leading zeroes. -/
def multCan (junk : ℤ) (a b : Mint) : Option Mint :=
  if a.len = 0 ∨ b.len = 0 then some xfree
  else
    match mpMove junk a, mpMove junk b with
    | some x, some y =>
      let x := { x with len := x.len.natAbs }
      let y := { y with len := y.len.natAbs }
      let sign := a.len.sign * b.len.sign
      (if x.len < y.len then mMult junk x y else mMult junk y x).map fun c =>
        let c := if sign < 0 then { c with len := -c.len } else c
        if c.len = 0 then xfree else c
    | _, _ => none

/-- `mult`, with the result in its own place: the operands, stripped of leading zeroes, and the
product. -/
def mult (junk : ℤ) (a b : Mint) : Option (Mint × Mint × Mint) :=
  match mpMcan a, mpMcan b with
  | some a, some b => (multCan junk a b).map fun c => (a, b, c)
  | _, _ => none

/-! ### Quotients -/

/-- The loop of `s_div`, from a number of digits down. -/
def sdivLoop (a : List ℤ) (n : ℤ) : ℕ → ℤ → List ℤ → Option (List ℤ × ℤ)
  | 0, x, q => some (q, x)
  | i + 1, x, q =>
    match a[i]? with
    | none => none
    | some d =>
      match (long (x * base)).bind fun shifted => long (shifted + d) with
      | none => none
      | some x =>
        match write q i (x.tdiv n) with
        | none => none
        | some q => sdivLoop a n i (x.tmod n) q

/-- `s_div`: the quotient and the remainder. -/
def sDiv (junk : ℤ) (a : Mint) (n : ℤ) : Option (Mint × ℤ) :=
  match sdivLoop a.val n a.len.toNat 0 (xalloc junk a.len) with
  | none => none
  | some (q, x) =>
    if a.len = 0 then some (xfree, toShort x)
    else
      match q[a.len.toNat - 1]? with
      | none => none
      | some top =>
        let qlen := if top = 0 then a.len - 1 else a.len
        some (if qlen = 0 then xfree else ⟨qlen, q⟩, toShort x)

def sdiv (junk : ℤ) (a : Mint) (n : ℤ) : Option (Mint × ℤ) :=
  let sign := (if n < 0 then -1 else 1) * (if a.len < 0 then -1 else 1)
  let n := if n < 0 then toShort (-n) else n
  (sDiv junk { a with len := a.len.natAbs } n).map fun r => (signed sign r.1, toShort (r.2 * sign))

/-- One step of the first loop of `m_dsb`. -/
def dsbTake (qx : ℤ) (a : List ℤ) (i : ℕ) (old borrow : ℤ) : Option (ℤ × ℤ) :=
  match a[i]? with
  | none => none
  | some d =>
    match (long (d * qx)).bind fun product => (long (product - old)).bind fun term =>
      long (borrow - term) with
    | none => none
    | some borrow => some (toShort (low15 borrow), shift15 borrow)

/-- One step of the second loop of `m_dsb`. -/
def dsbAdd (a : List ℤ) (i : ℕ) (old borrow : ℤ) : Option (ℤ × ℤ) :=
  match a[i]? with
  | none => none
  | some d => (long (borrow + (d + old))).map fun borrow => (toShort (low15 borrow), shift15 borrow)

/-- `m_dsb`: a multiple of some digits is taken away from a part of others; whether it was one too
many. -/
def mDsb (qx : ℤ) (n : ℕ) (a : List ℤ) (place : ℕ) (b : List ℤ) : Option (List ℤ × Bool) :=
  match sweep (dsbTake qx a) n 0 place b 0 with
  | none => none
  | some (b, borrow) =>
    match b[place + n]? with
    | none => none
    | some top =>
      match long (borrow + top) with
      | none => none
      | some borrow =>
        match write b (place + n : ℕ) (low15 borrow) with
        | none => none
        | some b =>
          if shift15 borrow = 0 then some (b, false)
          else (sweep (dsbAdd a) n 0 place b 0).map fun r => (r.1, true)

/-- The loop of `m_trq`, from a trial quotient down. -/
def trqLoop (v1 v2 c1 u3 : ℤ) : ℕ → ℤ → Option ℤ
  | 0, _ => none
  | fuel + 1, d =>
    match (long (v1 * d)).bind fun m => long (c1 - m) with
    | none => none
    | some x1 =>
      match (long (x1 * base)).bind fun x => (long (x + u3)).bind fun x =>
          (long (v2 * d)).bind fun m =>
        long (x - m) with
      | none => none
      | some x1 => if x1 < 0 then trqLoop v1 v2 c1 u3 fuel (toShort (d - 1)) else
          some (toShort (d - 1) + 1)

/-- `m_trq`.  The loop goes round at most once for each quotient. -/
def mTrq (v1 v2 u1 u2 u3 : ℤ) : Option ℤ :=
  match (long (u1 * base)).bind fun x => long (x + u2) with
  | none => none
  | some c1 =>
    let d := if u1 = v1 then 0o77777 else toShort (c1.tdiv v1)
    trqLoop v1 v2 c1 u3 (d.toNat + 1) d

/-- The loop of `m_div` over the digits of the quotient, from a number of them down. -/
def divLoop (n : ℕ) (v : List ℤ) (v1 v2 : ℤ) : ℕ → List ℤ → List ℤ → Option (List ℤ × List ℤ)
  | 0, u, q => some (u, q)
  | j + 1, u, q =>
    match u[j + n]?, u[j + n - 1]?, u[j + n - 2]? with
    | some u1, some u2, some u3 =>
      match mTrq v1 v2 u1 u2 u3 with
      | none => none
      | some qq =>
        match mDsb (toShort qq) n v j u with
        | none => none
        | some (u, back) =>
          match write q j (if back then qq - 1 else qq) with
          | none => none
          | some q => divLoop n v v1 v2 j u q
    | _, _, _ => none

/-- `m_div`, of divisors with two digits or more that are not longer than the dividend. -/
def longDiv (junk : ℤ) (a b : Mint) : Option (Mint × Mint) :=
  let n := b.len.toNat
  match b.val[n - 1]? with
  | none => none
  | some top =>
    let d := toShort (base.tdiv (top + 1))
    match mult junk a ⟨1, [d]⟩, mult junk b ⟨1, [d]⟩ with
    | some (a, _, u), some (_, _, v) =>
      match v.val[n - 1]?, v.val[n - 2]? with
      | some v1, some v2 =>
        let k := (a.len - n + 1).toNat
        match divLoop n v.val v1 v2 k u.val (xalloc junk (a.len - n + 1)) with
        | none => none
        | some (uval, qval) =>
          match mpMcan ⟨n, uval⟩ with
          | none => none
          | some x =>
            match sdiv junk x d, qval[k - 1]? with
            | some (w, _), some top =>
              let qlen := if top = 0 then k - 1 else k
              some (if qlen = 0 then xfree else ⟨qlen, qval⟩, w)
            | _, _ => none
      | _, _ => none
    | _, _ => none

/-- `m_div`: the quotient and the remainder.  Nothing comes back from a division by zero. -/
def mDiv (junk : ℤ) (a b : Mint) : Option (Mint × Mint) :=
  if b.len = 0 then none
  else if b.len = 1 then
    match b.val[0]? with
    | none => none
    | some n => (sdiv junk a n).map fun r => (r.1, if r.2 = 0 then xfree else ⟨1, [r.2]⟩)
  else if a.len < b.len then (mpMove junk a).map fun r => (xfree, r)
  else longDiv junk a b

/-- `mdiv`, with the results in their own places. -/
def mdiv (junk : ℤ) (a b : Mint) : Option (Mint × Mint) :=
  match mpMove junk a, mpMove junk b with
  | some x, some y =>
    let sign := (if x.len < 0 then -1 else 1) * (if y.len < 0 then -1 else 1)
    (mDiv junk { x with len := x.len.natAbs } { y with len := y.len.natAbs }).map fun r =>
      if sign = -1 then (signed (-1) r.1, signed (-1) r.2) else r
  | _, _ => none

/-! ### Variables -/

/-- The variables that operands and results are in; the same one may be named more than once. -/
abbrev Store := ℕ → Mint

/-- `madd` on variables. -/
def maddAt (junk : ℤ) (s : Store) (a b c : ℕ) : Option Store :=
  (madd junk depth (s a) (s b)).map fun r => update s c r

/-- `msub` on variables. -/
def msubAt (junk : ℤ) (s : Store) (a b c : ℕ) : Option Store :=
  (msub junk depth (s a) (s b)).map fun r => update s c r

/-- `_mp_mcan` on a variable. -/
def mpMcanAt (s : Store) (a : ℕ) : Option Store := (mpMcan (s a)).map fun r => update s a r

/-- `mult` on variables. -/
def multAt (junk : ℤ) (s : Store) (a b c : ℕ) : Option Store :=
  ((mpMcanAt s a).bind fun s => mpMcanAt s b).bind fun s =>
    (multCan junk (s a) (s b)).map fun r => update s c r

/-- `mcmp` on variables: what it returns. -/
def mcmpAt (junk : ℤ) (s : Store) (a b : ℕ) : Option ℤ :=
  ((mpMcanAt s a).bind fun s => mpMcanAt s b).bind fun s =>
    if (s a).len ≠ (s b).len then some ((s a).len - (s b).len)
    else (msub junk depth (s a) (s b)).map Mint.len

/-- `mdiv` on variables. -/
def mdivAt (junk : ℤ) (s : Store) (a b q r : ℕ) : Option Store :=
  (mdiv junk (s a) (s b)).map fun results => update (update s q results.1) r results.2

end Sol25.Libmp
