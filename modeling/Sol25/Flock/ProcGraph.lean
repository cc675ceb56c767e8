import Sol25.Flock.Types
import Sol25.Graph.Search

/-!
# The process graph

`pgraph`: one vertex for each owner that waits or is waited for, in any of the lock graphs, with an
edge from the waiting owner to the other that counts the lock edges between them. Vertices are named
by their slot in `pgraph.proc`.
-/

namespace Sol25

namespace Flock

/-- `struct proc_vertex` -/
structure ProcVertex where
  /-- `pid` and `sysid` -/
  owner : Owner
  /-- `edge`: the slot an edge leads to (`to_proc`) and its `refcount` -/
  edges : List (ℕ × ℕ)
  /-- `incount`, the number of edges that lead here -/
  incount : ℕ
deriving DecidableEq, Repr

/-- `struct proc_graph`; `gcount` is the length of `proc`. -/
structure ProcGraph where
  /-- `proc`, the slots -/
  proc : List (Option ProcVertex)
  /-- `free`, the number of unused slots -/
  free : ℕ
deriving DecidableEq, Repr

def procChunk : ℕ := 100

namespace ProcGraph

/-- The graph before the first lock request. -/
def empty : ProcGraph := ⟨[], 0⟩

def vertex (pg : ProcGraph) (slot : ℕ) : Option ProcVertex := pg.proc[slot]?.join

/-- Store into a slot. -/
def put (pg : ProcGraph) (slot : ℕ) (content : Option ProcVertex) : ProcGraph :=
  { pg with proc := pg.proc.set slot content }

/-- `PROC_SAME_OWNER` on the content of a slot -/
def ownedBy (owner : Owner) (content : Option ProcVertex) : Bool :=
  content.any fun v => v.owner = owner

/-- `flk_get_proc_vertex`: the slot of an owner's vertex, allocated when there is none; `pvertex` is
the slot the lock remembers. -/
def getProcVertex (pg : ProcGraph) (pvertex : Option ℕ) (owner : Owner) : ℕ × ProcGraph :=
  match pvertex.filter fun i => pg.proc[i]?.any (ownedBy owner) with
  | some i => (i, pg)
  | none =>
    match pg.proc.findIdx? (ownedBy owner) with
    | some i => (i, pg)
    | none =>
      let pv : ProcVertex := ⟨owner, [], 0⟩
      match if pg.free ≠ 0 then pg.proc.findIdx? Option.isNone else none with
      | some i => (i, { pg.put i (some pv) with free := pg.free - 1 })
      | none => (pg.proc.length, ⟨pg.proc ++ some pv :: List.replicate (procChunk - 1) none,
          pg.free + (procChunk - 1)⟩)

/-- The refcount of the edge to a slot, 0 when there is none. -/
def refOf : List (ℕ × ℕ) → ℕ → ℕ
  | [], _ => 0
  | (k, n) :: rest, slot => if k = slot then n else refOf rest slot

/-- Raise the refcount of the edge to a slot, if there is one. -/
def raise (slot : ℕ) : List (ℕ × ℕ) → Option (List (ℕ × ℕ))
  | [] => none
  | (k, n) :: rest =>
    if k = slot then some ((k, n + 1) :: rest) else (raise slot rest).map ((k, n) :: ·)

/-- Lower the refcount of the edge to a slot and unlink the edge when it reaches 0. -/
def lower (slot : ℕ) : List (ℕ × ℕ) → List (ℕ × ℕ)
  | [] => []
  | (k, n) :: rest =>
    if k = slot then if n - 1 = 0 then rest else (k, n - 1) :: rest
    else (k, n) :: lower slot rest

/-- Change the vertex in a slot. -/
def modify (pg : ProcGraph) (slot : ℕ) (change : ProcVertex → ProcVertex) : ProcGraph :=
  match pg.vertex slot with
  | none => pg
  | some v => pg.put slot (some (change v))

/-- `flk_proc_release`: a vertex without edges is freed. -/
def procRelease (pg : ProcGraph) (slot : ℕ) : ProcGraph :=
  match pg.vertex slot with
  | none => pg
  | some v =>
    if v.edges = [] ∧ v.incount = 0 then { pg.put slot none with free := pg.free + 1 } else pg

/-- The loop over the edges of `source` that counts one more lock edge to `target`. -/
def addRef (pg : ProcGraph) (source target : ℕ) : ProcGraph :=
  match pg.vertex source with
  | none => pg
  | some v =>
    match raise target v.edges with
    | some edges => pg.put source (some { v with edges := edges })
    | none =>
      (pg.put source (some { v with edges := (target, 1) :: v.edges })).modify target fun w =>
        { w with incount := w.incount + 1 }

/-- The loop over the edges of `source` that counts one lock edge to `target` less; when that was
the last one the edge goes, and `released` is freed if nothing is left at it. -/
def dropRef (pg : ProcGraph) (source target released : ℕ) : ProcGraph :=
  match pg.vertex source with
  | none => pg
  | some v =>
    if refOf v.edges target = 0 then pg
    else
      let pg' := pg.put source (some { v with edges := lower target v.edges })
      if refOf v.edges target = 1 then
        (pg'.modify target fun w => { w with incount := w.incount - 1 }).procRelease released
      else pg'

/-- The slots that the edges of a vertex lead to. -/
def succ (pg : ProcGraph) (slot : ℕ) : List ℕ :=
  (pg.vertex slot).elim [] fun v => v.edges.map Prod.fst

/-- The search of `flk_check_deadlock` for a cycle, from `start`. -/
def findCycle (pg : ProcGraph) (start : ℕ) : Bool :=
  Graph.hunt pg.succ (2 * (∑ slot ∈ Finset.range pg.proc.length, (pg.succ slot).length) + 2)
    [(start, pg.succ start)] [] []

end ProcGraph

end Flock

end Sol25
