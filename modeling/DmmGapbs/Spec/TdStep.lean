import DmmGapbs.Spec.Partition
import DmmGapbs.Spec.Graph
import Mathlib.Data.PNat.Basic
import Mathlib.Logic.Function.Basic

/-! The claiming loop of `SHMEM_TDStep` in `bfs.cc` as a multi-rank machine. Each rank walks the
out-edges `(u, v)` of its share of the frontier. A `v` in its own slice of `parent` is claimed
by a read and a `shmem_int_atomic_compare_swap` taken without a lock; any other `v` by
`shmem_set_lock(PLOCKS + foreign_pe)`, a `shmem_int_get`, a `shmem_int_atomic_swap` and
`shmem_clear_lock`. One step is one of these operations, and the ranks' steps interleave
freely. The queue buffer's flush and the scout reduction that close the step are not part of
this machine. -/

namespace DMM

/-- One top-down step, with what each rank's uninitialised `*local_scout` holds. -/
structure TdCfg where
  g : Graph
  npes : ℕ+
  frontier : List Nat
  parent0 : Nat → Nat → Int
  scout0 : Nat → Int

namespace TdCfg

variable (c : TdCfg)

/-- The partition of `parent`: `num_nodes / npes` ids a rank, the remainder on the last. -/
def vp : Partition := ⟨c.g.numNodes, c.npes, c.npes.pos⟩

/-- The partition of the frontier window: `queue_offset = queue.size() / npes`. -/
def qp : Partition := ⟨c.frontier.length, c.npes, c.npes.pos⟩

/-- The frontier vertices rank `pe` processes, `queue[start, end)`. -/
def share (pe : Nat) : List Nat :=
  (c.frontier.drop (c.qp.start pe)).take (c.qp.stop pe - c.qp.start pe)

/-- The out-edges rank `pe` looks at, in order. -/
def edges (pe : Nat) : List (Nat × Nat) :=
  (c.share pe).flatMap fun u => (c.g.outNeigh u).map (u, ·)

/-- `lower_bound <= v && v < upper_bound`. -/
def isLocal (pe v : Nat) : Prop := c.vp.start pe ≤ v ∧ v < c.vp.stop pe

instance (pe v : Nat) : Decidable (c.isLocal pe v) := inferInstanceAs (Decidable (_ ∧ _))

end TdCfg

/-- The remote branch's `foreign_pe` and `local_v`. -/
def foreignAddr (offset npes v : Nat) : Nat × Nat :=
  if npes ≤ v / offset then (npes - 1, v - offset * (npes - 1)) else (v / offset, v % offset)

/-- Where a rank is in the loop; `es` are the out-edges it has still to look at. -/
inductive TdPc
  /-- At the next edge: a local `v` is read, a remote one waits for its lock. -/
  | edge (es : List (Nat × Nat))
  /-- Local branch: read `curr_val < 0`; about to compare-and-swap. -/
  | cas (u v : Nat) (curr : Int) (es : List (Nat × Nat))
  /-- Remote branch: holds `PLOCKS[foreign_pe]`; about to get `parent[local_v]`. -/
  | get (u v : Nat) (es : List (Nat × Nat))
  /-- Got `curr_val < 0`; about to swap. -/
  | swap (u v : Nat) (curr : Int) (es : List (Nat × Nat))
  /-- About to clear `PLOCKS[foreign_pe]`. -/
  | unlock (v : Nat) (es : List (Nat × Nat))
  | done
  deriving DecidableEq

/-- One rank: its place in the loop, what `lqueue` received, and `*local_scout`. -/
structure TdRank where
  pc : TdPc
  pushed : List Nat
  localScout : Int

/-- Every rank's slice of `parent`, the holders of `PLOCKS`, and the ranks. -/
structure TdWorld where
  parent : Nat → Nat → Int
  plocks : Nat → Option Nat
  ranks : Nat → TdRank

namespace TdWorld

variable (w : TdWorld) (pe : Nat)

def setPc (p : TdPc) : TdWorld :=
  { w with ranks := Function.update w.ranks pe { w.ranks pe with pc := p } }

/-- `parent[i] = u` on rank `q`. -/
def setParent (q i u : Nat) : TdWorld :=
  { w with parent := Function.update w.parent q (Function.update (w.parent q) i u) }

def setLock (q : Nat) (o : Option Nat) : TdWorld :=
  { w with plocks := Function.update w.plocks q o }

/-- `lqueue.push_back(v)` and `*local_scout += -curr_val`. -/
def claim (v : Nat) (curr : Int) : TdWorld :=
  { w with
    ranks := Function.update w.ranks pe ({ w.ranks pe with
      pushed := (w.ranks pe).pushed ++ [v], localScout := (w.ranks pe).localScout + -curr }) }

end TdWorld

/-- One step of rank `pe`. -/
def tdStep (c : TdCfg) (w : TdWorld) (pe : Nat) : TdWorld :=
  match (w.ranks pe).pc with
  | .edge [] => w.setPc pe .done
  | .edge ((u, v) :: es) =>
    if c.isLocal pe v then
      if w.parent pe (v - c.vp.start pe) < 0 then
        w.setPc pe (.cas u v (w.parent pe (v - c.vp.start pe)) es)
      else w.setPc pe (.edge es)
    else
      match w.plocks (foreignAddr c.vp.partitionWidth c.npes v).1 with
      | none => (w.setLock (foreignAddr c.vp.partitionWidth c.npes v).1 (some pe)).setPc pe
          (.get u v es)
      | some _ => w
  | .cas u v curr es =>
    let old := w.parent pe (v - c.vp.start pe)
    let w' := if old = curr then w.setParent pe (v - c.vp.start pe) u else w
    if old ≠ 0 then (w'.claim pe v curr).setPc pe (.edge es) else w'.setPc pe (.edge es)
  | .get u v es =>
    let a := foreignAddr c.vp.partitionWidth c.npes v
    if w.parent a.1 a.2 < 0 then w.setPc pe (.swap u v (w.parent a.1 a.2) es)
    else w.setPc pe (.unlock v es)
  | .swap u v curr es =>
    let a := foreignAddr c.vp.partitionWidth c.npes v
    ((w.setParent a.1 a.2 u).claim pe v curr).setPc pe (.unlock v es)
  | .unlock v es =>
    (w.setLock (foreignAddr c.vp.partitionWidth c.npes v).1 none).setPc pe (.edge es)
  | .done => w

/-- The ranks' steps in the order of `sched`. -/
def tdRun (c : TdCfg) (w : TdWorld) (sched : List Nat) : TdWorld := sched.foldl (tdStep c) w

def tdInit (c : TdCfg) : TdWorld :=
  ⟨c.parent0, fun _ => none,
    fun pe => ⟨if pe < c.npes then .edge (c.edges pe) else .done, [], c.scout0 pe⟩⟩

end DMM
