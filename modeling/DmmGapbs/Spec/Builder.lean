import DmmGapbs.Spec.Partition
import Mathlib.Algebra.Order.Ring.Nat
import Mathlib.Data.List.Destutter
import Mathlib.Logic.Function.Basic

/-! `FindMaxNodeID`, `CountDegrees`, `ParallelPrefixSum`, `MakeCSR` and the per-vertex pass of
`SquishCSR` of `builder.h`. Each rank issues a list of one-sided operations and collectives; a
one-sided operation is one step of its rank, and a collective holds a rank until every rank
stands at one, whichever call of the source each of them is at (the semantics of
`shmem_barrier_all`). `shmem_malloc`, `shmem_calloc` and the construction and destruction of a
symmetric `pvector` are collective too. -/

namespace DMM

/-- `FindMaxNodeID`: every rank's largest endpoint, from `*max_seen = 0`, then `max_to_all`. -/
def findMaxNodeID (npes : Nat) (el : Nat → List (Nat × Nat)) : Nat :=
  ((List.range npes).map fun pe => (el pe).foldl (fun m e => max (max m e.1) e.2) 0).foldl max 0

/-- What a rank issues in `CountDegrees` and `MakeCSR`. -/
inductive BuildOp
  /-- `shmem_int_atomic_inc(degrees.begin() + i, pe)`. -/
  | inc (pe i : Nat)
  /-- `shmem_barrier_all()`. -/
  | barrier
  /-- A collective allocation or release of symmetric memory. -/
  | alloc
  /-- `ParallelPrefixSum`'s first pass: the block sums and their total. -/
  | blockSums
  /-- `ParallelPrefixSum`'s second pass: `prefix[i]`, from a second read of `degrees`. -/
  | prefixFill
  /-- `*local_max = offsets[end - start]`. -/
  | readLocalMax
  /-- `shmem_putmem(max_neighbors + my_pe, local_max, 8, pe)`. -/
  | putMax (pe : Nat)
  /-- `maxn`: the largest entry of `max_neighbors`. -/
  | readMax
  /-- `GenIndex(offsets, neighs, vp)`: vertex `i`'s list starts at `offsets[i]`. -/
  | genIndex
  /-- `neighbor = shmem_long_atomic_fetch_inc(offsets.begin() + i, pe)`. -/
  | fetchInc (pe i : Nat)
  /-- `shmem_putmem(neighs + neighbor, &v, 4, pe)`. -/
  | putNeigh (pe v : Nat)
  deriving DecidableEq

/-- The calls that complete only when every rank is at one. -/
def BuildOp.isCollective : BuildOp → Bool
  | .barrier | .alloc => true
  | _ => false

section Ops

variable (vp : Partition) (symmetrize transpose : Bool)

/-- `CountDegrees`'s loop with `flush_counter = k`: a barrier after every `10000`th edge. -/
def countDegreesLoop : Nat → List (Nat × Nat) → List BuildOp
  | _, [] => []
  | k, (u, v) :: es =>
    (if symmetrize || !transpose then [.inc (vp.recv u) (vp.localPos u)] else []) ++
    (if symmetrize || transpose then [.inc (vp.recv v) (vp.localPos v)] else []) ++
    (if (k + 1) % 10000 = 0 then [.barrier] else []) ++ countDegreesLoop (k + 1) es

/-- `CountDegrees`: the symmetric `degrees`, a barrier, the loop and a barrier. -/
def countDegreesOps (el : List (Nat × Nat)) : List BuildOp :=
  .alloc :: .barrier :: countDegreesLoop vp symmetrize transpose 0 el ++ [.barrier]

/-- `MakeCSR`'s copy loop: a `fetch_inc` and a put for each counted endpoint. -/
def fillOps : List (Nat × Nat) → List BuildOp
  | [] => []
  | (u, v) :: es =>
    (if symmetrize || !transpose then [.fetchInc (vp.recv u) (vp.localPos u), .putNeigh (vp.recv u) v]
      else []) ++
    (if symmetrize || transpose then [.fetchInc (vp.recv v) (vp.localPos v), .putNeigh (vp.recv v) u]
      else []) ++ fillOps es

/-- The operations of `MakeCSR` after `CountDegrees`, in the order the source issues them. -/
def csrTail (el : List (Nat × Nat)) : List BuildOp :=
  [.barrier, .blockSums, .alloc, .prefixFill, .alloc, .readLocalMax, .alloc, .alloc] ++
    (List.range vp.npes).map .putMax ++
    [.barrier, .readMax, .barrier, .alloc, .barrier, .genIndex, .barrier] ++
    fillOps vp symmetrize transpose el ++ [.barrier, .alloc, .alloc]

/-- One call of `MakeCSR` on a rank. -/
def makeCsrOps (el : List (Nat × Nat)) : List BuildOp :=
  countDegreesOps vp symmetrize transpose el ++ csrTail vp symmetrize transpose el

end Ops

/-- One call of `MakeCSR`: partition, `symmetrize`, `transpose`, and the ranks' edge lists. -/
structure BuildCfg where
  vp : Partition
  symmetrize : Bool
  transpose : Bool
  el : Nat → List (Nat × Nat)

/-- The operations rank `pe` issues. -/
def BuildCfg.ops (c : BuildCfg) (pe : Nat) : List BuildOp :=
  makeCsrOps c.vp c.symmetrize c.transpose (c.el pe)

/-- One rank: its operations left, its symmetric arrays, and the first pass's total. -/
@[ext] structure BuildRank where
  rest : List BuildOp
  degrees : Nat → Nat
  total : Nat
  offsets : Nat → Nat
  localMax : Nat
  maxNeighbors : Nat → Nat
  maxn : Option Nat
  index : Nat → Nat
  neighbor : Nat
  neighs : Nat → Nat

@[ext] structure BuildWorld where
  ranks : Nat → BuildRank

inductive BuildEvent
  | act (pe : Nat)
  | sync
  deriving DecidableEq

namespace BuildWorld

variable (w : BuildWorld)

def update (pe : Nat) (f : BuildRank → BuildRank) : BuildWorld :=
  ⟨Function.update w.ranks pe (f (w.ranks pe))⟩

/-- Rank `pe` has issued the operation at the head of its list. -/
def advance (pe : Nat) : BuildWorld := w.update pe fun r => { r with rest := r.rest.tail }

end BuildWorld

/-- `ParallelPrefixSum`: `prefix[i]` is the sum of the first `i` degrees. -/
def prefixSums (d : Nat → Nat) (i : Nat) : Nat := ((List.range i).map d).sum

/-- What rank `pe`'s operation does; `degrees` has `max_width` cells, `prefix` one more. -/
def BuildOp.apply (c : BuildCfg) (pe : Nat) (w : BuildWorld) : BuildOp → BuildWorld
  | .inc q i => w.update q fun r => { r with degrees := Function.update r.degrees i (r.degrees i + 1) }
  | .barrier | .alloc => w
  | .blockSums => w.update pe fun r => { r with total := prefixSums r.degrees c.vp.maxWidth }
  | .prefixFill => w.update pe fun r =>
      { r with offsets := fun i => if i < c.vp.maxWidth then prefixSums r.degrees i else r.total }
  | .readLocalMax => w.update pe fun r => { r with localMax := r.offsets (c.vp.stop pe - c.vp.start pe) }
  | .putMax q => w.update q fun r =>
      { r with maxNeighbors := Function.update r.maxNeighbors pe (w.ranks pe).localMax }
  | .readMax => w.update pe fun r =>
      { r with maxn := some (((List.range c.vp.npes).map r.maxNeighbors).foldl max 0) }
  | .genIndex => w.update pe fun r => { r with index := r.offsets }
  | .fetchInc q i =>
      (w.update pe fun r => { r with neighbor := (w.ranks q).offsets i }).update q fun r =>
        { r with offsets := Function.update r.offsets i (r.offsets i + 1) }
  | .putNeigh q v => w.update q fun r =>
      { r with neighs := Function.update r.neighs (w.ranks pe).neighbor v }

/-- A rank issues its next operation; a collective completes when every rank is at one. -/
def buildStep (c : BuildCfg) (w : BuildWorld) : BuildEvent → BuildWorld
  | .act pe =>
    match (w.ranks pe).rest with
    | op :: _ => if pe < c.vp.npes ∧ !op.isCollective then (op.apply c pe w).advance pe else w
    | [] => w
  | .sync =>
    if ∀ pe < c.vp.npes, (w.ranks pe).rest.head?.map BuildOp.isCollective = some true then
      ⟨fun pe => if pe < c.vp.npes then { w.ranks pe with rest := (w.ranks pe).rest.tail }
        else w.ranks pe⟩
    else w

def buildRun (c : BuildCfg) (w : BuildWorld) (evs : List BuildEvent) : BuildWorld :=
  evs.foldl (buildStep c) w

/-- Every array starts zeroed (`degrees` is built with `0`, the rest come from `shmem_calloc`). -/
def buildInit (c : BuildCfg) : BuildWorld :=
  ⟨fun pe => ⟨c.ops pe, fun _ => 0, 0, fun _ => 0, 0, fun _ => 0, none, fun _ => 0, 0, fun _ => 0⟩⟩

/-- `out_neigh(x)` (from the spec: `CSRGraph` is not among the sources): cells
`[index[i], index[i+1])` of the owner's `neighs`, `i = local_pos(x)`. -/
def outNeighOf (c : BuildCfg) (w : BuildWorld) (x : Nat) : List Nat :=
  let r := w.ranks (c.vp.recv x)
  let i := c.vp.localPos x
  (List.range' (r.index i) (r.index (i + 1) - r.index i)).map r.neighs

/-- `SquishCSR` on vertex `n`'s list: `std::sort`, `std::unique`, `std::remove` of `n`. -/
def squishNeigh (n : Nat) (l : List Nat) : List Nat :=
  (l.mergeSort.destutter (· ≠ ·)).filter (· ≠ n)

end DMM
