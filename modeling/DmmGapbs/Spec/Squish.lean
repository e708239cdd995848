import DmmGapbs.Spec.Builder
import DmmGapbs.Spec.Queue

/-! `SquishCSR`, `SquishGraph`, and `MakeGraph` from the edge list on: `MakeGraphFromEL`, whose
`MakeCSR` passes are runs of the machine of `DmmGapbs.Spec.Builder`, then `SquishGraph`.
`SquishCSR` reads and writes only its own rank's arrays, apart from the `max_to_all` that sizes
`sq_neighs`, so a rank's part of the squished graph is a function of its part of the graph.
`CSRGraph`'s header is not among the sources: its halves, `out_neigh`, `in_neigh` and `GenIndex`
are modelled from the spec, as `outNeighOf` is. -/

namespace DMM

/-- One rank's part of one half of a `CSRGraph`. -/
structure CsrPart where
  index : Nat → Nat
  neighs : Nat → Nat

/-- The cells `[index[i], index[i+1])` of local vertex `i`. -/
def CsrPart.neighOf (g : CsrPart) (i : Nat) : List Nat :=
  (List.range' (g.index i) (g.index (i + 1) - g.index i)).map g.neighs

/-- Rank `pe`'s part of the CSR that `MakeCSR` leaves in the world `w`. -/
def BuildWorld.csr (w : BuildWorld) (pe : Nat) : CsrPart := ⟨(w.ranks pe).index, (w.ranks pe).neighs⟩

section SquishCsr

variable (vp : Partition) (pe : Nat)

/-- One turn of `SquishCSR`'s first loop, on vertex `n`; the cells behind the squished list keep
their values. -/
def squishVertex (s : CsrPart × (Nat → Nat)) (n : Nat) : CsrPart × (Nat → Nat) :=
  let l := squishNeigh n (s.1.neighOf (vp.localPos n))
  (⟨s.1.index, copyInto s.1.neighs (s.1.index (vp.localPos n)) l.length fun j => l.getD j 0⟩,
    Function.update s.2 (vp.localPos n) l.length)

/-- `SquishCSR`'s first loop, with `diffs` holding `d0` before it. -/
def squishPass (d0 : Nat → Nat) (g : CsrPart) : CsrPart × (Nat → Nat) :=
  (List.range' (vp.start pe) (vp.width pe)).foldl (squishVertex vp) (g, d0)

/-- `sq_offsets = ParallelPrefixSum(diffs)`, and so `sq_index` after `GenIndex`. -/
def squishOffsets (d0 : Nat → Nat) (g : CsrPart) (i : Nat) : Nat :=
  prefixSums (squishPass vp pe d0 g).2 (min i vp.maxWidth)

/-- One turn of `SquishCSR`'s copy loop, on vertex `n`. -/
def squishCopyVertex (s : CsrPart × (Nat → Nat)) (sqIndex sqNeighs : Nat → Nat) (n : Nat) :
    Nat → Nat :=
  copyInto sqNeighs (sqIndex (vp.localPos n)) (s.2 (vp.localPos n)) fun j =>
    s.1.neighs (s.1.index (vp.localPos n) + j)

/-- `SquishCSR` on rank `pe`: `sq_index` and `sq_neighs` (zeroed by `shmem_calloc`). -/
def squishCsr (d0 : Nat → Nat) (g : CsrPart) : CsrPart :=
  ⟨squishOffsets vp pe d0 g, (List.range' (vp.start pe) (vp.width pe)).foldl
    (squishCopyVertex vp (squishPass vp pe d0 g) (squishOffsets vp pe d0 g)) fun _ => 0⟩

end SquishCsr

/-- `*max_neigh` after `max_to_all` of every rank's `sq_offsets[end - start]`. -/
def squishMaxNeigh (vp : Partition) (d0 : Nat → Nat → Nat) (g : Nat → CsrPart) : Nat :=
  ((List.range vp.npes).map fun pe => squishOffsets vp pe (d0 pe) (g pe) (vp.width pe)).foldl max 0

/-- A `CSRGraph`: partition, directedness, and every rank's part of its halves. -/
structure CsrGraph where
  vp : Partition
  directed : Bool
  out : Nat → CsrPart
  inv : Option (Nat → CsrPart)

namespace CsrGraph

variable (g : CsrGraph)

/-- `out_neigh(x)`, through the owner of `x`. -/
def outNeigh (x : Nat) : List Nat := (g.out (g.vp.recv x)).neighOf (g.vp.localPos x)

/-- `in_neigh(x)`: the in half of a directed graph, the out half of an undirected one. -/
def inNeigh (x : Nat) : Option (List Nat) :=
  if g.directed then g.inv.map fun p => (p (g.vp.recv x)).neighOf (g.vp.localPos x)
  else some (g.outNeigh x)

end CsrGraph

/-- `SquishGraph`; `d0 transpose pe` is what `diffs` holds before `SquishCSR` on rank `pe`. -/
def squishGraph (invert : Bool) (d0 : Bool → Nat → Nat → Nat) (g : CsrGraph) : CsrGraph :=
  ⟨g.vp, g.directed, fun pe => squishCsr g.vp pe (d0 false pe) (g.out pe),
    if g.directed && invert then g.inv.map fun p pe => squishCsr g.vp pe (d0 true pe) (p pe)
    else none⟩

/-- What `MakeGraph` builds from (`numNodes = none` for `-1`). -/
structure GraphInput where
  npes : Nat
  npes_pos : 0 < npes
  symmetrize : Bool
  invert : Bool
  numNodes : Option Nat
  el : Nat → List (Nat × Nat)

namespace GraphInput

variable (gi : GraphInput)

/-- `num_nodes_` once `MakeGraphFromEL` has set it: `FindMaxNodeID(el) + 1` when it was `-1`. -/
def nodes : Nat := gi.numNodes.getD (findMaxNodeID gi.npes gi.el + 1)

/-- The call `MakeCSR(el, transpose, ...)`, which sets `*vp = Partition(num_nodes_)`. -/
def pass (transpose : Bool) : BuildCfg := ⟨⟨gi.nodes, gi.npes, gi.npes_pos⟩, gi.symmetrize, transpose, gi.el⟩

/-- `MakeGraphFromEL`, its passes run under the schedules `evsOut` and `evsIn`. -/
def makeGraphFromEL (evsOut evsIn : List BuildEvent) : CsrGraph :=
  ⟨⟨gi.nodes, gi.npes, gi.npes_pos⟩, !gi.symmetrize,
    (buildRun (gi.pass false) (buildInit (gi.pass false)) evsOut).csr,
    if !gi.symmetrize && gi.invert then some (buildRun (gi.pass true) (buildInit (gi.pass true)) evsIn).csr
    else none⟩

/-- `MakeGraph` once the edge list is read: `MakeGraphFromEL`, then `SquishGraph`. -/
def makeGraph (d0 : Bool → Nat → Nat → Nat) (evsOut evsIn : List BuildEvent) : CsrGraph :=
  squishGraph gi.invert d0 (gi.makeGraphFromEL evsOut evsIn)

/-- Every rank's part of the edge list, in rank order. -/
def edges : List (Nat × Nat) := (List.range gi.npes).flatMap gi.el

end GraphInput

end DMM
