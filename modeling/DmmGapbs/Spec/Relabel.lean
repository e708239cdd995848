import DmmGapbs.Spec.Tc
import DmmGapbs.Spec.Builder

/-! `RelabelByDegree` of `builder.h` and `Hybrid` of `tc.cc`. Phase 1 sorts each rank's
`(out_degree(n), n)` pairs in descending order; Phase 2 merges them (the tournament tree) so
that rank `pe` holds the slice `[vp.start, vp.end)` of the merged list in `temp_pairs`;
Phase 3 puts each `n` into `new_ids` of the vertex at merged position `n`; Phase 4 counts the
new degrees, takes their prefix sums as `offsets` and copies every edge `(u, v)` by a
`fetch_inc` on the owner of `new_ids[u]` and a put of `new_ids[v]` into the cell it returned;
each list is then sorted. -/

namespace DMM

/-- `std::greater` on pairs, the order of the sorts: `a` first when `a ≥ b` lexicographically. -/
def pairGe (a b : Nat × Nat) : Bool := b.1 < a.1 || (b.1 = a.1 && b.2 ≤ a.2)

/-- One call of `RelabelByDegree`: the (undirected) graph and the number of ranks. -/
structure RelabelCfg where
  g : Graph
  npes : ℕ+

namespace RelabelCfg

variable (c : RelabelCfg)

/-- `Partition<NodeID_> vp(g.num_nodes())`. -/
def vp : Partition := ⟨c.g.numNodes, c.npes, c.npes.pos⟩

/-- `std::make_pair(g.out_degree(n), n)`. -/
def degPair (n : Nat) : Nat × Nat := ((c.g.outNeigh n).length, n)

/-- Phase 1 on rank `pe`: `(out_degree(n), n)` for its ids, sorted descending. -/
def localPairs (pe : Nat) : List (Nat × Nat) :=
  ((List.range' (c.vp.start pe) (c.vp.width pe)).map c.degPair).mergeSort pairGe

/-- Phase 2, from the spec (`TournamentTree` is not among the sources): the ranks' sorted lists
merged descending, of which leader `pe` pops `vp.end - vp.start` pairs. -/
def merged : List (Nat × Nat) := ((List.range c.npes).flatMap c.localPairs).mergeSort pairGe

/-- `temp_pairs[lp]` on rank `pe`. -/
def tempPair (pe lp : Nat) : Nat × Nat := c.merged.getD (c.vp.start pe + lp) (0, 0)

/-- Phase 3's puts of `new_ids`, landing in the order `order`, read as one array over the ids. -/
def newIds (order : List Nat) : Nat → Nat :=
  order.foldl (fun ids n => Function.update ids (c.tempPair (c.vp.recv n) (c.vp.localPos n)).2 n)
    fun _ => 0

/-- Phase 3's `degrees[lp] = temp_pairs[lp].first`; cells past the slice read `0`. -/
def degreesOf (pe lp : Nat) : Nat := if lp < c.vp.width pe then (c.tempPair pe lp).1 else 0

/-- `offsets = ParallelPrefixSum(degrees)`: where vertex `lp`'s list starts. -/
def index (pe : Nat) : Nat → Nat := prefixSums (c.degreesOf pe)

end RelabelCfg

/-- A rank in Phase 4's copy loop: pairs left, the pending `fetch_inc` result, `offsets`, `neighs`. -/
@[ext] structure CopyRank where
  todo : List (Nat × Nat)
  held : Option Nat
  offsets : Nat → Nat
  neighs : Nat → Nat

@[ext] structure CopyWorld where
  ranks : Nat → CopyRank

def CopyWorld.update (w : CopyWorld) (pe : Nat) (f : CopyRank → CopyRank) : CopyWorld :=
  ⟨Function.update w.ranks pe (f (w.ranks pe))⟩

namespace RelabelCfg

variable (c : RelabelCfg)

/-- Phase 4 before the copy loop. -/
def copyInit : CopyWorld :=
  ⟨fun pe => ⟨(List.range' (c.vp.start pe) (c.vp.width pe)).flatMap
    (fun u => (c.g.outNeigh u).map fun v => (u, v)), none, c.index pe, fun _ => 0⟩⟩

/-- One step of rank `pe` in the copy loop: a `fetch_inc` on the owner's `offsets`, or a put. -/
def copyStep (ids : Nat → Nat) (w : CopyWorld) (pe : Nat) : CopyWorld :=
  if pe < (c.npes : Nat) then
    match (w.ranks pe).todo, (w.ranks pe).held with
    | (u, _) :: _, none =>
      let owner := c.vp.recv (ids u)
      let slot := ids u - owner * c.vp.partitionWidth
      let off := (w.ranks owner).offsets slot
      (w.update owner fun r => { r with offsets := Function.update r.offsets slot (off + 1) }).update pe
        fun r => { r with held := some off }
    | (u, v) :: rest, some off =>
      (w.update (c.vp.recv (ids u)) fun r => { r with neighs := Function.update r.neighs off (ids v) }).update
        pe fun r => { r with todo := rest, held := none }
    | [], _ => w
  else w

/-- The copy loop under the interleaving `sched` of the ranks' steps. -/
def copyRun (ids : Nat → Nat) (w : CopyWorld) (sched : List Nat) : CopyWorld :=
  sched.foldl (c.copyStep ids) w

/-- Every rank has left the copy loop. -/
def CopyDone (w : CopyWorld) : Prop :=
  ∀ pe < (c.npes : Nat), (w.ranks pe).todo = [] ∧ (w.ranks pe).held = none

/-- The cells `[index[i], index[i+1])` of rank `pe`'s `neighs`. -/
def segment (w : CopyWorld) (pe i : Nat) : List Nat :=
  (List.range' (c.index pe i) (c.index pe (i + 1) - c.index pe i)).map (w.ranks pe).neighs

/-- The returned `CSRGraph`, after `std::sort` of every list. -/
def relabeled (w : CopyWorld) : Graph :=
  let out := fun x => if x < c.g.numNodes then (c.segment w (c.vp.recv x) (c.vp.localPos x)).mergeSort
    else []
  ⟨c.g.numNodes, out, out⟩

/-- `RelabelByDegree`, Phase 3's puts landing in `order`, the copy loop under `sched`. -/
def relabelByDegree (order sched : List Nat) : Graph :=
  c.relabeled (c.copyRun (c.newIds order) c.copyInit sched)

/-- `Hybrid`, with `WorthRelabelling`'s sampled choice as the parameter `worth`. -/
def hybrid (worth : Bool) (order sched : List Nat) : Option Nat :=
  if worth then orderedCount (c.relabelByDegree order sched) c.npes else orderedCount c.g c.npes

end RelabelCfg

end DMM
