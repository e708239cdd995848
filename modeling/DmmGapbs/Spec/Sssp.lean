import DmmGapbs.Spec.Partition
import DmmGapbs.Spec.Graph
import Mathlib.Data.PNat.Basic

/-! `Shmem_DeltaStep` and `RelaxEdges` of `sssp.cc` as a multi-rank state machine. A rank's
steps between two barriers interleave freely with the other ranks' steps: one step is one
`shmem_getmem` or one compare-and-swap on `dist`, with the local work that follows it. The
collective segments (vote, tail broadcast, scatter into the frontier, `iter` increments) are
taken at the barrier that ends the segment before them. -/

namespace DMM

/-- `kDistInf`, from the spec (`WeightT` is declared outside the sources): `INT_MAX / 2`. -/
def kDistInf : Nat := 1073741823

/-- `kMaxBin = numeric_limits<size_t>::max()/2`. -/
def kMaxBin : Nat := 2 ^ 63 - 1

def kBinSizeThreshold : Nat := 1000

/-- `g.num_edges_directed()`: the number of out-edges. -/
def WGraph.numEdgesDirected (g : WGraph) : Nat :=
  ((List.range g.numNodes).map fun u => (g.outNeigh u).length).sum

/-- The inputs of one call: graph, source, `delta` and the number of ranks. -/
structure SsspCfg where
  g : WGraph
  source : Nat
  delta : Nat
  npes : ℕ+

/-- Where `RelaxEdges` returns to: Phase 1 at slot `i`, or the fusion loop. -/
inductive Ret
  | scan (i : Nat)
  | drain (rest : List Nat)
  deriving DecidableEq

/-- A rank's place in one iteration; each constructor stops before a shared access or barrier. -/
inductive Pc
  /-- Phase 1, frontier slot `i`: about to get `dist[frontier[i]]`. -/
  | scan (i : Nat)
  /-- In `RelaxEdges(u)` with the out-edges `es` left. -/
  | edge (u : Nat) (es : List (Nat × Nat)) (ret : Ret)
  /-- Got `old_dist = dist[v]`; about to get `dist[u]`. -/
  | readU (u v w old : Nat) (es : List (Nat × Nat)) (ret : Ret)
  /-- `new_dist < old_dist`: about to compare-and-swap `dist[v]`. -/
  | cas (u v w old nd : Nat) (es : List (Nat × Nat)) (ret : Ret)
  /-- The swap failed: about to get `dist[v]` again. -/
  | reread (u v w nd : Nat) (es : List (Nat × Nat)) (ret : Ret)
  /-- The fusion loop, with the entries of its copy of the current bin left. -/
  | drain (rest : List Nat)
  | wait1
  | wait2
  /-- Phase 2: about to `fetch_add` on PE 0's `next_frontier_tail`. -/
  | reserve
  | wait3
  | done
  deriving DecidableEq

/-- One rank's memory: `local_bins`, its copies of the symmetric words, its `frontier` slice. -/
structure SsspRank where
  pc : Pc
  bins : Nat → List Nat
  binsSize : Nat
  iter : Nat
  sharedIndexes : Nat → Nat
  frontierTails : Nat → Nat
  frontier : Nat → Nat
  copyStart : Nat

/-- The partitioned `dist`, read as one array over the ids, and every rank's memory. -/
structure SsspWorld where
  dist : Nat → Nat
  ranks : Nat → SsspRank

namespace SsspRank

variable (r : SsspRank)

/-- `curr_bin_index = shared_indexes[iter & 1]`. -/
def curr : Nat := r.sharedIndexes (r.iter % 2)

/-- `next_bin_index = shared_indexes[(iter + 1) & 1]`. -/
def next : Nat := r.sharedIndexes ((r.iter + 1) % 2)

def currTail : Nat := r.frontierTails (r.iter % 2)

def nextTail : Nat := r.frontierTails ((r.iter + 1) % 2)

/-- `local_bins[b].push_back(v)`, after growing `local_bins` to `b + 1` bins if needed. -/
def push (b v : Nat) : SsspRank :=
  { r with bins := Function.update r.bins b (r.bins b ++ [v]), binsSize := max r.binsSize (b + 1) }

/-- The vote loop from bin `i`, `k` bins left: the first non-empty one. -/
def firstBin (bins : Nat → List Nat) : Nat → Nat → Option Nat
  | _, 0 => none
  | i, k + 1 => if bins i ≠ [] then some i else firstBin bins (i + 1) k

/-- `*local_min`: `next_bin_index` lowered to the first non-empty bin from `curr_bin_index`. -/
def localMin : Nat :=
  match firstBin r.bins r.curr (r.binsSize - r.curr) with
  | some i => min r.next i
  | none => r.next

/-- The vote on a rank: `min_to_all`, then the resets of the current slots. -/
def voted (m : Nat) : SsspRank :=
  { r with
    pc := .reserve
    sharedIndexes :=
      Function.update (Function.update r.sharedIndexes ((r.iter + 1) % 2) m) (r.iter % 2) kMaxBin
    frontierTails := Function.update r.frontierTails (r.iter % 2) 0 }

/-- `iter` incremented, and the rank's test of the `while` condition. -/
def advanced : SsspRank :=
  { r with
    iter := r.iter + 1
    pc := if r.sharedIndexes ((r.iter + 1) % 2) ≠ kMaxBin then .scan 0 else .done }

/-- `fetch_add` of `k` on this rank's copy of `frontier_tails[slot]`. -/
def fetchAdd (slot k : Nat) : SsspRank :=
  { r with frontierTails := Function.update r.frontierTails slot (r.frontierTails slot + k) }

/-- `next_frontier_tail` set to `t`. -/
def withNextTail (t : Nat) : SsspRank :=
  { r with frontierTails := Function.update r.frontierTails ((r.iter + 1) % 2) t }

end SsspRank

namespace SsspCfg

variable (c : SsspCfg)

/-- `Partition<NodeID> vp(g.num_nodes())`. -/
def vp : Partition := ⟨c.g.numNodes, c.npes, c.npes.pos⟩

/-- `Partition<NodeID> ep(g.num_edges_directed())`: `frontier` has `ep.max_width` cells. -/
def ep : Partition := ⟨c.g.numEdgesDirected, c.npes, c.npes.pos⟩

/-- `OldePartition<size_t>` of a frontier of `t` entries. -/
def fp (t : Nat) : Partition := ⟨t, c.npes, c.npes.pos⟩

/-- `fp.end - fp.start`: how many frontier slots rank `pe` scans in Phase 1. -/
def sliceWidth (pe : Nat) (r : SsspRank) : Nat := (c.fp r.currTail).width pe

end SsspCfg

/-- One step of a rank in Phase 1 or the fusion loop, up to its next shared access. -/
def rankStep (c : SsspCfg) (pe : Nat) (r : SsspRank) (dist : Nat → Nat) :
    SsspRank × (Nat → Nat) :=
  match r.pc with
  | .scan i =>
    if i < c.sliceWidth pe r then
      if c.delta * r.curr ≤ dist (r.frontier i) then
        ({ r with pc := .edge (r.frontier i) (c.g.outNeigh (r.frontier i)) (.scan i) }, dist)
      else ({ r with pc := .scan (i + 1) }, dist)
    else ({ r with pc := .wait1 }, dist)
  | .edge _ [] (.scan i) => ({ r with pc := .scan (i + 1) }, dist)
  | .edge _ [] (.drain rest) => ({ r with pc := .drain rest }, dist)
  | .edge u ((v, w) :: es) ret => ({ r with pc := .readU u v w (dist v) es ret }, dist)
  | .readU u v w old es ret =>
    if dist u + w < old then ({ r with pc := .cas u v w old (dist u + w) es ret }, dist)
    else ({ r with pc := .edge u es ret }, dist)
  | .cas u v w old nd es ret =>
    if dist v = old then
      ({ r.push (nd / c.delta) v with pc := .edge u es ret }, Function.update dist v nd)
    else ({ r with pc := .reread u v w nd es ret }, dist)
  | .reread u v w nd es ret =>
    if nd < dist v then ({ r with pc := .cas u v w (dist v) nd es ret }, dist)
    else ({ r with pc := .edge u es ret }, dist)
  | .drain [] =>
    if r.curr < r.binsSize ∧ r.bins r.curr ≠ [] ∧ (r.bins r.curr).length < kBinSizeThreshold then
      ({ r with pc := .drain (r.bins r.curr), bins := Function.update r.bins r.curr [] }, dist)
    else ({ r with pc := .wait2 }, dist)
  | .drain (u :: rest) => ({ r with pc := .edge u (c.g.outNeigh u) (.drain rest) }, dist)
  | _ => (r, dist)

/-- One `shmem_putmem` of Phase 2: `items` into `frontier` of rank `pe` from local offset `off`. -/
structure Put where
  pe : Nat
  off : Nat
  items : List Nat
  deriving DecidableEq

/-- The Phase-2 scatter loop, `k` iterations left, from rank `i` at `local_copy_start = lcs`. -/
def scatterLoop (nftp : Partition) (items : List Nat) : Nat → Nat → Nat → Nat → List Put
  | 0, _, _, _ => []
  | k + 1, i, lcs, prior =>
    let binRem := items.length - prior
    let partRem := if i ≠ nftp.npes - 1 then nftp.partitionWidth - lcs else nftp.maxWidth - lcs
    if partRem < binRem then
      ⟨i, lcs, (items.drop prior).take partRem⟩ :: scatterLoop nftp items k (i + 1) 0 (prior + partRem)
    else [⟨i, lcs, (items.drop prior).take binRem⟩]

/-- The puts copying `items` into the new frontier from global position `copyStart`. -/
def scatterPuts (nftp : Partition) (items : List Nat) (copyStart : Nat) : List Put :=
  scatterLoop nftp items (nftp.npes - nftp.recv copyStart) (nftp.recv copyStart)
    (nftp.localPos copyStart) 0

/-- `shmem_putmem` of `xs` into cells `[off, off + |xs|)`. -/
def putmem (f : Nat → Nat) (off : Nat) (xs : List Nat) : Nat → Nat :=
  fun j => if off ≤ j ∧ j < off + xs.length then xs.getD (j - off) 0 else f j

namespace SsspWorld

variable (c : SsspCfg) (w : SsspWorld)

def setRank (pe : Nat) (r : SsspRank) : SsspWorld := { w with ranks := Function.update w.ranks pe r }

def AllAt (q : Pc) : Prop := ∀ pe < (c.npes : Nat), (w.ranks pe).pc = q

instance (q : Pc) : Decidable (w.AllAt c q) := Nat.decidableBallLT _ _

def applyPut (p : Put) : SsspWorld :=
  w.setRank p.pe { w.ranks p.pe with frontier := putmem (w.ranks p.pe).frontier p.off p.items }

/-- `min_to_all` of the ranks' `local_min`. -/
def minLocal : Nat :=
  ((List.range c.npes).map fun pe => (w.ranks pe).localMin).foldr min (w.ranks 0).localMin

/-- The vote, on every rank. -/
def vote : SsspWorld := { w with ranks := fun pe => (w.ranks pe).voted (w.minLocal c) }

/-- Rank `pe`'s `fetch_add` on PE 0's `next_frontier_tail`, when its next bin exists. -/
def reserve (pe : Nat) : SsspWorld :=
  let r := w.ranks pe
  if r.next < r.binsSize then
    let slot := (r.iter + 1) % 2
    let w1 := w.setRank pe { r with copyStart := (w.ranks 0).frontierTails slot, pc := .wait3 }
    w1.setRank 0 ((w1.ranks 0).fetchAdd slot (r.bins r.next).length)
  else w.setRank pe { r with pc := .wait3 }

/-- PE 0 puts its `next_frontier_tail` to every rank. -/
def broadcastTail : SsspWorld :=
  { w with ranks := fun pe => (w.ranks pe).withNextTail (w.ranks 0).nextTail }

/-- The puts rank `pe` makes in Phase 2 (after the tail broadcast). -/
def phase2Puts (pe : Nat) : List Put :=
  let r := w.ranks pe
  if r.next < r.binsSize then scatterPuts (c.fp r.nextTail) (r.bins r.next) r.copyStart else []

/-- Rank `pe`'s scatter and `local_bins[next_bin_index].resize(0)`. -/
def scatterRank (pe : Nat) : SsspWorld :=
  let r := w.ranks pe
  if r.next < r.binsSize then
    let w' := (w.phase2Puts c pe).foldl applyPut w
    w'.setRank pe { w'.ranks pe with bins := Function.update (w'.ranks pe).bins r.next [] }
  else w

/-- `iter` incremented on every rank, and every rank's test of the `while` condition. -/
def nextIteration : SsspWorld := { w with ranks := fun pe => (w.ranks pe).advanced }

/-- The barriers after the reservations: tail broadcast, scatter, `iter` increment. -/
def finish : SsspWorld :=
  ((List.range c.npes).foldl (fun w pe => w.scatterRank c pe) (w.broadcastTail)).nextIteration

/-- Rank `pe`'s scatter into `ep.max_width` cells: undefined when a put runs past them. -/
def scatterRankIn (pe : Nat) : Option SsspWorld :=
  if (w.phase2Puts c pe).all fun p => p.off + p.items.length ≤ c.ep.maxWidth then
    some (w.scatterRank c pe)
  else none

/-- `finish` with every scatter bounded by the allocation. -/
def finishIn : Option SsspWorld :=
  ((List.range c.npes).foldlM (fun (w : SsspWorld) pe => w.scatterRankIn c pe) w.broadcastTail).map
    nextIteration

end SsspWorld

/-- What happens at a barrier or at a step of rank `pe`. -/
inductive SsspEvent
  | act (pe : Nat)
  | sync
  deriving DecidableEq

def ssspStep (c : SsspCfg) (w : SsspWorld) : SsspEvent → Option SsspWorld
  | .act pe =>
    if pe < (c.npes : Nat) then
      match (w.ranks pe).pc with
      | .wait1 | .wait2 | .wait3 | .done => none
      | .reserve => some (w.reserve pe)
      | _ =>
        let s := rankStep c pe (w.ranks pe) w.dist
        some { dist := s.2, ranks := Function.update w.ranks pe s.1 }
    else none
  | .sync =>
    if w.AllAt c .wait1 then some { w with ranks := fun pe => { w.ranks pe with pc := .drain [] } }
    else if w.AllAt c .wait2 then some (w.vote c)
    else if w.AllAt c .wait3 then some (w.finish c)
    else none

/-- `ssspStep` with `frontier` as allocated: the scatter barrier is `none` on an overrun. -/
def ssspStepIn (c : SsspCfg) (w : SsspWorld) (e : SsspEvent) : Option SsspWorld :=
  if e = .sync ∧ w.AllAt c .wait3 then w.finishIn c else ssspStep c w e

/-- The state at the first test of the `while` condition. -/
def ssspInit (c : SsspCfg) : SsspWorld where
  dist := if c.source < c.g.numNodes then Function.update (fun _ => kDistInf) c.source 0
    else fun _ => kDistInf
  ranks := fun pe =>
    { pc := .scan 0, bins := fun _ => [], binsSize := 0, iter := 0,
      sharedIndexes := fun i => if i = 0 then 0 else kMaxBin,
      frontierTails := fun i => if i = 0 then 1 else 0,
      frontier := fun i => if pe = c.npes - 1 ∧ i = 0 then c.source else 0,
      copyStart := 0 }

def ssspRun (c : SsspCfg) (w : SsspWorld) : List SsspEvent → Option SsspWorld
  | [] => some w
  | e :: es => (ssspStep c w e).bind fun w' => ssspRun c w' es

def ssspRunIn (c : SsspCfg) (w : SsspWorld) : List SsspEvent → Option SsspWorld
  | [] => some w
  | e :: es => (ssspStepIn c w e).bind fun w' => ssspRunIn c w' es

/-- The worlds some interleaving reaches. -/
inductive SsspReach (c : SsspCfg) : SsspWorld → Prop
  | init : SsspReach c (ssspInit c)
  | step {w w' : SsspWorld} {e : SsspEvent} : SsspReach c w → ssspStep c w e = some w' →
      SsspReach c w'

/-- The weighted diamond from source 0 with `delta = 2`, on `npes` ranks. -/
def weightedDiamond (npes : ℕ+) : SsspCfg :=
  ⟨WGraph.ofAdj [[(1, 1), (2, 4)], [(2, 2), (3, 5)], [(3, 1)], []], 0, 2, npes⟩

theorem SsspReach.of_run {c : SsspCfg} : ∀ {w : SsspWorld} (es : List SsspEvent) {w' : SsspWorld},
    SsspReach c w → ssspRun c w es = some w' → SsspReach c w'
  | _, [], _, h, hr => by cases hr; exact h
  | w, e :: es, w', h, hr => by
    simp only [ssspRun, Option.bind_eq_some] at hr
    obtain ⟨w1, h1, h2⟩ := hr
    exact SsspReach.of_run es (.step h h1) h2

theorem ssspRun_append {c : SsspCfg} (w : SsspWorld) : ∀ (es es' : List SsspEvent),
    ssspRun c w (es ++ es') = (ssspRun c w es).bind fun w' => ssspRun c w' es'
  | [], _ => rfl
  | e :: es, es' => by
    simp only [List.cons_append, ssspRun]
    cases ssspStep c w e with
    | none => rfl
    | some w1 => exact ssspRun_append w1 es es'

end DMM
