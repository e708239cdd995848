import DmmGapbs.Spec.Queue
import DmmGapbs.Spec.TdStep
import Mathlib.Algebra.Ring.Int.Defs

/-! `DOBFS` of `bfs.cc` as a multi-rank machine: `InitParent`, the `while` loop and its direction
test, the bottom-up branch (`QueueToBitmap`, the `BUStep` do-while, `BitmapToQueue`), the
top-down branch (`SHMEM_TDStep`: the claiming loop of `TdStep`, the queue buffer's flush,
`sum_to_all`, `slide_window`), and the pass over `parent` after the loop. A rank's local work
between two shared accesses is one step; a collective holds a rank until every rank is at one.
An access outside an array (a `parent` slice of `max_size` cells, a frontier of `num_nodes`
cells) is undefined behaviour, and the model stops there (`none`). -/

namespace DMM

/-- `g.num_edges_directed()`: the number of out-edges. -/
def Graph.numEdgesDirected (g : Graph) : Nat :=
  ((List.range g.numNodes).map fun u => (g.outNeigh u).length).sum

/-- One call of `DOBFS`, with what its uninitialised `parent` cells and `*local_scout` hold. -/
structure BfsCfg where
  g : Graph
  source : Nat
  npes : ℕ+
  alpha : Nat
  beta : Nat
  fresh : Nat → Nat → Int
  scout0 : Nat → Int

namespace BfsCfg

variable (c : BfsCfg)

/-- The partition of `InitParent`, `BitmapToQueue` and `SHMEM_TDStep`; `max_size = vp.maxWidth`. -/
def vp : Partition := ⟨c.g.numNodes, c.npes, c.npes.pos⟩

/-- The claiming loop's view of the call. -/
def td : TdCfg := ⟨c.g, c.npes, [], fun _ _ => 0, c.scout0⟩

/-- `InitParent` on rank `pe`; `none` when the write of `source` falls past `max_size`. -/
def initParent (pe : Nat) : Option (Nat → Int) :=
  let base : Nat → Int := fun i =>
    if i < c.vp.stop pe - c.vp.start pe then
      if (c.g.outNeigh (c.vp.start pe + i)).length ≠ 0 then
        -((c.g.outNeigh (c.vp.start pe + i)).length : Int)
      else -1
    else c.fresh pe i
  if c.vp.start pe ≤ c.source ∧ c.source ≤ c.vp.stop pe then
    if c.source - c.vp.start pe < c.vp.maxWidth then
      some (Function.update base (c.source - c.vp.start pe) c.source)
    else none
  else some base

/-- `BUStep` on one rank: `parent`, `next` and `awake_count`; `none` past `max_size`. -/
def buStep (parent : Nat → Int) (front : Nat → Bool) :
    Option ((Nat → Int) × (Nat → Bool) × Int) :=
  if c.vp.maxWidth < c.g.numNodes then none
  else some ((List.range c.g.numNodes).foldl
    (fun (acc : (Nat → Int) × (Nat → Bool) × Int) u =>
      if acc.1 u < 0 then
        match (c.g.inNeigh u).find? front with
        | some v => (Function.update acc.1 u v, Function.update acc.2.1 u true, acc.2.2 + 1)
        | none => acc
      else acc)
    (parent, fun _ => false, 0))

/-- `QueueToBitmap`; `none` when the window runs past `num_nodes` or holds a non-vertex. -/
def queueToBitmap (q : SlidingQueue) (front : Nat → Bool) : Option (Nat → Bool) :=
  if c.g.numNodes < q.sharedOutEnd ∨ q.window.any (c.g.numNodes ≤ ·) then none
  else some (q.window.foldl (fun bm u => Function.update bm u true) front)

/-- The out-edges of rank `pe`'s share of the window in `SHMEM_TDStep`. -/
def tdEdges (q : SlidingQueue) (pe : Nat) : Option (List (Nat × Nat)) :=
  let qp : Partition := ⟨q.size, c.npes, c.npes.pos⟩
  let share := (q.window.drop (qp.start pe)).take (qp.stop pe - qp.start pe)
  if c.g.numNodes < q.sharedOutEnd ∨ share.any (c.g.numNodes ≤ ·) then none
  else some (share.flatMap fun u => (c.g.outNeigh u).map (u, ·))

/-- The pass `parent[n] = -1` where `parent[n] < -1`; `none` past `max_size`. -/
def finishParent (parent : Nat → Int) : Option (Nat → Int) :=
  if c.vp.maxWidth < c.g.numNodes then none
  else some fun i => if i < c.g.numNodes ∧ parent i < -1 then -1 else parent i

end BfsCfg

/-- `lqueue.flush()` by rank `pe`; `none` when a write runs past `num_nodes` cells. -/
def flushChecked (npes cap pe : Nat) (b : QueueBuffer) (qs : Nat → SlidingQueue) :
    Option (Nat → SlidingQueue) :=
  if cap < (qs pe).sharedIn + (if npes = 1 then b.count else 2 * kLocalSize) then none
  else some (b.flush npes pe qs)

/-- Where a rank is in `DOBFS`. -/
inductive BfsPc
  /-- `while (!frontier->empty())`. -/
  | loop
  /-- `if (scout_count > edges_to_check / alpha)`. -/
  | direction
  /-- `QueueToBitmap`, `awake_count = frontier->size()`, `slide_window`. -/
  | toBitmap
  /-- `old_awake_count = awake_count; awake_count = BUStep(...); front.swap(curr)`. -/
  | bu
  /-- The do-while condition. -/
  | buTest
  /-- `BitmapToQueue`'s loop, the ids of `[lower_bound, upper_bound)` left. -/
  | toQueue (rest : List Nat)
  | toQueueFlush
  /-- `slide_window` and `scout_count = 1`. -/
  | toQueueSlide
  /-- The collective allocations that open `SHMEM_TDStep`. -/
  | tdAlloc
  /-- In the claiming loop. -/
  | td
  /-- `lqueue.push_back` of the claimed vertices left, then `lqueue.flush()`. -/
  | tdFlush (rest : List Nat)
  /-- `shmem_int_sum_to_all` of the scout counts. -/
  | tdReduce
  | tdSlide
  /-- The pass over `parent` after the loop. -/
  | finish
  | done
  deriving DecidableEq

/-- One rank's bitmaps, frontier copy, queue buffer and control variables. -/
structure BfsRank where
  pc : BfsPc
  front : Nat → Bool
  curr : Nat → Bool
  frontier : SlidingQueue
  lqueue : QueueBuffer
  scoutCount : Int
  edgesToCheck : Int
  awakeCount : Int
  oldAwakeCount : Int

/-- The ranks, every `parent` slice, and the claiming loop's world. -/
structure BfsWorld where
  ranks : Nat → BfsRank
  td : TdWorld

inductive BfsEvent
  | act (pe : Nat)
  | sync
  deriving DecidableEq

namespace BfsWorld

variable (w : BfsWorld)

def update (pe : Nat) (f : BfsRank → BfsRank) : BfsWorld :=
  { w with ranks := Function.update w.ranks pe (f (w.ranks pe)) }

def setPc (pe : Nat) (p : BfsPc) : BfsWorld := w.update pe fun r => { r with pc := p }

def setParent (pe : Nat) (parent : Nat → Int) : BfsWorld :=
  { w with td := { w.td with parent := Function.update w.td.parent pe parent } }

/-- Every rank's frontier after a flush. -/
def setFrontiers (qs : Nat → SlidingQueue) : BfsWorld :=
  { w with ranks := fun i => { w.ranks i with frontier := qs i } }

/-- `lqueue.flush()` by rank `pe`. -/
def flush (c : BfsCfg) (pe : Nat) : Option BfsWorld :=
  (flushChecked c.npes c.g.numNodes pe (w.ranks pe).lqueue fun i => (w.ranks i).frontier).map
    fun qs => (w.setFrontiers qs).update pe fun r => { r with lqueue := { r.lqueue with count := 0 } }

/-- `lqueue.push_back(x)` by rank `pe`: a full buffer is flushed first. -/
def pushBack (c : BfsCfg) (pe x : Nat) : Option BfsWorld :=
  (if (w.ranks pe).lqueue.count = kLocalSize then w.flush c pe else some w).map
    fun w' => w'.update pe fun r => { r with lqueue := r.lqueue.stage x }

end BfsWorld

/-- One step of rank `pe`; `none` where the code is undefined (a division by a zero `alpha` or
`beta`, an access past an array). -/
def bfsAct (c : BfsCfg) (w : BfsWorld) (pe : Nat) : Option BfsWorld :=
  let r := w.ranks pe
  match r.pc with
  | .loop => some (w.setPc pe (if r.frontier.empty then .finish else .direction))
  | .direction =>
    if c.alpha = 0 then none
    else if r.scoutCount > r.edgesToCheck.tdiv c.alpha then some (w.setPc pe .toBitmap)
    else some (w.update pe fun r => { r with edgesToCheck := r.edgesToCheck - r.scoutCount,
                                             pc := .tdAlloc })
  | .toBitmap => (c.queueToBitmap r.frontier r.front).map fun bm =>
      w.update pe fun r => { r with front := bm, awakeCount := r.frontier.size,
                                    frontier := r.frontier.slideWindow, pc := .bu }
  | .bu => (c.buStep (w.td.parent pe) r.front).map fun res =>
      (w.setParent pe res.1).update pe fun r =>
        { r with oldAwakeCount := r.awakeCount, awakeCount := res.2.2, front := res.2.1,
                 curr := r.front, pc := .buTest }
  | .buTest =>
    if c.beta = 0 then none
    else some (w.setPc pe (if r.awakeCount ≥ r.oldAwakeCount ∨ r.awakeCount > c.g.numNodes / c.beta
      then .bu else .toQueue (List.range' (c.vp.start pe) (c.vp.stop pe - c.vp.start pe))))
  | .toQueue [] => some (w.setPc pe .toQueueFlush)
  | .toQueue (u :: rest) =>
    if r.front u then (w.pushBack c pe u).map fun w' => w'.setPc pe (.toQueue rest)
    else some (w.setPc pe (.toQueue rest))
  | .toQueueFlush => (w.flush c pe).map fun w' => w'.setPc pe .toQueueSlide
  | .toQueueSlide => some (w.update pe fun r =>
      { r with frontier := r.frontier.slideWindow, scoutCount := 1, pc := .loop })
  | .tdAlloc => some w
  | .td =>
    if (w.td.ranks pe).pc = .done then some (w.setPc pe (.tdFlush (w.td.ranks pe).pushed))
    else some { w with td := tdStep c.td w.td pe }
  | .tdFlush [] => (w.flush c pe).map fun w' => w'.setPc pe .tdReduce
  | .tdFlush (u :: rest) => (w.pushBack c pe u).map fun w' => w'.setPc pe (.tdFlush rest)
  | .tdReduce => some w
  | .tdSlide => some (w.update pe fun r =>
      { r with frontier := r.frontier.slideWindow, pc := .loop })
  | .finish => (c.finishParent (w.td.parent pe)).map fun p => (w.setParent pe p).setPc pe .done
  | .done => some w

/-- The collectives of `SHMEM_TDStep`: its opening allocations and `sum_to_all` of the scouts. -/
def bfsSync (c : BfsCfg) (w : BfsWorld) : Option BfsWorld :=
  if ∀ pe < (c.npes : Nat), (w.ranks pe).pc = .tdAlloc then
    ((List.range c.npes).mapM fun pe => c.tdEdges (w.ranks pe).frontier pe).map fun es =>
      let ranks' : Nat → BfsRank := fun pe =>
        if pe < c.npes then { w.ranks pe with lqueue := QueueBuffer.fresh, pc := .td }
        else w.ranks pe
      let tdRanks : Nat → TdRank := fun pe =>
        if pe < c.npes then ⟨.edge (es.getD pe []), [], c.scout0 pe⟩ else w.td.ranks pe
      ⟨ranks', { w.td with ranks := tdRanks }⟩
  else if ∀ pe < (c.npes : Nat), (w.ranks pe).pc = .tdReduce then
    let total := ((List.range c.npes).map fun q => (w.td.ranks q).localScout).sum
    some { w with
      ranks := fun pe =>
        if pe < c.npes then { w.ranks pe with pc := .tdSlide, scoutCount := total } else w.ranks pe }
  else some w

def bfsStep (c : BfsCfg) (w : BfsWorld) : BfsEvent → Option BfsWorld
  | .act pe => if pe < c.npes then bfsAct c w pe else some w
  | .sync => bfsSync c w

def bfsRun (c : BfsCfg) (w : BfsWorld) (evs : List BfsEvent) : Option BfsWorld :=
  evs.foldlM (bfsStep c) w

/-- `DOBFS`'s set-up on every rank; `none` when some `InitParent` writes out of bounds. -/
def bfsInit (c : BfsCfg) : Option BfsWorld :=
  ((List.range c.npes).mapM c.initParent).map fun ps =>
    { ranks := fun pe =>
        ⟨if pe < c.npes then .loop else .done, fun _ => false, fun _ => false,
          (SlidingQueue.init.pushBack c.source).slideWindow, QueueBuffer.fresh,
          (c.g.outNeigh c.source).length, c.g.numEdgesDirected, 0, 0⟩
      td := ⟨fun pe => ps.getD pe fun _ => 0, fun _ => none, fun _ => ⟨.done, [], 0⟩⟩ }

end DMM
