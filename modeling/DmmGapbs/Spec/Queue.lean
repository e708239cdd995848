import DmmGapbs.Spec.Partition
import Mathlib.Logic.Function.Basic

/-! `SlidingQueue<T>` and `QueueBuffer<T>` of `sliding_queue.h`. Every rank holds its own copy of
the symmetric queue object. `QueueBuffer::flush` runs under `QLOCK`, so it is one step over all
ranks' copies. A round of queue buffer use, as `BitmapToQueue` makes it (stage items, flush,
`slide_window`), is a multi-rank machine whose steps interleave freely. -/

namespace DMM

/-- `QueueBuffer`'s default `given_size`. -/
def kLocalSize : Nat := 16384

/-- One rank's copy of the symmetric `SlidingQueue<NodeID>`; `shared` is its backing array. -/
structure SlidingQueue where
  shared : Nat → Nat
  sharedIn : Nat
  sharedOutStart : Nat
  sharedOutEnd : Nat

namespace SlidingQueue

variable (q : SlidingQueue)

/-- The constructor: `shmem_calloc` and `reset()`. -/
def init : SlidingQueue := ⟨fun _ => 0, 0, 0, 0⟩

def pushBack (x : Nat) : SlidingQueue :=
  { q with shared := Function.update q.shared q.sharedIn x, sharedIn := q.sharedIn + 1 }

def empty : Bool := q.sharedOutStart == q.sharedOutEnd

def slideWindow : SlidingQueue :=
  { q with sharedOutStart := q.sharedOutEnd, sharedOutEnd := q.sharedIn }

/-- `end() - begin()`; a window whose end fell below its start reads as empty. -/
def size : Nat := q.sharedOutEnd - q.sharedOutStart

/-- The entries `[begin(), end())`. -/
def window : List Nat := (List.range q.size).map fun i => q.shared (q.sharedOutStart + i)

@[simp] theorem slideWindow_sharedIn : q.slideWindow.sharedIn = q.sharedIn := rfl
@[simp] theorem slideWindow_shared : q.slideWindow.shared = q.shared := rfl

end SlidingQueue

/-- `std::copy` or `shmem_put64` of `len` cells of `src` to `dst + off`. -/
def copyInto (dst : Nat → Nat) (off len : Nat) (src : Nat → Nat) : Nat → Nat :=
  fun j => if off ≤ j ∧ j < off + len then src (j - off) else dst j

/-- A rank's `QueueBuffer<NodeID>`: `in` and `local_queue`. -/
structure QueueBuffer where
  count : Nat
  localQueue : Nat → Nat

namespace QueueBuffer

/-- The constructor; the cells of `new T[local_size]` read as `0` until written. -/
def fresh : QueueBuffer := ⟨0, fun _ => 0⟩

/-- `local_queue[in++] = to_add`. -/
def stage (b : QueueBuffer) (x : Nat) : QueueBuffer :=
  ⟨b.count + 1, Function.update b.localQueue b.count x⟩

/-- `QueueBuffer::flush` on rank `pe`: its own `shared` gets `in` items, every other rank
`2 * local_size` cells (`shmem_put64` of `local_size` 64-bit words) at `copy_start`. -/
def flush (b : QueueBuffer) (npes pe : Nat) (qs : Nat → SlidingQueue) : Nat → SlidingQueue :=
  fun i =>
    if i = pe then
      { qs i with
        shared := copyInto (qs i).shared (qs pe).sharedIn b.count b.localQueue
        sharedIn := (qs pe).sharedIn + b.count }
    else if i < npes then
      { qs i with
        shared := copyInto (qs i).shared (qs pe).sharedIn (2 * kLocalSize) b.localQueue
        sharedIn := (qs pe).sharedIn + kLocalSize }
    else qs i

variable (b : QueueBuffer) (npes pe : Nat) (qs : Nat → SlidingQueue)

@[simp] theorem stage_count (x : Nat) : (b.stage x).count = b.count + 1 := rfl

@[simp] theorem flush_self : b.flush npes pe qs pe =
    { qs pe with
      shared := copyInto (qs pe).shared (qs pe).sharedIn b.count b.localQueue
      sharedIn := (qs pe).sharedIn + b.count } := if_pos rfl

theorem flush_other {i : Nat} (hi : i ≠ pe) (hn : i < npes) : b.flush npes pe qs i =
    { qs i with
      shared := copyInto (qs i).shared (qs pe).sharedIn (2 * kLocalSize) b.localQueue
      sharedIn := (qs pe).sharedIn + kLocalSize } := by
  simp [flush, hi, hn]

end QueueBuffer

/-- A rank's place in one round of queue buffer use. -/
inductive QueuePc
  | stage (rest : List Nat)
  | flush
  | slide
  | done
  deriving DecidableEq

/-- Every rank's queue copy, queue buffer and place in the round. -/
structure QueueWorld where
  queues : Nat → SlidingQueue
  bufs : Nat → QueueBuffer
  pcs : Nat → QueuePc

namespace QueueWorld

variable (w : QueueWorld) (npes pe : Nat)

/-- `lqueue.flush()` on rank `pe`, which ends with `in = 0`. -/
def flushBy : QueueWorld :=
  { w with
    queues := (w.bufs pe).flush npes pe w.queues
    bufs := Function.update w.bufs pe { w.bufs pe with count := 0 } }

/-- `lqueue.push_back(x)`: a full buffer is flushed first. -/
def pushBack (x : Nat) : QueueWorld :=
  let w' := if (w.bufs pe).count = kLocalSize then w.flushBy npes pe else w
  { w' with bufs := Function.update w'.bufs pe ((w'.bufs pe).stage x) }

def setPc (p : QueuePc) : QueueWorld := { w with pcs := Function.update w.pcs pe p }

def slideBy : QueueWorld :=
  { w with queues := Function.update w.queues pe (w.queues pe).slideWindow }

@[simp] theorem setPc_queues (p : QueuePc) : (w.setPc pe p).queues = w.queues := rfl
@[simp] theorem setPc_bufs (p : QueuePc) : (w.setPc pe p).bufs = w.bufs := rfl
@[simp] theorem setPc_pcs (p : QueuePc) : (w.setPc pe p).pcs = Function.update w.pcs pe p := rfl
@[simp] theorem flushBy_pcs : (w.flushBy npes pe).pcs = w.pcs := rfl
@[simp] theorem slideBy_pcs : (w.slideBy pe).pcs = w.pcs := rfl
@[simp] theorem slideBy_bufs : (w.slideBy pe).bufs = w.bufs := rfl
@[simp] theorem pushBack_pcs (x : Nat) : (w.pushBack npes pe x).pcs = w.pcs := by
  simp only [pushBack]; split_ifs <;> rfl

end QueueWorld

/-- One step of rank `pe`. -/
def queueStep (npes : Nat) (w : QueueWorld) (pe : Nat) : QueueWorld :=
  match w.pcs pe with
  | .stage [] => w.setPc pe .flush
  | .stage (x :: rest) => (w.pushBack npes pe x).setPc pe (.stage rest)
  | .flush => (w.flushBy npes pe).setPc pe .slide
  | .slide => (w.slideBy pe).setPc pe .done
  | .done => w

/-- The ranks' steps in the order of `sched`. -/
def queueRun (npes : Nat) (w : QueueWorld) (sched : List Nat) : QueueWorld :=
  sched.foldl (queueStep npes) w

/-- A round from queue copies that all equal `q`, each rank `pe < npes` staging `items pe`. -/
def queueInit (npes : Nat) (items : Nat → List Nat) (q : SlidingQueue) : QueueWorld :=
  ⟨fun _ => q, fun _ => QueueBuffer.fresh, fun pe => if pe < npes then .stage (items pe) else .done⟩

/-- The items `BitmapToQueue` stages on rank `pe`: the set bits of its slice. -/
def bitmapToQueueItems (P : Partition) (bm : Nat → Bool) (pe : Nat) : List Nat :=
  (List.range' (P.start pe) (P.stop pe - P.start pe)).filter bm

end DMM
