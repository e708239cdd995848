import DmmGapbs.Spec.Partition
import DmmGapbs.Spec.Graph
import Mathlib.Algebra.Ring.Int.Defs
import Mathlib.Data.PNat.Basic
import Mathlib.Logic.Function.Basic

/-! `SHMEM_BUStep` of `bfs.cc`, which `DOBFS` does not call. Every rank scans the ids of its
`[lower_bound, upper_bound)` and reads `parent[u]` with the global id `u` from its slice of
`max_size` cells. `awake_count` is the pointer `shmem_malloc` returned: `awake_count++` moves
the pointer, and `shmem_longlong_sum_to_all(awake_count, awake_count, ...)` reads and writes the
`long long` it points at. -/

namespace DMM

/-- One call of `SHMEM_BUStep`, with what each rank's `shmem_malloc`ed `awake_count` holds. -/
structure BuCfg where
  g : Graph
  npes : ℕ+
  fresh : Nat → Int

namespace BuCfg

variable (c : BuCfg)

/-- `parent_offset = num_nodes / npes`, the bounds of each rank and `max_size`. -/
def vp : Partition := ⟨c.g.numNodes, c.npes, c.npes.pos⟩

/-- `[lower_bound, upper_bound)` of rank `pe`. -/
def ids (pe : Nat) : List Nat := List.range' (c.vp.start pe) (c.vp.stop pe - c.vp.start pe)

/-- `SHMEM_BUStep`'s loop over `us`; `none` when `parent[u]` lies past `max_size` cells. -/
def buLoop (front : Nat → Bool) : List Nat → (Nat → Int) × (Nat → Bool) × Nat →
    Option ((Nat → Int) × (Nat → Bool) × Nat)
  | [], s => some s
  | u :: us, (parent, next, awake) =>
    if c.vp.maxWidth ≤ u then none
    else if parent u < 0 then
      match (c.g.inNeigh u).find? front with
      | some v => buLoop front us (Function.update parent u v, Function.update next u true, awake + 1)
      | none => buLoop front us (parent, next, awake)
    else buLoop front us (parent, next, awake)

/-- `SHMEM_BUStep` on every rank: the loops, then `sum_to_all` (`none` unless each `awake_count`
stays on its one cell) and `next.merge` (from the spec: `Bitmap` is not among the sources). -/
def shmemBuStep (front : Nat → Bool) (parent : Nat → Nat → Int) :
    Option ((Nat → Nat → Int) × (Nat → Bool) × Int) :=
  ((List.range c.npes).mapM fun pe => c.buLoop front (c.ids pe) (parent pe, fun _ => false, 0)).bind
    fun rs =>
      if rs.all fun r => r.2.2 == 0 then
        some (fun pe => (rs.getD pe (parent pe, fun _ => false, 0)).1, fun u => rs.any fun r => r.2.1 u,
          ((List.range c.npes).map c.fresh).sum)
      else none

end BuCfg

end DMM
