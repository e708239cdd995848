import DmmGapbs.Spec.Partition
import DmmGapbs.Spec.Graph
import Mathlib.Data.PNat.Basic

/-! `OrderedCount` of `tc.cc`: each rank counts, for its own vertices `u`, the triangles
`u > v > w` by merging `out_neigh(v)` with a cursor over `out_neigh(u)`. -/

namespace DMM

/-- `while (*it < w) it++` on the unread suffix; `none` when `*it` reads past the end. -/
def advance (w : Nat) : List Nat → Option (List Nat)
  | [] => none
  | x :: xs => if x < w then advance w xs else some (x :: xs)

/-- The loop over `w ∈ out_neigh(v)` with the cursor `it`: how much it adds to `total`. -/
def mergeCount (v : Nat) : List Nat → List Nat → Option Nat
  | [], _ => some 0
  | w :: ws, it =>
    if v < w then some 0 else
    match advance w it with
    | some (x :: xs) => (mergeCount v ws (x :: xs)).map ((if w = x then 1 else 0) + ·)
    | _ => none

/-- The loop over `v ∈ out_neigh(u)` up to the first `v > u`. -/
def countAt (g : Graph) (u : Nat) : List Nat → Option Nat
  | [] => some 0
  | v :: vs =>
    if u < v then some 0 else do
    let a ← mergeCount v (g.outNeigh v) (g.outNeigh u)
    let b ← countAt g u vs
    pure (a + b)

/-- A sum of counts, `none` as soon as one of them read past the end of a list. -/
def sumOpt (f : Nat → Option Nat) : List Nat → Option Nat
  | [] => some 0
  | x :: xs => do
    let a ← f x
    let b ← sumOpt f xs
    pure (a + b)

/-- `OrderedCount`: each rank's count over its slice, summed by `shmem_long_sum_to_all`. -/
def orderedCount (g : Graph) (npes : ℕ+) : Option Nat :=
  let vp : Partition := ⟨g.numNodes, npes, npes.pos⟩
  sumOpt (fun pe => sumOpt (fun u => countAt g u (g.outNeigh u))
    (List.range' (vp.start pe) (vp.width pe))) (List.range npes)

/-- The triangles `u > v > w` of pairwise adjacent vertices with top vertex `u`. -/
def trianglesAt (g : Graph) (u : Nat) : Nat :=
  ((List.range u).map fun v => ((List.range v).map fun w =>
    if v ∈ g.outNeigh u ∧ w ∈ g.outNeigh v ∧ w ∈ g.outNeigh u then 1 else 0).sum).sum

/-- The triangles of a symmetric graph, each counted once as `u > v > w`. -/
def triangles (g : Graph) : Nat := ((List.range g.numNodes).map (trianglesAt g)).sum

end DMM
