import DmmGapbs.Spec.Graph
import Mathlib.Algebra.Ring.Int.Defs
import Mathlib.Logic.Function.Basic

/-! `BFSVerifier` of `bfs.cc`: a serial BFS over `out_neigh` from `source` that fills `depth`
(`-1` for a vertex not reached) and the `to_visit` vector, then a test of every vertex's
`parent` entry against `depth` and `in_neigh`, which returns `false` at the first failure. -/

namespace DMM

/-- The serial BFS's inner loop over the out-neighbours `vs` of `u`. -/
def visitNeighbors (u : Nat) : (Nat → Int) × List Nat → List Nat → (Nat → Int) × List Nat
  | s, [] => s
  | (depth, toVisit), v :: vs =>
    if depth v = -1 then visitNeighbors u (Function.update depth v (depth u + 1), toVisit ++ [v]) vs
    else visitNeighbors u (depth, toVisit) vs

/-- The loop over `to_visit` from position `i`, for at most `fuel` rounds. -/
def bfsVisit (g : Graph) : Nat → Nat → (Nat → Int) × List Nat → (Nat → Int) × List Nat
  | 0, _, s => s
  | fuel + 1, i, s =>
    match s.2[i]? with
    | none => s
    | some u => bfsVisit g fuel (i + 1) (visitNeighbors u s (g.outNeigh u))

/-- The serial BFS of `BFSVerifier`, with `num_nodes + 1` rounds, more than it takes. -/
def verifierDepth (g : Graph) (source : Nat) : (Nat → Int) × List Nat :=
  bfsVisit g (g.numNodes + 1) 0 (Function.update (fun _ => -1) source 0, [source])

/-- `BFSVerifier`'s test of vertex `u` against `depth`. -/
def checkVertex (g : Graph) (source : Nat) (depth parent : Nat → Int) (u : Nat) : Bool :=
  if depth u ≠ -1 ∧ parent u ≠ -1 then
    if u = source then decide (parent u = u ∧ depth u = 0)
    else
      match (g.inNeigh u).find? fun v : Nat => (v : Int) = parent u with
      | some v => decide (depth v = depth u - 1)
      | none => false
  else decide (depth u = parent u)

/-- `BFSVerifier(g, source, parent)`. -/
def bfsVerifier (g : Graph) (source : Nat) (parent : Nat → Int) : Bool :=
  (List.range g.numNodes).all (checkVertex g source (verifierDepth g source).1 parent)

/-- A valid BFS parent array: the source its own parent, `-1` exactly on the unreached vertices,
every other vertex's parent an in-neighbour one hop closer. -/
def ValidParent (g : Graph) (source : Nat) (parent : Nat → Int) : Prop :=
  parent source = source ∧ (∀ u < g.numNodes, parent u = -1 ↔ ¬g.Reach source u) ∧
  ∀ u < g.numNodes, u ≠ source → g.Reach source u →
    ∃ p ∈ g.inNeigh u, parent u = p ∧ ∃ k, g.HopDist source p k ∧ g.HopDist source u (k + 1)

end DMM
