import Mathlib.Data.List.Sort

/-! The graphs the kernels read. Only the logical content of the distributed CSR is kept:
`out_neigh(u)` (and `in_neigh(u)`) as lists, whichever rank stores them. -/

namespace DMM

/-- `CSRGraph<NodeID>`: `out_neigh` and `in_neigh` (equal for an undirected graph). -/
structure Graph where
  numNodes : Nat
  outNeigh : Nat → List Nat
  inNeigh : Nat → List Nat

/-- `CSRGraph<NodeID, WNode>`: `out_neigh(u)` lists `(v, w)` pairs, weights non-negative. -/
structure WGraph where
  numNodes : Nat
  outNeigh : Nat → List (Nat × Nat)

namespace Graph

/-- Adjacency symmetric: the graph is undirected and symmetrized. -/
def Symmetric (g : Graph) : Prop := ∀ u v, v ∈ g.outNeigh u ↔ u ∈ g.outNeigh v

/-- What `SquishCSR` guarantees of every out-neighbour list. -/
structure Squished (g : Graph) : Prop where
  sorted : ∀ u, (g.outNeigh u).Sorted (· < ·)
  loopFree : ∀ u, u ∉ g.outNeigh u

/-- A graph from its adjacency lists, for concrete inputs. -/
def ofAdj (adj : List (List Nat)) : Graph :=
  ⟨adj.length, fun u => adj.getD u [], fun u => adj.getD u []⟩

/-- Every id the lists of a vertex hold is a vertex. -/
structure Valid (g : Graph) : Prop where
  out : ∀ u < g.numNodes, ∀ v ∈ g.outNeigh u, v < g.numNodes
  inn : ∀ u < g.numNodes, ∀ v ∈ g.inNeigh u, v < g.numNodes

/-- `Hops g s v k`: some walk of `k` out-edges leads from `s` to `v`. -/
inductive Hops (g : Graph) (s : Nat) : Nat → Nat → Prop
  | nil : Hops g s s 0
  | cons {u v k : Nat} : Hops g s u k → v ∈ g.outNeigh u → Hops g s v (k + 1)

def Reach (g : Graph) (s v : Nat) : Prop := ∃ k, g.Hops s v k

/-- `k` is the hop distance from `s` to `v`. -/
def HopDist (g : Graph) (s v k : Nat) : Prop := g.Hops s v k ∧ ∀ k', g.Hops s v k' → k ≤ k'

end Graph

namespace WGraph

/-- A graph from its weighted adjacency lists, for concrete inputs. -/
def ofAdj (adj : List (List (Nat × Nat))) : WGraph := ⟨adj.length, fun u => adj.getD u []⟩

/-- `Walk g s v d`: some walk from `s` to `v` has total weight `d`. -/
inductive Walk (g : WGraph) (s : Nat) : Nat → Nat → Prop
  | nil : Walk g s s 0
  | cons {u d v w : Nat} : Walk g s u d → (v, w) ∈ g.outNeigh u → Walk g s v (d + w)

/-- `d` is the least weight of a walk from `s` to `v`. -/
def IsShortest (g : WGraph) (s v d : Nat) : Prop :=
  Walk g s v d ∧ ∀ d', Walk g s v d' → d ≤ d'

end WGraph

end DMM
