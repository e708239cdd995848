import DmmGapbs.Proofs.Squish

/-! `MakeGraph` from the edge list on: `FindMaxNodeID` sizes the graph one past the largest id, so
every endpoint is a vertex; each `MakeCSR` pass that every rank returns from, under any
interleaving and with as many `CountDegrees` barriers on every rank, leaves each vertex's cells a
permutation of the endpoints filed under it; and `SquishCSR`'s rebuilt part then lists exactly
those other than the vertex, strictly increasing. So the graph's `out_neigh` and `in_neigh` are
fixed by the edge list alone. -/

namespace DMM

/-- `l` is the strictly increasing list of the ids `y` with `p y`. -/
def Enumerates (l : List Nat) (p : Nat → Prop) : Prop := l.Pairwise (· < ·) ∧ ∀ y, y ∈ l ↔ p y

theorem Enumerates.of_iff {l : List Nat} {p q : Nat → Prop} (h : Enumerates l p)
    (hpq : ∀ y, p y ↔ q y) : Enumerates l q :=
  ⟨h.1, fun y => (h.2 y).trans (hpq y)⟩

/-! ### `FindMaxNodeID` -/

theorem foldl_max_le_iff (l : List Nat) (a m : Nat) : l.foldl max a ≤ m ↔ a ≤ m ∧ ∀ x ∈ l, x ≤ m := by
  induction l generalizing a with
  | nil => simp
  | cons y l ih => simp only [List.foldl_cons, ih, max_le_iff, List.forall_mem_cons, and_assoc]

theorem foldl_maxEnd_le_iff (l : List (Nat × Nat)) (a m : Nat) :
    l.foldl (fun m e => max (max m e.1) e.2) a ≤ m ↔ a ≤ m ∧ ∀ e ∈ l, e.1 ≤ m ∧ e.2 ≤ m := by
  induction l generalizing a with
  | nil => simp
  | cons e l ih => simp only [List.foldl_cons, ih, max_le_iff, List.forall_mem_cons, and_assoc]

theorem findMaxNodeID_le_iff (npes : Nat) (el : Nat → List (Nat × Nat)) (m : Nat) :
    findMaxNodeID npes el ≤ m ↔ ∀ p < npes, ∀ e ∈ el p, e.1 ≤ m ∧ e.2 ≤ m := by
  simp only [findMaxNodeID, foldl_max_le_iff, List.forall_mem_map, List.mem_range,
    foldl_maxEnd_le_iff, Nat.zero_le, true_and]

/-! ### The endpoints filed under a vertex -/

theorem mem_csrEnds {symmetrize transpose : Bool} {x y : Nat} {e : Nat × Nat} :
    y ∈ csrEnds symmetrize transpose x e ↔
      ((symmetrize || !transpose) = true ∧ e = (x, y)) ∨ ((symmetrize || transpose) = true ∧ e = (y, x)) := by
  obtain ⟨u, v⟩ := e
  simp only [csrEnds, List.mem_append, List.mem_ite_nil_right, List.mem_singleton, Bool.and_eq_true,
    decide_eq_true_eq, Prod.mk.injEq]
  constructor
  · rintro (⟨⟨h, rfl⟩, rfl⟩ | ⟨⟨h, rfl⟩, rfl⟩) <;> simp [h]
  · rintro (⟨h, rfl, rfl⟩ | ⟨h, rfl, rfl⟩) <;> simp [h]

theorem BuildCfg.mem_neighList (c : BuildCfg) (x y : Nat) : y ∈ c.neighList x ↔
    ((c.symmetrize || !c.transpose) = true ∧ (x, y) ∈ c.allEdges) ∨
      ((c.symmetrize || c.transpose) = true ∧ (y, x) ∈ c.allEdges) := by
  rw [c.neighList_eq_flatMap, List.mem_flatMap]
  simp only [mem_csrEnds]
  constructor
  · rintro ⟨e, he, ⟨h, rfl⟩ | ⟨h, rfl⟩⟩
    exacts [Or.inl ⟨h, he⟩, Or.inr ⟨h, he⟩]
  · rintro (⟨h, he⟩ | ⟨h, he⟩)
    exacts [⟨_, he, Or.inl ⟨h, rfl⟩⟩, ⟨_, he, Or.inr ⟨h, rfl⟩⟩]

theorem squishNeigh_perm {l l' : List Nat} (h : l.Perm l') (n : Nat) : squishNeigh n l = squishNeigh n l' :=
  List.eq_of_perm_of_sorted ((List.perm_ext_iff_of_nodup ((squishNeigh_sorted n l).imp ne_of_lt)
    ((squishNeigh_sorted n l').imp ne_of_lt)).2 fun y => by rw [mem_squishNeigh, mem_squishNeigh, h.mem_iff])
    (squishNeigh_sorted n l) (squishNeigh_sorted n l')

/-! ### One pass -/

section Pass

variable {c : BuildCfg}

theorem squishCsr_of_done (hA : c.Aligned) (hE : c.EdgesValid) {evs : List BuildEvent}
    (hdone : ∀ p < c.vp.npes, ((buildRun c (buildInit c) evs).ranks p).rest = []) (d0 : Nat → Nat)
    {x : Nat} (hx : x < c.vp.n) :
    (squishCsr c.vp (c.vp.recv x) d0 ((buildRun c (buildInit c) evs).csr (c.vp.recv x))).neighOf
      (c.vp.localPos x) = squishNeigh x (c.neighList x) := by
  obtain ⟨ds, hS, hF⟩ := BuildCfg.Filled.run hA hE BuildCfg.staged_init c.filled_init evs
  have hq := c.vp.recv_lt x
  have hg : Monotone ((buildRun c (buildInit c) evs).csr (c.vp.recv x)).index := by
    simp only [BuildWorld.csr, hF.index_of_done hS hdone hq]
    exact c.base_mono _
  rw [squishCsr_neighOf _ _ _ _ hg hq (c.vp.localPos_lt_width hx), squishedOf, c.vp.start_recv_add]
  exact squishNeigh_perm (hF.outNeighOf_perm hS hdone hx) x

theorem enumerates_squishNeigh (x : Nat) : Enumerates (squishNeigh x (c.neighList x)) fun y =>
    y ≠ x ∧ (((c.symmetrize || !c.transpose) = true ∧ (x, y) ∈ c.allEdges) ∨
      ((c.symmetrize || c.transpose) = true ∧ (y, x) ∈ c.allEdges)) :=
  ⟨squishNeigh_sorted _ _, fun y => by rw [mem_squishNeigh, c.mem_neighList, and_comm]⟩

end Pass

/-! ### `MakeGraph` -/

namespace GraphInput

variable (gi : GraphInput)

theorem edgesValid_pass (hN : gi.numNodes = none) (transpose : Bool) : (gi.pass transpose).EdgesValid :=
  fun p hp e he => by
    have := (findMaxNodeID_le_iff gi.npes gi.el _).1 le_rfl p hp e he
    show e.1 < gi.nodes ∧ e.2 < gi.nodes
    simp only [nodes, hN, Option.getD_none]
    omega

theorem pass_enumerates (hA : (gi.pass false).Aligned) (hN : gi.numNodes = none) (d0 : Nat → Nat)
    {transpose : Bool} {evs : List BuildEvent} (hdone : ∀ p < gi.npes,
      ((buildRun (gi.pass transpose) (buildInit (gi.pass transpose)) evs).ranks p).rest = [])
    {x : Nat} (hx : x < gi.nodes) :
    Enumerates ((squishCsr (gi.pass transpose).vp ((gi.pass transpose).vp.recv x) d0
        ((buildRun (gi.pass transpose) (buildInit (gi.pass transpose)) evs).csr
          ((gi.pass transpose).vp.recv x))).neighOf ((gi.pass transpose).vp.localPos x)) fun y =>
      y ≠ x ∧ (((gi.symmetrize || !transpose) = true ∧ (x, y) ∈ gi.edges) ∨
        ((gi.symmetrize || transpose) = true ∧ (y, x) ∈ gi.edges)) :=
  squishCsr_of_done (c := gi.pass transpose) hA (gi.edgesValid_pass hN transpose) hdone d0 hx ▸
    enumerates_squishNeigh x

theorem makeGraph_inNeigh (d0 : Bool → Nat → Nat → Nat) (evsOut evsIn : List BuildEvent) (x : Nat) :
    (gi.makeGraph d0 evsOut evsIn).inNeigh x =
      if gi.symmetrize then some ((gi.makeGraph d0 evsOut evsIn).outNeigh x)
      else if gi.invert then
        some ((squishCsr (gi.pass true).vp ((gi.pass true).vp.recv x) (d0 true ((gi.pass true).vp.recv x))
          ((buildRun (gi.pass true) (buildInit (gi.pass true)) evsIn).csr
            ((gi.pass true).vp.recv x))).neighOf ((gi.pass true).vp.localPos x))
      else none := by
  cases hs : gi.symmetrize <;> cases hi : gi.invert <;>
    simp [CsrGraph.inNeigh, makeGraph, squishGraph, makeGraphFromEL, hs, hi]
  rfl

end GraphInput

/-- `MakeGraph` from an edge list with `num_nodes_ = -1`: `num_nodes` is one past the largest id,
and `out_neigh`, `in_neigh` are the strictly increasing lists of the edges' other ends. -/
theorem makeGraph_lists_neighbours (gi : GraphInput) (hA : (gi.pass false).Aligned)
    (hN : gi.numNodes = none) (d0 : Bool → Nat → Nat → Nat) {evsOut evsIn : List BuildEvent}
    (hout : ∀ p < gi.npes, ((buildRun (gi.pass false) (buildInit (gi.pass false)) evsOut).ranks p).rest = [])
    (hin : (!gi.symmetrize && gi.invert) = true →
      ∀ p < gi.npes, ((buildRun (gi.pass true) (buildInit (gi.pass true)) evsIn).ranks p).rest = []) :
    (∀ m, (gi.makeGraph d0 evsOut evsIn).vp.n ≤ m + 1 ↔ ∀ p < gi.npes, ∀ e ∈ gi.el p, e.1 ≤ m ∧ e.2 ≤ m) ∧
    ∀ x < (gi.makeGraph d0 evsOut evsIn).vp.n,
      Enumerates ((gi.makeGraph d0 evsOut evsIn).outNeigh x)
        (fun y => y ≠ x ∧ ((x, y) ∈ gi.edges ∨ gi.symmetrize = true ∧ (y, x) ∈ gi.edges)) ∧
      ((gi.makeGraph d0 evsOut evsIn).inNeigh x).isSome = (gi.symmetrize || gi.invert) ∧
      ∀ l ∈ (gi.makeGraph d0 evsOut evsIn).inNeigh x,
        Enumerates l (fun y => y ≠ x ∧ ((y, x) ∈ gi.edges ∨ gi.symmetrize = true ∧ (x, y) ∈ gi.edges)) := by
  have hn : (gi.makeGraph d0 evsOut evsIn).vp.n = findMaxNodeID gi.npes gi.el + 1 := by
    simp [GraphInput.makeGraph, squishGraph, GraphInput.makeGraphFromEL, GraphInput.nodes, hN]
  refine ⟨fun m => by rw [hn, Nat.add_le_add_iff_right, findMaxNodeID_le_iff], fun x hx => ?_⟩
  have hout' : Enumerates ((gi.makeGraph d0 evsOut evsIn).outNeigh x)
      (fun y => y ≠ x ∧ ((x, y) ∈ gi.edges ∨ gi.symmetrize = true ∧ (y, x) ∈ gi.edges)) :=
    (gi.pass_enumerates hA hN (d0 false _) hout hx).of_iff fun y => by
      simp only [Bool.not_false, Bool.or_true, Bool.or_false, true_and]
  refine ⟨hout', ?_, fun l hl => ?_⟩
  · rw [gi.makeGraph_inNeigh]
    split_ifs with hs hi <;> simp_all
  · rw [gi.makeGraph_inNeigh] at hl
    split_ifs at hl with hs hi
    · obtain rfl := Option.mem_some_iff.1 hl
      exact hout'.of_iff fun y => by simp only [hs, true_and, or_comm]
    · obtain rfl := Option.mem_some_iff.1 hl
      exact (gi.pass_enumerates hA hN (d0 true _) (hin (by simp [hs, hi])) hx).of_iff fun y => by
        simp only [hs, Bool.not_true, Bool.or_true, Bool.false_or, Bool.false_eq_true, false_and,
          true_and, or_comm]
    · cases hl

/-- `edgeBuild`'s edges, built directed with `invert` and `num_nodes_ = -1`. -/
def edgeInput : GraphInput := ⟨2, by decide, false, true, none, edgeBuild.el⟩

set_option maxRecDepth 20000 in
theorem makeGraph_lists_neighbours_edgeInput : (edgeInput.pass false).Aligned ∧ edgeInput.numNodes = none ∧
    (∀ p < edgeInput.npes,
      ((buildRun (edgeInput.pass false) (buildInit (edgeInput.pass false)) edgeRounds).ranks p).rest = []) ∧
    ((!edgeInput.symmetrize && edgeInput.invert) = true → ∀ p < edgeInput.npes,
      ((buildRun (edgeInput.pass true) (buildInit (edgeInput.pass true)) edgeRounds).ranks p).rest = []) ∧
    (∀ m, (edgeInput.makeGraph (fun _ _ _ => 0) edgeRounds edgeRounds).vp.n ≤ m + 1 ↔
      ∀ p < edgeInput.npes, ∀ e ∈ edgeInput.el p, e.1 ≤ m ∧ e.2 ≤ m) ∧
    ∀ x < (edgeInput.makeGraph (fun _ _ _ => 0) edgeRounds edgeRounds).vp.n,
      Enumerates ((edgeInput.makeGraph (fun _ _ _ => 0) edgeRounds edgeRounds).outNeigh x)
        (fun y => y ≠ x ∧ ((x, y) ∈ edgeInput.edges ∨ edgeInput.symmetrize = true ∧ (y, x) ∈ edgeInput.edges)) ∧
      ((edgeInput.makeGraph (fun _ _ _ => 0) edgeRounds edgeRounds).inNeigh x).isSome =
        (edgeInput.symmetrize || edgeInput.invert) ∧
      ∀ l ∈ (edgeInput.makeGraph (fun _ _ _ => 0) edgeRounds edgeRounds).inNeigh x,
        Enumerates l (fun y => y ≠ x ∧ ((y, x) ∈ edgeInput.edges ∨ edgeInput.symmetrize = true ∧ (x, y) ∈ edgeInput.edges)) := by
  have hout : ∀ p < edgeInput.npes,
      ((buildRun (edgeInput.pass false) (buildInit (edgeInput.pass false)) edgeRounds).ranks p).rest = [] := by
    decide
  have hin : ∀ p < edgeInput.npes,
      ((buildRun (edgeInput.pass true) (buildInit (edgeInput.pass true)) edgeRounds).ranks p).rest = [] := by
    decide
  exact ⟨by decide, rfl, hout, fun _ => hin,
    makeGraph_lists_neighbours edgeInput (by decide) rfl (fun _ _ _ => 0) hout fun _ => hin⟩

end DMM
