import DmmGapbs.Proofs.RelabelCopy
import DmmGapbs.Proofs.Tc
import Mathlib.Data.Finset.Powerset
import Mathlib.Data.List.Sort

/-! `Hybrid` returns the same count whether or not it relabels. On a symmetric graph the
triangles `u > v > w` that `OrderedCount` counts are the pairwise adjacent 3-sets of vertices,
and `new_ids` maps the 3-sets of the graph one to one onto those of the graph `RelabelByDegree`
returns, which is again squished, for every order of Phase 3's puts and every fair interleaving
of the copy loop. -/

namespace DMM

open Finset

namespace Graph

/-- The pairwise adjacent 3-sets of vertices: the triangles of an undirected graph. -/
def cliques3 (g : Graph) : Finset (Finset Nat) :=
  ((range g.numNodes).powersetCard 3).filter fun s => ∀ a ∈ s, ∀ b ∈ s, a ≠ b → b ∈ g.outNeigh a

/-- The triples `u > v > w` that `triangles` counts. -/
def descTriples (g : Graph) : Finset (Σ _ : Nat, Σ _ : Nat, Nat) :=
  (range g.numNodes).sigma fun u => (range u).sigma fun v =>
    (range v).filter fun w => v ∈ g.outNeigh u ∧ w ∈ g.outNeigh v ∧ w ∈ g.outNeigh u

variable {g : Graph}

theorem mem_cliques3 {s : Finset Nat} : s ∈ g.cliques3 ↔
    s ⊆ range g.numNodes ∧ s.card = 3 ∧ ∀ a ∈ s, ∀ b ∈ s, a ≠ b → b ∈ g.outNeigh a := by
  simp only [cliques3, mem_filter, mem_powersetCard, and_assoc]

theorem mem_descTriples {u v w : Nat} : ⟨u, v, w⟩ ∈ g.descTriples ↔ u < g.numNodes ∧ v < u ∧ w < v ∧
    v ∈ g.outNeigh u ∧ w ∈ g.outNeigh v ∧ w ∈ g.outNeigh u := by
  simp only [descTriples, mem_sigma, mem_range, mem_filter]

theorem triangles_eq_card_descTriples : triangles g = g.descTriples.card := by
  simp only [triangles, trianglesAt, sum_range_list, descTriples, card_sigma, card_filter]

theorem exists_desc3_of_lt {x y z : Nat} (hyx : y < x) (hxz : x ≠ z) (hyz : y ≠ z) :
    ∃ a b c, b < a ∧ c < b ∧ ({a, b, c} : Finset Nat) = {x, y, z} := by
  rcases Nat.lt_or_gt_of_ne hxz with hz | hz
  · exact ⟨z, x, y, hz, hyx, by rw [Insert.comm, pair_comm]⟩
  · rcases Nat.lt_or_gt_of_ne hyz with hz' | hz'
    · exact ⟨x, z, y, hz, hz', by rw [pair_comm]⟩
    · exact ⟨x, y, z, hyx, hz', rfl⟩

theorem exists_desc3 {x y z : Nat} (hxy : x ≠ y) (hxz : x ≠ z) (hyz : y ≠ z) :
    ∃ a b c, b < a ∧ c < b ∧ ({a, b, c} : Finset Nat) = {x, y, z} := by
  rcases Nat.lt_or_gt_of_ne hxy with h | h
  · rw [Insert.comm]; exact exists_desc3_of_lt h hyz hxz
  · exact exists_desc3_of_lt h hxz hyz

section Undirected

variable (hsym : ∀ u < g.numNodes, ∀ v < g.numNodes, v ∈ g.outNeigh u ↔ u ∈ g.outNeigh v)

include hsym in
theorem card_descTriples : g.descTriples.card = g.cliques3.card := by
  refine card_bij (fun t _ => {t.1, t.2.1, t.2.2}) ?maps ?inj ?surj
  case maps =>
    rintro ⟨u, v, w⟩ ht
    obtain ⟨hu, hvu, hwv, huv, hvw, huw⟩ := mem_descTriples.mp ht
    refine mem_cliques3.mpr ⟨fun x hx => ?_, card_eq_three.mpr ⟨u, v, w, by omega, by omega, by omega, rfl⟩,
      fun a ha b hb hab => ?_⟩
    · simp only [mem_insert, mem_singleton] at hx; simp only [mem_range]; omega
    · simp only [mem_insert, mem_singleton] at ha hb
      -- the same vertex twice, an edge of the triangle, or one read the other way
      rcases ha with rfl | rfl | rfl <;> rcases hb with rfl | rfl | rfl
      all_goals first
        | exact absurd rfl hab
        | assumption
        | exact (hsym _ (by omega) _ (by omega)).mp ‹_›
  case inj =>
    rintro ⟨u, v, w⟩ ht ⟨u', v', w'⟩ ht' (h : ({u, v, w} : Finset Nat) = {u', v', w'})
    obtain ⟨-, hvu, hwv, -⟩ := mem_descTriples.mp ht
    obtain ⟨-, hvu', hwv', -⟩ := mem_descTriples.mp ht'
    have hm : ∀ x ∈ ({u, v, w} : Finset Nat), x = u' ∨ x = v' ∨ x = w' := fun x hx => by
      rw [h] at hx; simpa only [mem_insert, mem_singleton] using hx
    have hm' : ∀ x ∈ ({u', v', w'} : Finset Nat), x = u ∨ x = v ∨ x = w := fun x hx => by
      rw [← h] at hx; simpa only [mem_insert, mem_singleton] using hx
    -- the largest and the least of the two sets agree, and then so do the middle ones
    obtain ⟨rfl, rfl, rfl⟩ : u = u' ∧ v = v' ∧ w = w' := by
      have := hm u (by simp); have := hm v (by simp); have := hm w (by simp)
      have := hm' u' (by simp); have := hm' w' (by simp)
      omega
    rfl
  case surj =>
    intro s hs
    obtain ⟨hsub, hcard, hadj⟩ := mem_cliques3.mp hs
    obtain ⟨x, y, z, hxy, hxz, hyz, rfl⟩ := card_eq_three.mp hcard
    obtain ⟨a, b, c, hba, hcb, he⟩ := exists_desc3 hxy hxz hyz
    rw [← he] at hsub hadj
    refine ⟨⟨a, b, c⟩, mem_descTriples.mpr ⟨mem_range.mp (hsub (by simp)), hba, hcb,
      hadj _ (by simp) _ (by simp) (by omega), hadj _ (by simp) _ (by simp) (by omega),
      hadj _ (by simp) _ (by simp) (by omega)⟩, he⟩

include hsym in
theorem triangles_eq_card_cliques3 : triangles g = g.cliques3.card := by
  rw [triangles_eq_card_descTriples, card_descTriples hsym]

end Undirected

section Iso

variable {g' : Graph} {f : Nat → Nat} (hn : g'.numNodes = g.numNodes)
  (hf : ∀ u < g.numNodes, f u < g.numNodes)
  (hinj : ∀ u < g.numNodes, ∀ v < g.numNodes, f u = f v → u = v)
  (hsurj : ∀ x < g.numNodes, ∃ u < g.numNodes, f u = x)
  (hadj : ∀ u < g.numNodes, ∀ v < g.numNodes, f v ∈ g'.outNeigh (f u) ↔ v ∈ g.outNeigh u)

include hsurj in
theorem image_filter_eq {s' : Finset Nat} (hs : s' ⊆ range g.numNodes) :
    ((range g.numNodes).filter (f · ∈ s')).image f = s' := by
  ext x
  simp only [mem_image, mem_filter, mem_range]
  constructor
  · rintro ⟨u, ⟨-, hu⟩, rfl⟩; exact hu
  · intro hx
    obtain ⟨u, hu, rfl⟩ := hsurj x (mem_range.mp (hs hx))
    exact ⟨u, ⟨hu, hx⟩, rfl⟩

include hn hf hinj hsurj hadj in
theorem card_cliques3_eq : g'.cliques3.card = g.cliques3.card := by
  have hinjOn : ∀ s ⊆ range g.numNodes, Set.InjOn f s := fun s hs u hu v hv =>
    hinj u (mem_range.mp (hs hu)) v (mem_range.mp (hs hv))
  symm
  refine card_nbij' (fun s => s.image f) (fun s' => (range g.numNodes).filter (f · ∈ s'))
    ?maps ?back ?left ?right
  case maps =>
    intro s hs
    obtain ⟨hsub, hcard, hs⟩ := mem_cliques3.mp hs
    refine mem_cliques3.mpr ⟨fun x hx => ?_, by rw [card_image_of_injOn (hinjOn s hsub), hcard], ?_⟩
    · obtain ⟨u, hu, rfl⟩ := mem_image.mp hx
      exact hn ▸ mem_range.mpr (hf u (mem_range.mp (hsub hu)))
    · simp only [mem_image]
      rintro _ ⟨a, ha, rfl⟩ _ ⟨b, hb, rfl⟩ hab
      have ha' := mem_range.mp (hsub ha); have hb' := mem_range.mp (hsub hb)
      exact (hadj a ha' b hb').mpr (hs a ha b hb fun h => hab (h ▸ rfl))
  case back =>
    intro s' hs'
    obtain ⟨hsub, hcard, hs'⟩ := mem_cliques3.mp hs'
    have hsub' : s' ⊆ range g.numNodes := hn ▸ hsub
    refine mem_cliques3.mpr ⟨filter_subset _ _, ?_, fun a ha b hb hab => ?_⟩
    · rw [← card_image_of_injOn (hinjOn _ (filter_subset _ _)), image_filter_eq hsurj hsub', hcard]
    · simp only [mem_filter, mem_range] at ha hb
      exact (hadj a ha.1 b hb.1).mp
        (hs' _ ha.2 _ hb.2 fun h => hab (hinj a ha.1 b hb.1 h))
  case left =>
    intro s hs
    have hsub := (mem_cliques3.mp hs).1
    ext u
    simp only [mem_filter, mem_range, mem_image]
    constructor
    · rintro ⟨hu, a, ha, he⟩
      exact hinj a (mem_range.mp (hsub ha)) u hu he ▸ ha
    · intro hu
      exact ⟨mem_range.mp (hsub hu), u, hu, rfl⟩
  case right =>
    intro s' hs'
    exact image_filter_eq hsurj (hn ▸ (mem_cliques3.mp hs').1)

end Iso

theorem symmetric_ofAdj {adj : List (List Nat)}
    (hv : ∀ u < adj.length, ∀ v ∈ adj.getD u [], v < adj.length)
    (h : ∀ u < adj.length, ∀ v < adj.length, v ∈ adj.getD u [] ↔ u ∈ adj.getD v []) :
    (ofAdj adj).Symmetric := by
  have hb : ∀ u v, v ∈ adj.getD u [] → u < adj.length ∧ v < adj.length := fun u v hm => by
    by_cases hu : u < adj.length
    · exact ⟨hu, hv u hu v hm⟩
    · rw [List.getD_eq_default _ _ (Nat.not_lt.mp hu)] at hm; exact absurd hm (List.not_mem_nil v)
  intro u v
  constructor
  · intro hm; obtain ⟨hu, hv'⟩ := hb u v hm; exact (h u hu v hv').mp hm
  · intro hm; obtain ⟨hv', hu⟩ := hb v u hm; exact (h u hu v hv').mpr hm

end Graph

namespace RelabelCfg

variable {c : RelabelCfg} {order sched : List Nat}

theorem relabelByDegree_outNeigh_of_ge {x : Nat} (hx : c.g.numNodes ≤ x) :
    (c.relabelByDegree order sched).outNeigh x = [] := by
  simp only [relabelByDegree, relabeled, if_neg (Nat.not_lt.mpr hx)]

section Relabeled

variable (horder : order.Perm (List.range c.g.numNodes))
  (hfair : ∀ pe < (c.npes : Nat), 2 * (c.copyInit.ranks pe).todo.length ≤ sched.count pe)
  (hv : ∀ u < c.g.numNodes, ∀ v ∈ c.g.outNeigh u, v < c.g.numNodes)

include horder hfair in
theorem relabelByDegree_outNeigh {u : Nat} (hu : u < c.g.numNodes) :
    (c.relabelByDegree order sched).outNeigh (c.newIds order u) =
      ((c.g.outNeigh u).map (c.newIds order)).mergeSort :=
  relabeled_outNeigh (fun _ hv => (merged_newIds horder hv).1)
    (fun _ hu _ hv => newIds_injective horder hu hv) (fun _ hv => c.degreesOf_newIds horder hv) hfair hu

include horder hfair hv in
theorem newIds_mem_relabelByDegree {u v : Nat} (hu : u < c.g.numNodes) (hv' : v < c.g.numNodes) :
    c.newIds order v ∈ (c.relabelByDegree order sched).outNeigh (c.newIds order u) ↔
      v ∈ c.g.outNeigh u := by
  rw [relabelByDegree_outNeigh horder hfair hu, List.mem_mergeSort, List.mem_map]
  constructor
  · rintro ⟨w, hw, he⟩
    exact newIds_injective horder (hv u hu w hw) hv' he ▸ hw
  · exact fun h => ⟨v, h, rfl⟩

include horder hfair hv in
theorem relabelByDegree_squished (hsq : c.g.Squished) : (c.relabelByDegree order sched).Squished := by
  constructor
  · intro x
    by_cases hx : x < c.g.numNodes
    · obtain ⟨u, hu, rfl⟩ := newIds_surjective horder hx
      have hnodup : ((c.g.outNeigh u).map (c.newIds order)).Nodup :=
        (hsq.sorted u).nodup.map_on fun a ha b hb => newIds_injective horder (hv u hu a ha) (hv u hu b hb)
      rw [relabelByDegree_outNeigh horder hfair hu]
      exact (List.sorted_mergeSort' _).lt_of_le ((List.mergeSort_perm _ _).nodup_iff.mpr hnodup)
    · rw [relabelByDegree_outNeigh_of_ge (Nat.not_lt.mp hx)]; exact List.sorted_nil
  · intro x
    by_cases hx : x < c.g.numNodes
    · obtain ⟨u, hu, rfl⟩ := newIds_surjective horder hx
      rw [newIds_mem_relabelByDegree horder hfair hv hu hu]
      exact hsq.loopFree u
    · rw [relabelByDegree_outNeigh_of_ge (Nat.not_lt.mp hx)]; exact List.not_mem_nil x

include horder hfair hv in
theorem triangles_relabelByDegree (hsym : c.g.Symmetric) :
    triangles (c.relabelByDegree order sched) = triangles c.g := by
  have hsym' : ∀ x < c.g.numNodes, ∀ y < c.g.numNodes, y ∈ (c.relabelByDegree order sched).outNeigh x ↔
      x ∈ (c.relabelByDegree order sched).outNeigh y := fun x hx y hy => by
    obtain ⟨u, hu, rfl⟩ := newIds_surjective horder hx
    obtain ⟨v, hv', rfl⟩ := newIds_surjective horder hy
    rw [newIds_mem_relabelByDegree horder hfair hv hu hv', newIds_mem_relabelByDegree horder hfair hv hv' hu]
    exact hsym u v
  rw [Graph.triangles_eq_card_cliques3 hsym', Graph.triangles_eq_card_cliques3 fun u _ v _ => hsym u v]
  exact Graph.card_cliques3_eq rfl (fun _ hu => (merged_newIds horder hu).1)
    (fun _ hu _ hv => newIds_injective horder hu hv) (fun _ hx => newIds_surjective horder hx)
    (fun _ hu _ hv' => newIds_mem_relabelByDegree horder hfair hv hu hv')

end Relabeled

/-- What one run of `RelabelByDegree` gives and what `Hybrid` then counts. -/
structure RelabelSpec (c : RelabelCfg) (order sched : List Nat) : Prop where
  lt : ∀ u < c.g.numNodes, c.newIds order u < c.g.numNodes
  inj : ∀ u < c.g.numNodes, ∀ v < c.g.numNodes, c.newIds order u = c.newIds order v → u = v
  surj : ∀ x < c.g.numNodes, ∃ u < c.g.numNodes, c.newIds order u = x
  /-- A larger out-degree gets a smaller new id. -/
  degree : ∀ x < c.g.numNodes, ∀ y < c.g.numNodes,
    (c.g.outNeigh y).length < (c.g.outNeigh x).length → c.newIds order x < c.newIds order y
  /-- `out_neigh(new_ids[u])` is the ascending list of the new ids of `out_neigh(u)`, -/
  outNeigh : ∀ u < c.g.numNodes, (c.relabelByDegree order sched).outNeigh (c.newIds order u) =
    ((c.g.outNeigh u).map (c.newIds order)).mergeSort
  /-- strictly increasing and without self-loops. -/
  squished : (c.relabelByDegree order sched).Squished
  /-- `Hybrid` counts the triangles of `g` whether or not it relabels. -/
  hybrid : ∀ worth, c.hybrid worth order sched = some (triangles c.g)

/-- On every symmetric squished graph, under every order of Phase 3's puts and every fair
interleaving of the copy loop, `RelabelByDegree` meets `RelabelSpec`. -/
theorem relabelByDegree_spec (hsym : c.g.Symmetric) (hsq : c.g.Squished)
    (hv : ∀ u < c.g.numNodes, ∀ v ∈ c.g.outNeigh u, v < c.g.numNodes)
    (horder : order.Perm (List.range c.g.numNodes))
    (hfair : ∀ pe < (c.npes : Nat), 2 * (c.copyInit.ranks pe).todo.length ≤ sched.count pe) :
    c.RelabelSpec order sched where
  lt _ hu := (merged_newIds horder hu).1
  inj _ hu _ hv := newIds_injective horder hu hv
  surj _ hx := newIds_surjective horder hx
  degree _ hx _ hy := newIds_lt_of_degree horder hx hy
  outNeigh _ hu := relabelByDegree_outNeigh horder hfair hu
  squished := relabelByDegree_squished horder hfair hv hsq
  hybrid worth := by
    have hcount : ∀ g : Graph, g.Squished → orderedCount g c.npes = some (triangles g) :=
      fun g hg => orderedCount_of_countAt (countAt_outNeigh hg) c.npes
    cases worth
    · exact hcount _ hsq
    · rw [← triangles_relabelByDegree horder hfair hv hsym]
      exact hcount _ (relabelByDegree_squished horder hfair hv hsq)

/-- The paw: the triangle `0, 1, 2` and a pendant vertex `3` on `2`, of degrees `2, 2, 3, 1`. -/
def paw : RelabelCfg := ⟨Graph.ofAdj [[1, 2], [0, 2], [0, 1, 3], [2]], 2⟩

def pawSched : List Nat := (List.range 16).map (· % 2)

theorem paw_symmetric : paw.g.Symmetric := Graph.symmetric_ofAdj (by decide) (by decide)

theorem paw_squished : paw.g.Squished := by
  constructor <;> intro u <;> rcases u with _ | _ | _ | _ | u <;> simp [paw, Graph.ofAdj]

theorem relabelByDegree_spec_paw : paw.g.Symmetric ∧ paw.g.Squished ∧
    (∀ u < paw.g.numNodes, ∀ v ∈ paw.g.outNeigh u, v < paw.g.numNodes) ∧
    (List.range 4).Perm (List.range paw.g.numNodes) ∧
    (∀ pe < (paw.npes : Nat), 2 * (paw.copyInit.ranks pe).todo.length ≤ pawSched.count pe) ∧
    paw.RelabelSpec (List.range 4) pawSched :=
  ⟨paw_symmetric, paw_squished, by decide, List.Perm.refl _, by decide,
    relabelByDegree_spec paw_symmetric paw_squished (by decide) (List.Perm.refl _) (by decide)⟩

end RelabelCfg

end DMM
