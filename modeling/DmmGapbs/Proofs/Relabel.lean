import DmmGapbs.Spec.Relabel
import Mathlib.Data.List.Sort
import Mathlib.Data.List.Perm.Basic
import Mathlib.Data.List.GetD

/-! The new ids of `RelabelByDegree`. The merged list is every vertex's `(out_degree, id)` pair
once, in descending order, so Phase 3's puts, in whatever order they land, give each vertex its
position in that list: a bijection of `[0, num_nodes)` that numbers larger degrees first. -/

namespace DMM

namespace RelabelCfg

variable {c : RelabelCfg}

theorem pairGe_trans (a b d : Nat × Nat) (h1 : pairGe a b) (h2 : pairGe b d) : pairGe a d := by
  simp only [pairGe, Bool.or_eq_true, decide_eq_true_eq, Bool.and_eq_true] at *
  omega

theorem pairGe_total (a b : Nat × Nat) : pairGe a b || pairGe b a := by
  simp only [pairGe, Bool.or_eq_true, decide_eq_true_eq, Bool.and_eq_true]
  omega

theorem merged_perm : c.merged.Perm ((List.range c.g.numNodes).map c.degPair) := by
  have h : (List.range (c.npes : Nat)).flatMap (fun pe => List.range' (c.vp.start pe) (c.vp.width pe)) =
      List.range c.g.numNodes := c.vp.flatMap_ranges
  rw [← h, List.map_flatMap]
  exact (List.mergeSort_perm _ _).trans (List.Perm.flatMap_left _ fun pe _ => List.mergeSort_perm _ _)

theorem merged_sorted : c.merged.Pairwise fun a b => pairGe a b :=
  List.sorted_mergeSort pairGe_trans pairGe_total _

theorem length_merged : c.merged.length = c.g.numNodes := by
  rw [merged_perm.length_eq, List.length_map, List.length_range]

theorem mem_merged {p : Nat × Nat} (h : p ∈ c.merged) : p = c.degPair p.2 ∧ p.2 < c.g.numNodes := by
  obtain ⟨v, hv, rfl⟩ := List.mem_map.1 (merged_perm.subset h)
  exact ⟨rfl, List.mem_range.1 hv⟩

theorem merged_snd_perm : (c.merged.map Prod.snd).Perm (List.range c.g.numNodes) := by
  have := (merged_perm (c := c)).map Prod.snd
  rwa [List.map_map, show Prod.snd ∘ c.degPair = id from rfl, List.map_id] at this

/-! ### Phase 3 -/

theorem foldl_update_of_not_mem {key : Nat → Nat} {v : Nat} :
    ∀ (l : List Nat) (ids : Nat → Nat), v ∉ l.map key →
      l.foldl (fun ids n => Function.update ids (key n) n) ids v = ids v
  | [], _, _ => rfl
  | a :: l, ids, h => by
    rw [List.map_cons, List.mem_cons, not_or] at h
    rw [List.foldl_cons, foldl_update_of_not_mem l _ h.2, Function.update_noteq h.1]

theorem foldl_update_key {key : Nat → Nat} :
    ∀ (l : List Nat) (ids : Nat → Nat), (l.map key).Nodup → ∀ n ∈ l,
      l.foldl (fun ids n => Function.update ids (key n) n) ids (key n) = n
  | a :: l, ids, hl, n, hn => by
    rw [List.map_cons, List.nodup_cons] at hl
    rw [List.foldl_cons]
    rcases List.mem_cons.1 hn with rfl | hn
    · rw [foldl_update_of_not_mem l _ hl.1, Function.update_same]
    · exact foldl_update_key l _ hl.2 n hn

theorem tempPair_recv (n : Nat) :
    c.tempPair (c.vp.recv n) (c.vp.localPos n) = c.merged.getD n (0, 0) := by
  rw [tempPair, c.vp.start_recv_add]

theorem map_range_merged_snd : (List.range c.g.numNodes).map (fun n => (c.merged.getD n (0, 0)).2) =
    c.merged.map Prod.snd :=
  List.ext_getElem (by simp [length_merged]) fun i _ h2 => by
    simp only [List.getElem_map, List.getElem_range, List.getD_eq_getElem _ _ (by simpa using h2)]

theorem exists_merged {v : Nat} (hv : v < c.g.numNodes) :
    ∃ k < c.g.numNodes, c.merged.getD k (0, 0) = c.degPair v := by
  obtain ⟨p, hp, rfl⟩ := List.mem_map.1 (merged_snd_perm.mem_iff.2 (List.mem_range.2 hv))
  obtain ⟨k, hk, rfl⟩ := List.mem_iff_getElem.1 hp
  refine ⟨k, length_merged (c := c) ▸ hk, ?_⟩
  rw [List.getD_eq_getElem _ _ hk]
  exact (mem_merged (List.getElem_mem hk)).1

section Ids

variable {order : List Nat} (horder : order.Perm (List.range c.g.numNodes))
include horder

theorem newIds_merged {k : Nat} (hk : k < c.g.numNodes) :
    c.newIds order (c.merged.getD k (0, 0)).2 = k := by
  have hkey : (order.map fun n => (c.tempPair (c.vp.recv n) (c.vp.localPos n)).2).Nodup := by
    refine ((horder.map _).nodup_iff).2 ?_
    simp only [tempPair_recv, map_range_merged_snd]
    exact merged_snd_perm.nodup_iff.2 (List.nodup_range _)
  have := foldl_update_key order (fun _ => 0) hkey k (horder.mem_iff.2 (List.mem_range.2 hk))
  rw [newIds]
  simpa only [tempPair_recv] using this

theorem merged_newIds {v : Nat} (hv : v < c.g.numNodes) :
    c.newIds order v < c.g.numNodes ∧ c.merged.getD (c.newIds order v) (0, 0) = c.degPair v := by
  obtain ⟨k, hk, he⟩ := exists_merged hv
  have := newIds_merged horder hk
  rw [he] at this
  change c.newIds order v = k at this
  rw [this]
  exact ⟨hk, he⟩

theorem newIds_injective {u v : Nat} (hu : u < c.g.numNodes) (hv : v < c.g.numNodes)
    (h : c.newIds order u = c.newIds order v) : u = v := by
  have hu' := (merged_newIds horder hu).2
  rw [h, (merged_newIds horder hv).2] at hu'
  exact (congrArg Prod.snd hu').symm

theorem newIds_surjective {x : Nat} (hx : x < c.g.numNodes) :
    ∃ u < c.g.numNodes, c.newIds order u = x := by
  have hmem : c.merged.getD x (0, 0) ∈ c.merged := by
    rw [List.getD_eq_getElem _ _ (length_merged (c := c) ▸ hx)]; exact List.getElem_mem _
  exact ⟨_, (mem_merged hmem).2, newIds_merged horder hx⟩

theorem newIds_lt_of_degree {x y : Nat} (hx : x < c.g.numNodes) (hy : y < c.g.numNodes)
    (hdeg : (c.g.outNeigh y).length < (c.g.outNeigh x).length) :
    c.newIds order x < c.newIds order y := by
  obtain ⟨hx', ex⟩ := merged_newIds horder hx
  obtain ⟨hy', ey⟩ := merged_newIds horder hy
  by_contra hle
  rcases Nat.lt_or_eq_of_le (not_lt.1 hle) with hlt | heq
  · have hn := length_merged (c := c)
    have := List.pairwise_iff_getElem.1 merged_sorted _ _ (hn ▸ hy') (hn ▸ hx') hlt
    rw [← List.getD_eq_getElem _ (0, 0), ← List.getD_eq_getElem _ (0, 0), ex, ey] at this
    simp only [pairGe, degPair, Bool.or_eq_true, decide_eq_true_eq, Bool.and_eq_true] at this
    omega
  · rw [newIds_injective horder hy hx heq] at hdeg
    exact lt_irrefl _ hdeg

end Ids

end RelabelCfg

end DMM
