import DmmGapbs.Spec.BfsVerifier
import Mathlib.Data.List.Nodup

/-! `BFSVerifier` accepts exactly the valid parent arrays. Its serial BFS keeps the textbook
invariant (a duplicate-free `to_visit` whose depths do not decrease and span at most two
levels past the iterator, every visited vertex marked and at its walk length, every processed
vertex's out-neighbours visited one level further at most), so when the loop ends `depth` is
the hop distance and `-1` off the reached set; `to_visit` never holds a vertex twice. -/

namespace DMM

open Graph

variable {g : Graph} {s : Nat}

theorem visitNeighbors_spec {u : Nat} (vs : List Nat) :
    ∀ (d : Nat → Int) (Q : List Nat), 0 ≤ d u → (∀ x, d x ≠ -1 ↔ x ∈ Q) →
    ∃ N : List Nat, visitNeighbors u (d, Q) vs = (fun x => if x ∈ N then d u + 1 else d x, Q ++ N) ∧
      N.Nodup ∧ (∀ x ∈ N, x ∈ vs ∧ x ∉ Q) ∧ ∀ v ∈ vs, v ∈ Q ∨ v ∈ N := by
  induction vs with
  | nil => exact fun d Q _ _ => ⟨[], by simp [visitNeighbors], List.nodup_nil, by simp, by simp⟩
  | cons v vs ih =>
    intro d Q hu hmem
    by_cases hv : d v = -1
    · have hvu : u ≠ v := by rintro rfl; omega
      have hvQ : v ∉ Q := fun h => (hmem v).2 h hv
      obtain ⟨N, hr, hN, hNQ, hcov⟩ := ih (Function.update d v (d u + 1)) (Q ++ [v])
        (by rw [Function.update_noteq hvu]; exact hu) (fun x => by
          by_cases hx : x = v
          · subst hx; simp; omega
          · simp [Function.update_noteq hx, hmem x, hx])
      rw [Function.update_noteq hvu] at hr
      refine ⟨v :: N, ?_, ?_, ?_, ?_⟩
      · rw [visitNeighbors, if_pos hv, hr, List.append_assoc, List.singleton_append]
        congr 1; funext x
        by_cases hx : x = v
        · subst hx; simp
        · simp [Function.update_noteq hx, hx]
      · exact List.nodup_cons.2 ⟨fun h => (hNQ v h).2 (by simp), hN⟩
      · intro x hx
        rcases List.mem_cons.1 hx with rfl | hx
        · exact ⟨List.mem_cons_self _ _, hvQ⟩
        · exact ⟨List.mem_cons_of_mem _ (hNQ x hx).1, fun h => (hNQ x hx).2 (by simp [h])⟩
      · intro w hw
        rcases List.mem_cons.1 hw with rfl | hw
        · exact .inr (List.mem_cons_self _ _)
        · rcases hcov w hw with h | h
          · rcases List.mem_append.1 h with h | h
            · exact .inl h
            · exact .inr (by simp at h; simp [h])
          · exact .inr (List.mem_cons_of_mem _ h)
    · obtain ⟨N, hr, hN, hNQ, hcov⟩ := ih d Q hu hmem
      refine ⟨N, by rw [visitNeighbors, if_neg hv, hr], hN,
        fun x hx => ⟨List.mem_cons_of_mem _ (hNQ x hx).1, (hNQ x hx).2⟩, fun w hw => ?_⟩
      rcases List.mem_cons.1 hw with rfl | hw
      · exact .inl ((hmem _).1 hv)
      · exact hcov w hw

/-- The invariant of the `to_visit` loop with the iterator at `i`. -/
structure VisitInv (g : Graph) (s : Nat) (d : Nat → Int) (Q : List Nat) (i : Nat) : Prop where
  nodup : Q.Nodup
  lt : ∀ x ∈ Q, x < g.numNodes
  mem : ∀ x, d x ≠ -1 ↔ x ∈ Q
  src : d s = 0
  hops : ∀ x ∈ Q, 0 ≤ d x ∧ g.Hops s x (d x).toNat
  /-- Past the iterator, depths do not decrease ... -/
  sorted : (Q.drop i).Pairwise fun a b => d a ≤ d b
  /-- ... and no visited vertex is more than one level deeper than a vertex past it. -/
  front : ∀ u ∈ Q.drop i, ∀ x ∈ Q, d x ≤ d u + 1
  /-- The out-neighbours of a processed vertex are visited, at most one level deeper. -/
  closed : ∀ u ∈ Q.take i, ∀ v ∈ g.outNeigh u, v ∈ Q ∧ d v ≤ d u + 1
  le : i ≤ Q.length

theorem visitInv_init (hs : s < g.numNodes) :
    VisitInv g s (Function.update (fun _ => -1) s 0) [s] 0 where
  nodup := List.nodup_singleton s
  lt := by simpa using hs
  mem x := by rcases eq_or_ne x s with rfl | hx <;> simp [*]
  src := by simp
  hops := by simpa using Hops.nil
  sorted := by simp
  front := by simp
  closed := by simp
  le := by simp

theorem VisitInv.step (hg : g.Valid) {d : Nat → Int} {Q : List Nat} {i u : Nat}
    (h : VisitInv g s d Q i) (hu : Q[i]? = some u) :
    VisitInv g s (visitNeighbors u (d, Q) (g.outNeigh u)).1
      (visitNeighbors u (d, Q) (g.outNeigh u)).2 (i + 1) := by
  obtain ⟨hi, rfl⟩ := List.getElem?_eq_some_iff.1 hu
  have hdrop := List.drop_eq_getElem_cons hi
  have huQ : Q[i] ∈ Q := List.getElem_mem hi
  have hu0 := (h.hops _ huQ).1
  obtain ⟨N, hr, hN, hNQ, hcov⟩ := visitNeighbors_spec (g.outNeigh Q[i]) d Q hu0 h.mem
  rw [hr]
  dsimp only
  -- old vertices keep their depth
  have hold : ∀ x ∈ Q, x ∉ N := fun x hx hn => (hNQ x hn).2 hx
  have hd : ∀ x, x ∉ N → (if x ∈ N then d Q[i] + 1 else d x) = d x := fun x hx => if_neg hx
  have hfront : ∀ x ∈ Q, d x ≤ d Q[i] + 1 := h.front _ (by rw [hdrop]; exact List.mem_cons_self _ _)
  have hsorted := h.sorted
  rw [hdrop, List.pairwise_cons] at hsorted
  refine ⟨?_, ?_, ?_, ?_, ?_, ?_, ?_, ?_, ?_⟩
  · exact List.nodup_append.2 ⟨h.nodup, hN, fun x hx hn => hold x hx hn⟩
  · intro x hx
    rcases List.mem_append.1 hx with hx | hx
    · exact h.lt x hx
    · exact hg.out _ (h.lt _ huQ) x (hNQ x hx).1
  · intro x
    by_cases hx : x ∈ N
    · rw [if_pos hx]; simp only [List.mem_append, hx, or_true, iff_true]; omega
    · rw [hd x hx, h.mem]; simp [hx]
  · rw [hd s (hold s ((h.mem s).1 (by rw [h.src]; decide))), h.src]
  · intro x hx
    by_cases hxN : x ∈ N
    · rw [if_pos hxN]
      refine ⟨by omega, ?_⟩
      rw [show (d Q[i] + 1).toNat = (d Q[i]).toNat + 1 by omega]
      exact .cons (h.hops _ huQ).2 (hNQ x hxN).1
    · rw [hd x hxN]
      exact h.hops x ((List.mem_append.1 hx).resolve_right hxN)
  · rw [List.drop_append_of_le_length hi, List.pairwise_append]
    refine ⟨hsorted.2.imp_of_mem fun ha hb hab => ?_,
      List.pairwise_of_forall_mem_list fun a ha b hb => by simp [ha, hb],
      fun a ha b hb => ?_⟩
    · rw [hd _ (hold _ (List.mem_of_mem_drop ha)), hd _ (hold _ (List.mem_of_mem_drop hb))]
      exact hab
    · rw [hd _ (hold _ (List.mem_of_mem_drop ha)), if_pos hb]
      exact hfront a (List.mem_of_mem_drop ha)
  · rw [List.drop_append_of_le_length hi]
    intro v hv x hx
    have hxd : (if x ∈ N then d Q[i] + 1 else d x) ≤ d Q[i] + 1 := by
      split_ifs with hxN
      · exact le_rfl
      · exact hfront x ((List.mem_append.1 hx).resolve_right hxN)
    rcases List.mem_append.1 hv with hv | hv
    · rw [hd _ (hold _ (List.mem_of_mem_drop hv))]
      have := hsorted.1 v hv; omega
    · rw [if_pos hv]; omega
  · rw [List.take_append_of_le_length hi, ← List.take_concat_get Q i hi, List.concat_eq_append]
    intro w hw v hv
    have hw' : w ∈ Q :=
      (List.mem_append.1 hw).elim List.mem_of_mem_take fun h => List.mem_singleton.1 h ▸ huQ
    rw [hd w (hold w hw')]
    rcases List.mem_append.1 hw with hw | hw
    · obtain ⟨hvQ, hle⟩ := h.closed w hw v hv
      rw [hd v (hold v hvQ)]
      exact ⟨List.mem_append_left _ hvQ, hle⟩
    · rw [List.mem_singleton.1 hw] at hv ⊢
      rcases hcov v hv with hvQ | hvN
      · rw [hd v (hold v hvQ)]; exact ⟨List.mem_append_left _ hvQ, hfront v hvQ⟩
      · rw [if_pos hvN]; exact ⟨List.mem_append_right _ hvN, le_rfl⟩
  · rw [List.length_append]; omega

theorem VisitInv.length_le {d : Nat → Int} {Q : List Nat} {i : Nat} (h : VisitInv g s d Q i) :
    Q.length ≤ g.numNodes := by
  have := (List.subperm_of_subset h.nodup fun x hx => List.mem_range.2 (h.lt x hx)).length_le
  rwa [List.length_range] at this

theorem bfsVisit_done (hg : g.Valid) : ∀ (fuel i : Nat) (st : (Nat → Int) × List Nat),
    VisitInv g s st.1 st.2 i → g.numNodes + 1 ≤ fuel + i →
    VisitInv g s (bfsVisit g fuel i st).1 (bfsVisit g fuel i st).2 (bfsVisit g fuel i st).2.length ∧
      ∀ k, bfsVisit g (fuel + k) i st = bfsVisit g fuel i st
  | 0, i, st, h, hf => absurd (h.le.trans h.length_le) (by omega)
  | fuel + 1, i, st, h, hf => by
    cases hq : st.2[i]? with
    | none =>
      have hi : i = st.2.length := le_antisymm h.le (List.getElem?_eq_none_iff.1 hq)
      refine ⟨by simp only [bfsVisit, hq]; exact hi ▸ h, fun k => ?_⟩
      rw [Nat.add_right_comm]; simp only [bfsVisit, hq]
    | some u =>
      have ih := bfsVisit_done hg fuel (i + 1) _ (h.step hg hq) (by omega)
      refine ⟨by simp only [bfsVisit, hq]; exact ih.1, fun k => ?_⟩
      rw [Nat.add_right_comm]; simp only [bfsVisit, hq]; exact ih.2 k

section Final

variable {d : Nat → Int} {Q : List Nat} (h : VisitInv g s d Q Q.length)
include h

theorem VisitInv.closure {u v : Nat} (hu : u ∈ Q) (hv : v ∈ g.outNeigh u) : v ∈ Q ∧ d v ≤ d u + 1 :=
  h.closed u (by rwa [List.take_length]) v hv

theorem VisitInv.reach_iff (x : Nat) : g.Reach s x ↔ x ∈ Q := by
  refine ⟨?_, fun hx => ⟨_, (h.hops x hx).2⟩⟩
  rintro ⟨k, hk⟩
  induction hk with
  | nil => exact (h.mem s).1 (by rw [h.src]; decide)
  | cons _ hv ih => exact (h.closure ih hv).1

theorem VisitInv.le_of_hops {x k : Nat} (hk : g.Hops s x k) : d x ≤ k := by
  induction hk with
  | nil => rw [h.src]; rfl
  | cons hk hv ih =>
    have := (h.closure ((h.reach_iff _).1 ⟨_, hk⟩) hv).2; omega

theorem VisitInv.hopDist {x : Nat} (hx : x ∈ Q) : g.HopDist s x (d x).toNat :=
  ⟨(h.hops x hx).2, fun k hk => by have := h.le_of_hops hk; omega⟩

end Final

theorem verifierDepth_inv (hg : g.Valid) (hs : s < g.numNodes) :
    VisitInv g s (verifierDepth g s).1 (verifierDepth g s).2 (verifierDepth g s).2.length :=
  (bfsVisit_done hg _ 0 _ (visitInv_init hs) le_rfl).1

theorem Graph.HopDist.unique {x k k' : Nat} (h1 : g.HopDist s x k) (h2 : g.HopDist s x k') : k = k' :=
  le_antisymm (h1.2 _ h2.1) (h2.2 _ h1.1)

theorem Graph.Hops.eq_of_zero {x : Nat} (h : g.Hops s x 0) : x = s := by cases h; rfl

theorem checkVertex_iff (hg : g.Valid) (hs : s < g.numNodes) (parent : Nat → Int) (u : Nat) :
    checkVertex g s (verifierDepth g s).1 parent u = true ↔
      (u = s → parent u = s) ∧ (parent u = -1 ↔ ¬g.Reach s u) ∧
      (u ≠ s → g.Reach s u → ∃ p ∈ g.inNeigh u, parent u = p ∧
        ∃ k, g.HopDist s p k ∧ g.HopDist s u (k + 1)) := by
  have hD := verifierDepth_inv hg hs
  set d := (verifierDepth g s).1
  have hreach : ∀ x, g.Reach s x ↔ d x ≠ -1 := fun x => (hD.reach_iff x).trans (hD.mem x).symm
  have hdist : ∀ x, d x ≠ -1 → 0 ≤ d x ∧ g.HopDist s x (d x).toNat := fun x hx =>
    ⟨(hD.hops x ((hD.mem x).1 hx)).1, hD.hopDist ((hD.mem x).1 hx)⟩
  have hds : d s = 0 := hD.src
  unfold checkVertex
  by_cases hdu : d u = -1
  · -- `u` is not reached
    have hr : ¬g.Reach s u := by rw [hreach]; exact not_not.2 hdu
    have hus : u ≠ s := by rintro rfl; omega
    rw [if_neg fun h => h.1 hdu]
    simp [hdu, hr, hus, eq_comm]
  have hr : g.Reach s u := (hreach u).2 hdu
  by_cases hpu : parent u = -1
  · rw [if_neg fun h => h.2 hpu]; simp [hpu, hdu, hr]
  rw [if_pos ⟨hdu, hpu⟩]
  by_cases hus : u = s
  · subst hus; simp [hds, hpu, hr]
  rw [if_neg hus]
  cases hf : (g.inNeigh u).find? fun v : Nat => (v : Int) = parent u with
  | none =>
    simp only [Bool.false_eq_true, false_iff]
    rintro ⟨-, -, h3⟩
    obtain ⟨p, hp, hpe, -⟩ := h3 hus hr
    exact List.find?_eq_none.1 hf p hp (by simp [hpe])
  | some v =>
    have hv : (v : Int) = parent u := by simpa using List.find?_some hf
    have hvmem := List.mem_of_find?_eq_some hf
    obtain ⟨hu0, hdu'⟩ := hdist u hdu
    simp only [decide_eq_true_eq, hus, IsEmpty.forall_iff, hpu, hr, not_true_eq_false, iff_self,
      forall_const, true_and, ne_eq, not_false_eq_true, true_implies]
    constructor
    · intro hvd
      have hu1 : d u ≠ 0 := fun h0 => hus (Hops.eq_of_zero (by rw [h0] at hdu'; exact hdu'.1))
      obtain ⟨hv0, hdv⟩ := hdist v (by omega)
      exact ⟨v, hvmem, hv.symm, _, hdv, by rwa [show (d v).toNat + 1 = (d u).toNat by omega]⟩
    · rintro ⟨p, -, hpe, k, hpk, huk⟩
      have hvp : v = p := by exact_mod_cast hv.trans hpe
      subst hvp
      obtain ⟨hv0, hdv⟩ := hdist v ((hreach v).1 ⟨k, hpk.1⟩)
      have h1 := hdv.unique hpk
      have h2 := hdu'.unique huk
      omega

/-- `BFSVerifier` returns `true` exactly on the valid parent arrays. -/
theorem bfsVerifier_iff_validParent (hg : g.Valid) (hs : s < g.numNodes) (parent : Nat → Int) :
    (bfsVerifier g s parent = true ↔ ValidParent g s parent) ∧
      (verifierDepth g s).2.Nodup ∧ (verifierDepth g s).2.length ≤ g.numNodes ∧
      ∀ k, bfsVisit g (g.numNodes + 1 + k) 0 (Function.update (fun _ => -1) s 0, [s]) =
        verifierDepth g s := by
  have hD := verifierDepth_inv hg hs
  refine ⟨?_, hD.nodup, hD.length_le, (bfsVisit_done hg _ 0 _ (visitInv_init hs) le_rfl).2⟩
  simp only [bfsVerifier, List.all_eq_true, List.mem_range, checkVertex_iff hg hs]
  constructor
  · intro h
    exact ⟨(h s hs).1 rfl, fun u hu => (h u hu).2.1, fun u hu => (h u hu).2.2⟩
  · rintro ⟨h1, h2, h3⟩ u hu
    exact ⟨by rintro rfl; exact h1, h2 u hu, h3 u hu⟩

def edgeGraph : Graph := Graph.ofAdj [[1], [0]]

theorem edgeGraph_valid : edgeGraph.Valid := ⟨by decide, by decide⟩

example : bfsVerifier edgeGraph 0 (fun _ => 0) = true := by decide

example : bfsVerifier edgeGraph 0 (fun u => if u = 0 then 0 else -1) = false := by decide

theorem bfsVerifier_edgeGraph : edgeGraph.Valid ∧ 0 < edgeGraph.numNodes ∧
    ((bfsVerifier edgeGraph 0 fun _ => 0) = true ↔ ValidParent edgeGraph 0 fun _ => 0) ∧
      (verifierDepth edgeGraph 0).2.Nodup ∧
      (verifierDepth edgeGraph 0).2.length ≤ edgeGraph.numNodes ∧
      ∀ k, bfsVisit edgeGraph (edgeGraph.numNodes + 1 + k) 0
        (Function.update (fun _ => -1) 0 0, [0]) = verifierDepth edgeGraph 0 :=
  ⟨edgeGraph_valid, by decide, bfsVerifier_iff_validParent edgeGraph_valid (by decide) _⟩

end DMM
