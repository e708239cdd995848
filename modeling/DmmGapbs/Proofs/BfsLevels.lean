import DmmGapbs.Proofs.BfsVerifier

/-! The design `DOBFS` follows whichever direction it takes: a level-synchronous BFS. After the
phase of level `k`, `parent` marks exactly the vertices within `k` hops of `source`, each with
an in-neighbour one hop closer as parent (`LevelInv`). A phase that wakes exactly the vertices
`k + 1` hops away (`Expand`) carries this to `k + 1`, and once a level is empty the pass after
the loop leaves a valid parent array. The top-down and the bottom-up step are both such phases
(`BfsPhases`). -/

namespace DMM

namespace Graph

variable {g : Graph} {s : Nat}

theorem HopDist.exists_pred {x k : Nat} (h : g.HopDist s x (k + 1)) :
    ∃ p, g.HopDist s p k ∧ x ∈ g.outNeigh p := by
  obtain ⟨hx, hmin⟩ := h
  cases hx with
  | cons hp hxp => exact ⟨_, ⟨hp, fun k' hk' => by have := hmin _ (hk'.cons hxp); omega⟩, hxp⟩

theorem HopDist.le_succ {p x j d : Nat} (hp : g.HopDist s p j) (hx : x ∈ g.outNeigh p)
    (hd : g.HopDist s x d) : d ≤ j + 1 :=
  hd.2 _ (hp.1.cons hx)

theorem Reach.hopDist {x : Nat} (h : g.Reach s x) : ∃ k, g.HopDist s x k := by
  classical
  exact ⟨Nat.find h, Nat.find_spec h, fun _ hk => Nat.find_min' h hk⟩

theorem HopDist.exists_of_le {x d : Nat} (h : g.HopDist s x d) {j : Nat} (hj : j ≤ d) :
    ∃ y, g.HopDist s y j := by
  induction d generalizing x with
  | zero => exact ⟨x, Nat.le_zero.1 hj ▸ h⟩
  | succ d ih =>
    rcases Nat.lt_or_eq_of_le hj with hj | rfl
    · obtain ⟨p, hp, -⟩ := h.exists_pred
      exact ih hp (by omega)
    · exact ⟨x, h⟩

theorem hopDist_zero_iff {x : Nat} : g.HopDist s x 0 ↔ x = s :=
  ⟨fun h => h.1.eq_of_zero, by rintro rfl; exact ⟨.nil, fun _ _ => Nat.zero_le _⟩⟩

theorem Hops.lt_numNodes (hg : g.Valid) (hs : s < g.numNodes) {x k : Nat} (h : g.Hops s x k) :
    x < g.numNodes := by
  induction h with
  | nil => exact hs
  | cons _ hv ih => exact hg.out _ ih _ hv

end Graph

open Graph

variable (g : Graph) (s : Nat)

/-- `parent` after the phase of level `k`: exactly the vertices within `k` hops are visited, each
with an in-neighbour one hop closer as parent. -/
structure LevelInv (k : Nat) (parent : Nat → Int) : Prop where
  src : parent s = s
  visited : ∀ x < g.numNodes, 0 ≤ parent x ↔ ∃ j ≤ k, g.HopDist s x j
  tree : ∀ x < g.numNodes, x ≠ s → 0 ≤ parent x →
    ∃ p ∈ g.inNeigh x, parent x = p ∧ ∃ j, g.HopDist s p j ∧ g.HopDist s x (j + 1)

/-- One phase: the unvisited vertices `k + 1` hops away get a parent `k` hops away. -/
structure Expand (k : Nat) (parent parent' : Nat → Int) : Prop where
  keep : ∀ x < g.numNodes, 0 ≤ parent x → parent' x = parent x
  wake : ∀ x < g.numNodes, parent x < 0 → g.HopDist s x (k + 1) →
    ∃ p ∈ g.inNeigh x, parent' x = p ∧ g.HopDist s p k
  stay : ∀ x < g.numNodes, parent x < 0 → ¬g.HopDist s x (k + 1) → parent' x < 0

variable {g s}

theorem levelInv_zero {parent : Nat → Int} (hs : parent s = s)
    (hneg : ∀ x < g.numNodes, x ≠ s → parent x < 0) : LevelInv g s 0 parent := by
  refine ⟨hs, fun x hx => ?_, fun x hx hxs h => absurd (hneg x hx hxs) (not_lt.2 h)⟩
  simp only [Nat.le_zero, exists_eq_left, hopDist_zero_iff]
  by_cases hxs : x = s
  · subst hxs; simp only [hs, iff_true]; exact Int.natCast_nonneg _
  · simp [hxs, hneg x hx hxs]

section Level

variable {k : Nat} {parent : Nat → Int} (h : LevelInv g s k parent)
include h

theorem LevelInv.neg_iff {x : Nat} (hx : x < g.numNodes) :
    parent x < 0 ↔ ∀ j ≤ k, ¬g.HopDist s x j := by
  rw [← not_le, h.visited x hx]; simp

theorem LevelInv.next_of_edge {p x : Nat} (hp : p < g.numNodes) (hx : x < g.numNodes)
    (hpv : 0 ≤ parent p) (hxv : parent x < 0) (hpx : x ∈ g.outNeigh p) :
    g.HopDist s x (k + 1) ∧ g.HopDist s p k := by
  obtain ⟨j, hjk, hpj⟩ := (h.visited p hp).1 hpv
  obtain ⟨d, hd⟩ := Reach.hopDist ⟨_, hpj.1.cons hpx⟩
  have hdj := hpj.le_succ hpx hd
  have hdk : k < d := by
    by_contra hle
    exact (h.neg_iff hx).1 hxv d (by omega) hd
  obtain rfl : d = k + 1 := by omega
  obtain rfl : j = k := by omega
  exact ⟨hd, hpj⟩

theorem LevelInv.neg_of_next {x : Nat} (hx : x < g.numNodes) (hd : g.HopDist s x (k + 1)) :
    parent x < 0 :=
  (h.neg_iff hx).2 fun j hj hj' => by have := hd.unique hj'; omega

theorem LevelInv.expand (hs : s < g.numNodes) {parent' : Nat → Int}
    (he : Expand g s k parent parent') : LevelInv g s (k + 1) parent' := by
  have hsrc : 0 ≤ parent s := by rw [h.src]; exact Int.natCast_nonneg _
  refine ⟨(he.keep s hs hsrc).trans h.src, fun x hx => ?_, fun x hx hxs hv => ?_⟩
  · by_cases hxv : 0 ≤ parent x
    · rw [he.keep x hx hxv]
      obtain ⟨j, hj, hd⟩ := (h.visited x hx).1 hxv
      exact ⟨fun _ => ⟨j, by omega, hd⟩, fun _ => hxv⟩
    · have hneg := (h.neg_iff hx).1 (lt_of_not_le hxv)
      have hiff : (∃ j ≤ k + 1, g.HopDist s x j) ↔ g.HopDist s x (k + 1) :=
        ⟨fun ⟨j, hj, hd⟩ => by
          rcases Nat.lt_or_eq_of_le hj with hj | rfl
          · exact absurd hd (hneg j (by omega))
          · exact hd, fun hd => ⟨_, le_rfl, hd⟩⟩
      rw [hiff]
      by_cases hd : g.HopDist s x (k + 1)
      · obtain ⟨p, -, hp, -⟩ := he.wake x hx (lt_of_not_le hxv) hd
        simp only [hd, iff_true, hp]; exact Int.natCast_nonneg _
      · simp only [hd, iff_false, not_le]; exact he.stay x hx (lt_of_not_le hxv) hd
  · by_cases hxv : 0 ≤ parent x
    · rw [he.keep x hx hxv]; exact h.tree x hx hxs hxv
    · have hd : g.HopDist s x (k + 1) := by
        by_contra hd; exact absurd hv (not_le.2 (he.stay x hx (lt_of_not_le hxv) hd))
      obtain ⟨p, hp, hpe, hpk⟩ := he.wake x hx (lt_of_not_le hxv) hd
      exact ⟨p, hp, hpe, k, hpk, hd⟩

theorem LevelInv.visited_of_reach (hnext : ∀ x, ¬g.HopDist s x (k + 1)) {x : Nat}
    (hx : x < g.numNodes) (hr : g.Reach s x) : 0 ≤ parent x := by
  obtain ⟨d, hd⟩ := hr.hopDist
  refine (h.visited x hx).2 ⟨d, ?_, hd⟩
  by_contra hlt
  obtain ⟨y, hy⟩ := hd.exists_of_le (show k + 1 ≤ d by omega)
  exact hnext y hy

theorem LevelInv.validParent (hnext : ∀ x, ¬g.HopDist s x (k + 1)) :
    ValidParent g s fun i => if i < g.numNodes ∧ parent i < -1 then -1 else parent i := by
  have hsrc : ¬parent s < -1 := by rw [h.src]; omega
  refine ⟨(if_neg fun h' => hsrc h'.2).trans h.src, fun u hu => ?_, fun u hu hus hr => ?_⟩
  · by_cases hv : 0 ≤ parent u
    · have hr : g.Reach s u := by
        obtain ⟨j, -, hj⟩ := (h.visited u hu).1 hv
        exact ⟨j, hj.1⟩
      simp only [hu, true_and, show ¬parent u < -1 by omega, if_false, hr, not_true_eq_false,
        iff_false]
      omega
    · have hr : ¬g.Reach s u := fun hr => hv (h.visited_of_reach hnext hu hr)
      simp only [hu, true_and, hr, not_false_eq_true, iff_true]
      split_ifs <;> omega
  · have hv := h.visited_of_reach hnext hu hr
    simp only [hu, true_and, show ¬parent u < -1 by omega, if_false]
    exact h.tree u hu hus hv

end Level

theorem no_next_of_empty {k : Nat} (h : ∀ x, ¬g.HopDist s x k) (x : Nat) :
    ¬g.HopDist s x (k + 1) := fun hx =>
  let ⟨p, hp, _⟩ := hx.exists_pred
  h p hp

end DMM
