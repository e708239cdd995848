import DmmGapbs.Proofs.SsspInvariant

/-! What `Shmem_DeltaStep` returns. When every rank has left the loop the bucket is `kMaxBin`,
so the invariant says every reached vertex has all its out-edges relaxed; with `dist[source] = 0`
that bounds `dist` by the weight of every walk, and soundness makes it the weight of one. -/

namespace DMM

open WGraph

variable {c : SsspCfg} {w : SsspWorld}

theorem settled_of_done (h : Inv c w) (hδ : 0 < c.delta) (hdone : w.AllAt c .done) {u : Nat}
    (hu : w.dist u < kDistInf) : Settled c w.dist u := by
  have h0 := hdone 0 c.npes.pos
  have hL : w.level = kMaxBin := by
    simp only [SsspWorld.level, h0, h.exit h0]; rfl
  refine h.lower u (Nat.lt_of_lt_of_le hu ?_)
  rw [hL]
  exact Nat.le_trans (by decide) (Nat.le_mul_of_pos_left kMaxBin hδ)

theorem dist_le_walk (h : Inv c w) (hδ : 0 < c.delta) (hdone : w.AllAt c .done) {v d : Nat}
    (hw : Walk c.g c.source v d) : w.dist v ≤ d ∨ kDistInf ≤ d := by
  induction hw with
  | nil => exact .inl (Nat.le_of_eq h.src)
  | @cons u du v' wt _ he ih =>
    by_cases hu : w.dist u < kDistInf
    · have := settled_of_done h hδ hdone hu _ he
      rcases ih with ih | ih
      · exact .inl (by simp only at this; omega)
      · exact .inr (by omega)
    · rcases ih with ih | ih <;> exact .inr (by omega)

/-- When `Shmem_DeltaStep` returns, `dist` holds the shortest distances. -/
theorem deltaStep_exact (hs : c.source < c.g.numNodes) (hδ : 0 < c.delta)
    (hinf : ∀ v d, Walk c.g c.source v d → ∃ d', d' < kDistInf ∧ Walk c.g c.source v d')
    (hw : SsspReach c w) (hdone : w.AllAt c .done) (v : Nat) :
    ((∃ d, Walk c.g c.source v d) → IsShortest c.g c.source v (w.dist v)) ∧
    ((¬∃ d, Walk c.g c.source v d) → w.dist v = kDistInf) := by
  have h := inv_of_reach hs hw
  refine ⟨fun ⟨d, hd⟩ => ?_, fun hn => ?_⟩
  · obtain ⟨d', hd', hwd'⟩ := hinf v d hd
    have hlt : w.dist v < kDistInf := by
      rcases dist_le_walk h hδ hdone hwd' with h' | h' <;> omega
    refine ⟨(h.sound v).2 hlt, fun d'' hd'' => ?_⟩
    rcases dist_le_walk h hδ hdone hd'' with h' | h' <;> omega
  · rcases Nat.lt_or_ge (w.dist v) kDistInf with hlt | hge
    · exact absurd ⟨_, (h.sound v).2 hlt⟩ hn
    · exact Nat.le_antisymm (h.sound v).1 hge

theorem weightedDiamond_walk_le {v d : Nat} (hw : Walk (weightedDiamond 1).g 0 v d) : v ≤ 3 := by
  cases hw with
  | nil => decide
  | @cons u _ _ _ _ he =>
    rcases u with _ | _ | _ | _ | u <;>
      simp [weightedDiamond, WGraph.ofAdj] at he <;> omega

theorem weightedDiamond_reach (v d : Nat) (hw : Walk (weightedDiamond 1).g 0 v d) :
    ∃ d', d' < kDistInf ∧ Walk (weightedDiamond 1).g 0 v d' := by
  have := weightedDiamond_walk_le hw
  rcases v with _ | _ | _ | _ | v
  · exact ⟨0, by decide, .nil⟩
  · exact ⟨0 + 1, by decide, .cons .nil (by decide)⟩
  · exact ⟨0 + 4, by decide, .cons .nil (by decide)⟩
  · exact ⟨0 + 1 + 5, by decide, .cons (.cons .nil (by decide : ((1, 1) ∈ (weightedDiamond 1).g.outNeigh 0)))
      (by decide : (3, 5) ∈ (weightedDiamond 1).g.outNeigh 1)⟩
  · omega

/-- The greedy schedule that runs the diamond on one rank to the end. -/
def weightedDiamondSchedule : List SsspEvent :=
  List.replicate 9 (.act 0) ++ [.sync] ++ List.replicate 10 (.act 0) ++ [.sync, .act 0, .sync] ++
  List.replicate 6 (.act 0) ++ [.sync, .act 0, .sync, .act 0, .sync] ++ List.replicate 4 (.act 0) ++
  [.sync, .act 0, .sync, .act 0, .sync, .act 0, .act 0, .sync, .act 0, .sync, .act 0, .sync]

theorem deltaStep_exact_diamond : ∃ w, SsspReach (weightedDiamond 1) w ∧
    w.AllAt (weightedDiamond 1) .done ∧ w.dist 3 = 4 ∧
    IsShortest (weightedDiamond 1).g 0 3 (w.dist 3) := by
  have key : (ssspRun (weightedDiamond 1) (ssspInit (weightedDiamond 1)) weightedDiamondSchedule).map
      (fun w => decide (w.AllAt (weightedDiamond 1) .done ∧ w.dist 3 = 4)) = some true := by decide
  cases hr : ssspRun (weightedDiamond 1) (ssspInit (weightedDiamond 1)) weightedDiamondSchedule with
  | none => simp [hr] at key
  | some w =>
    simp only [hr, Option.map_some', Option.some.injEq, decide_eq_true_eq] at key
    have hw := SsspReach.of_run weightedDiamondSchedule .init hr
    exact ⟨w, hw, key.1, key.2, (deltaStep_exact (by decide) (by decide) weightedDiamond_reach hw
      key.1 3).1 ⟨_, .cons (.cons .nil (by decide : ((1, 1) ∈ (weightedDiamond 1).g.outNeigh 0)))
        (by decide : ((3, 5) ∈ (weightedDiamond 1).g.outNeigh 1))⟩⟩

end DMM
