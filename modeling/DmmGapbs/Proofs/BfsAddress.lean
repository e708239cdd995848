import DmmGapbs.Spec.Bfs

/-! Where the accesses to the partitioned `parent` of `DOBFS` land. `SHMEM_TDStep` routes a
vertex to its owner and local position, in both branches, as soon as every rank holds at least
one id. `InitParent` tests `source <= end`, so the source is also written by the rank before
its owner, one cell past that rank's slice. -/

namespace DMM

namespace Partition

variable (P : Partition)

theorem foreignAddr_eq (hw : 0 < P.partitionWidth) (v : Nat) :
    foreignAddr P.partitionWidth P.npes v = (P.recv v, P.localPos v) := by
  have hr : P.recv v = if P.npes ≤ v / P.partitionWidth then P.npes - 1 else v / P.partitionWidth := by
    simp only [recv, Nat.pos_iff_ne_zero.1 hw, if_false, Nat.min_def]; split_ifs <;> omega
  have hm := Nat.div_add_mod v P.partitionWidth
  unfold foreignAddr localPos
  rw [hr]
  split_ifs
  · rw [Nat.mul_comm]
  · rw [Nat.mul_comm] at hm; ext <;> simp only; omega

theorem addr_of_mem {pe v : Nat} (hpe : pe < P.npes) (h1 : P.start pe ≤ v) (h2 : v < P.stop pe) :
    P.recv v = pe ∧ P.localPos v = v - P.start pe := by
  have hr := P.recv_eq_of_mem hpe h1 h2
  have := P.start_recv_add v
  rw [hr] at this
  exact ⟨hr, by omega⟩

theorem start_succ_mem_stop (hw : 0 < P.partitionWidth) {p : Nat} (hp : p + 1 < P.npes) :
    P.start p ≤ P.start (p + 1) ∧ P.start (p + 1) ≤ P.stop p ∧
      P.start (p + 1) - P.start p = P.width p ∧ P.recv (P.start (p + 1)) ≠ p := by
  refine ⟨P.start_le_start (Nat.le_succ p), (P.stop_eq_start_succ hp).ge, ?_, ?_⟩
  · rw [P.width_of_ne (by omega), P.start_succ]; omega
  · rw [(P.addr_of_mem hp (Nat.le_refl _) ?_).1]
    · omega
    · by_cases ht : p + 1 = P.npes - 1
      · rw [ht, stop_tail]
        have := P.npes_mul_le
        have := P.tail_mul_add
        simp only [start]; omega
      · rw [P.stop_of_ne ht]; omega

end Partition

/-- The path `0 - 1` searched from `1` on two ranks: `1` starts rank 1's slice. -/
def pathFromOne : BfsCfg := ⟨Graph.ofAdj [[1], [0]], 1, 2, 15, 18, fun _ _ => 0, fun _ => 0⟩

/-- Rank 0's `InitParent` writes `parent[1]` past its one cell: `DOBFS`'s set-up is undefined. -/
theorem pathFromOne_initParent_foreign :
    (pathFromOne.vp.start 0 ≤ pathFromOne.source ∧ pathFromOne.source ≤ pathFromOne.vp.stop 0) ∧
      pathFromOne.vp.recv pathFromOne.source = 1 ∧
      pathFromOne.vp.maxWidth ≤ pathFromOne.source - pathFromOne.vp.start 0 ∧
      pathFromOne.initParent 0 = none ∧ bfsInit pathFromOne = none :=
  ⟨by decide, by decide, by decide, rfl, rfl⟩

end DMM
