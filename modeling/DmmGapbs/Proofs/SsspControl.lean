import DmmGapbs.Sanity.SsspStep

/-! The symmetric control words of `Shmem_DeltaStep` agree on every rank. Between barriers
every rank holds the same `iter` and `shared_indexes`; outside Phase 2 also the same
`frontier_tails`, with the `(iter + 1) & 1` slots reset to `kMaxBin` and `0`, so every rank
takes the same branch of the `while` test. -/

namespace DMM

variable {c : SsspCfg} {w w' : SsspWorld}

/-- The agreement invariant of the control words. -/
structure Control (c : SsspCfg) (w : SsspWorld) : Prop where
  seg : ∀ pe < (c.npes : Nat), (w.ranks pe).pc.segment = (w.ranks 0).pc.segment
  iter : ∀ pe < (c.npes : Nat), (w.ranks pe).iter = (w.ranks 0).iter
  idx : ∀ pe < (c.npes : Nat), (w.ranks pe).sharedIndexes = (w.ranks 0).sharedIndexes
  loop : (w.ranks 0).pc.segment ≠ .phase2 →
    (∀ pe < (c.npes : Nat), (w.ranks pe).frontierTails = (w.ranks 0).frontierTails) ∧
    (w.ranks 0).next = kMaxBin ∧ (w.ranks 0).nextTail = 0
  /-- In Phase 2 only PE 0's `next_frontier_tail` has moved. -/
  phase2 : (w.ranks 0).pc.segment = .phase2 → (w.ranks 0).curr = kMaxBin ∧
    ∀ pe < (c.npes : Nat), (w.ranks pe).currTail = 0 ∧
      ∀ j ≠ ((w.ranks 0).iter + 1) % 2, (w.ranks pe).frontierTails j = (w.ranks 0).frontierTails j

theorem control_init (c : SsspCfg) : Control c (ssspInit c) where
  seg _ _ := rfl
  iter _ _ := rfl
  idx _ _ := rfl
  loop _ := ⟨fun _ _ => rfl, rfl, rfl⟩
  phase2 h := by cases h

theorem slot_ne (i : Nat) : i % 2 ≠ (i + 1) % 2 := by omega

theorem slot_succ_succ (i : Nat) : (i + 1 + 1) % 2 = i % 2 := by omega

/-- Two worlds whose ranks agree on all that `Control` reads. -/
structure SameWords (w w' : SsspWorld) : Prop where
  seg : ∀ q, (w'.ranks q).pc.segment = (w.ranks q).pc.segment
  iter : ∀ q, (w'.ranks q).iter = (w.ranks q).iter
  idx : ∀ q, (w'.ranks q).sharedIndexes = (w.ranks q).sharedIndexes
  tails : ∀ q, (w'.ranks q).frontierTails = (w.ranks q).frontierTails

theorem Control.of_sameWords (h : Control c w) (hs : SameWords w w') : Control c w' := by
  have hn : ∀ q, (w'.ranks q).next = (w.ranks q).next := fun q => by
    simp only [SsspRank.next, hs.iter, hs.idx]
  have hnt : ∀ q, (w'.ranks q).nextTail = (w.ranks q).nextTail := fun q => by
    simp only [SsspRank.nextTail, hs.iter, hs.tails]
  have hct : ∀ q, (w'.ranks q).currTail = (w.ranks q).currTail := fun q => by
    simp only [SsspRank.currTail, hs.iter, hs.tails]
  refine ⟨fun q hq => ?_, fun q hq => ?_, fun q hq => ?_, fun h0 => ?_, fun h0 => ?_⟩
  · rw [hs.seg, hs.seg]; exact h.seg q hq
  · rw [hs.iter, hs.iter]; exact h.iter q hq
  · rw [hs.idx, hs.idx]; exact h.idx q hq
  · obtain ⟨ht, h1, h2⟩ := h.loop (hs.seg 0 ▸ h0)
    exact ⟨fun q hq => by rw [hs.tails, hs.tails]; exact ht q hq, hn 0 ▸ h1, hnt 0 ▸ h2⟩
  · obtain ⟨h1, ht⟩ := h.phase2 (hs.seg 0 ▸ h0)
    refine ⟨by simp only [SsspRank.curr, hs.iter, hs.idx]; exact h1, fun q hq => ?_⟩
    simp only [hct, hs.tails, hs.iter]; exact ht q hq

theorem sameWords_rankStep (pe : Nat) : SameWords w
    { dist := (rankStep c pe (w.ranks pe) w.dist).2,
      ranks := Function.update w.ranks pe (rankStep c pe (w.ranks pe) w.dist).1 } := by
  constructor <;> intro q <;> rcases eq_or_ne q pe with rfl | hq <;> simp [Function.update_noteq, *]

theorem control_reserve (h : Control c w) {pe : Nat} (hpe : pe < (c.npes : Nat))
    (hr : (w.ranks pe).pc = .reserve) : Control c (w.reserve pe) := by
  have hs0 : (w.ranks 0).pc.segment = .phase2 := by rw [← h.seg pe hpe, hr]; rfl
  obtain ⟨hc, hall⟩ := h.phase2 hs0
  have hslot : ∀ {j}, j ≠ ((w.ranks 0).iter + 1) % 2 → ∀ q,
      ((w.reserve pe).ranks q).frontierTails j = (w.ranks q).frontierTails j := fun hj q =>
    SsspWorld.reserve_frontierTails w q (by rwa [h.iter pe hpe])
  refine ⟨fun q hq => ?_, fun q hq => ?_, fun q hq => ?_, fun h0 => ?_, fun _ => ?_⟩
  · rw [w.reserve_segment hr, w.reserve_segment hr]; exact h.seg q hq
  · simp only [SsspWorld.reserve_iter]; exact h.iter q hq
  · simp only [SsspWorld.reserve_sharedIndexes]; exact h.idx q hq
  · exact absurd (by rwa [w.reserve_segment hr] at h0) (not_not.2 hs0)
  · refine ⟨by simp only [SsspRank.curr, SsspWorld.reserve_iter, SsspWorld.reserve_sharedIndexes]; exact hc,
      fun q hq => ⟨?_, fun j hj => ?_⟩⟩
    · have hq0 : (w.ranks q).iter % 2 ≠ ((w.ranks 0).iter + 1) % 2 := h.iter q hq ▸ slot_ne _
      simp only [SsspRank.currTail, SsspWorld.reserve_iter, hslot hq0]; exact (hall q hq).1
    · simp only [SsspWorld.reserve_iter] at hj
      rw [hslot hj, hslot hj]; exact (hall q hq).2 j hj

theorem control_vote (h : Control c w) (hw : w.AllAt c .wait2) : Control c (w.vote c) := by
  have hs0 : (w.ranks 0).pc.segment = .fusion := by rw [hw 0 c.npes.pos]; rfl
  obtain ⟨ht, -, -⟩ := h.loop (by rw [hs0]; decide)
  refine ⟨fun q _ => rfl, h.iter, fun q hq => ?_, fun hs => absurd rfl hs,
    fun _ => ⟨?_, fun q hq => ⟨?_, fun j _ => ?_⟩⟩⟩
  · simp only [SsspWorld.vote_ranks, SsspRank.voted, h.iter q hq, h.idx q hq]
  · simp [SsspRank.curr, SsspRank.voted]
  · simp [SsspRank.currTail, SsspRank.voted]
  · simp only [SsspWorld.vote_ranks, SsspRank.voted, h.iter q hq, ht q hq]

theorem control_finish (h : Control c w) (hw : w.AllAt c .wait3) : Control c (w.finish c) := by
  have hs0 : (w.ranks 0).pc.segment = .phase2 := by rw [hw 0 c.npes.pos]; rfl
  obtain ⟨hc, hall⟩ := h.phase2 hs0
  have hnext : ∀ q < (c.npes : Nat), (w.ranks q).next = (w.ranks 0).next := fun q hq => by
    simp only [SsspRank.next, h.iter q hq, h.idx q hq]
  have hnot : ((w.finish c).ranks 0).pc.segment ≠ .phase2 := by
    rw [SsspWorld.finish_pc]; split_ifs <;> decide
  refine ⟨fun q hq => by rw [SsspWorld.finish_pc, SsspWorld.finish_pc, hnext q hq],
    fun q hq => by simp only [SsspWorld.finish_iter, h.iter q hq],
    fun q hq => by simp only [SsspWorld.finish_sharedIndexes, h.idx q hq],
    fun _ => ⟨fun q hq => ?_, ?_, ?_⟩, fun hs => absurd hs hnot⟩
  · funext j
    simp only [SsspWorld.finish_frontierTails, Function.update_apply, h.iter q hq]
    split_ifs with hj
    · rfl
    · exact (hall q hq).2 j hj
  · simp only [SsspRank.next, SsspWorld.finish_iter, SsspWorld.finish_sharedIndexes, slot_succ_succ]
    exact hc
  · simp only [SsspRank.nextTail, SsspWorld.finish_iter, SsspWorld.finish_frontierTails,
      slot_succ_succ, Function.update_noteq (slot_ne _)]
    exact (hall 0 c.npes.pos).1

theorem control_step (h : Control c w) {e : SsspEvent} (hs : ssspStep c w e = some w') :
    Control c w' := by
  rcases ssspStep_cases hs with ⟨pe, hpe, -, rfl⟩ | ⟨pe, hpe, hr, rfl⟩ | ⟨hw, rfl⟩ |
      ⟨hw, rfl⟩ | ⟨hw, rfl⟩
  · exact h.of_sameWords (sameWords_rankStep _)
  · exact control_reserve h hpe hr
  · have hs0 : (w.ranks 0).pc.segment = .phase1 := by rw [hw 0 c.npes.pos]; rfl
    obtain ⟨ht, hn, hnt⟩ := h.loop (by rw [hs0]; decide)
    exact ⟨fun _ _ => rfl, h.iter, h.idx, fun _ => ⟨ht, hn, hnt⟩, fun hs => by cases hs⟩
  · exact control_vote h hw
  · exact control_finish h hw

theorem control_of_reach (h : SsspReach c w) : Control c w := by
  induction h with
  | init => exact control_init c
  | step _ hs ih => exact control_step ih hs

/-- In every reachable state all ranks agree on the segment, `iter` and `shared_indexes`, and
outside Phase 2 on `frontier_tails`, with the next slots reset. -/
theorem deltaStep_control_agree (h : SsspReach c w) (pe : Nat) (hpe : pe < (c.npes : Nat)) :
    (w.ranks pe).pc.segment = (w.ranks 0).pc.segment ∧ (w.ranks pe).iter = (w.ranks 0).iter ∧
    (w.ranks pe).sharedIndexes = (w.ranks 0).sharedIndexes ∧
    ((w.ranks 0).pc.segment ≠ .phase2 →
      (w.ranks pe).frontierTails = (w.ranks 0).frontierTails ∧
      (w.ranks pe).sharedIndexes (((w.ranks pe).iter + 1) % 2) = kMaxBin ∧
      (w.ranks pe).frontierTails (((w.ranks pe).iter + 1) % 2) = 0) := by
  have hc := control_of_reach h
  refine ⟨hc.seg pe hpe, hc.iter pe hpe, hc.idx pe hpe, fun hs => ?_⟩
  obtain ⟨ht, hn, hnt⟩ := hc.loop hs
  refine ⟨ht pe hpe, ?_, ?_⟩
  · rw [hc.idx pe hpe, hc.iter pe hpe]; exact hn
  · rw [ht pe hpe, hc.iter pe hpe]; exact hnt

/-- The two-rank diamond into its second iteration, rank 1 inside `RelaxEdges(2)`. -/
def diamondIterOne : List SsspEvent :=
  List.replicate 9 (.act 1) ++ [.act 0, .sync] ++ List.replicate 10 (.act 1) ++
    [.act 0, .sync, .act 1, .act 0, .sync, .act 1, .act 1]

theorem deltaStep_control_agree_diamond : ∃ w, SsspReach (weightedDiamond 2) w ∧
    (w.ranks 0).iter = 1 ∧ (w.ranks 0).pc = .scan 0 ∧ (w.ranks 1).pc = .readU 2 3 1 6 [] (.scan 0) ∧
    1 < ((weightedDiamond 2).npes : Nat) ∧
    ((w.ranks 1).pc.segment = (w.ranks 0).pc.segment ∧ (w.ranks 1).iter = (w.ranks 0).iter ∧
      (w.ranks 1).sharedIndexes = (w.ranks 0).sharedIndexes ∧
      ((w.ranks 0).pc.segment ≠ .phase2 →
        (w.ranks 1).frontierTails = (w.ranks 0).frontierTails ∧
        (w.ranks 1).sharedIndexes (((w.ranks 1).iter + 1) % 2) = kMaxBin ∧
        (w.ranks 1).frontierTails (((w.ranks 1).iter + 1) % 2) = 0)) := by
  have key : (ssspRun (weightedDiamond 2) (ssspInit (weightedDiamond 2)) diamondIterOne).map (fun w =>
      decide ((w.ranks 0).iter = 1 ∧ (w.ranks 0).pc = .scan 0 ∧
        (w.ranks 1).pc = .readU 2 3 1 6 [] (.scan 0))) = some true := by decide
  obtain ⟨w, hr, hP⟩ := Option.map_eq_some'.1 key
  obtain ⟨h0, hpc0, hpc1⟩ := of_decide_eq_true hP
  have hw := SsspReach.of_run diamondIterOne .init hr
  exact ⟨w, hw, h0, hpc0, hpc1, by decide, deltaStep_control_agree hw 1 (by decide)⟩

end DMM
