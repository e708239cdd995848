import DmmGapbs.Proofs.BfsControl

/-! Whether `DOBFS`'s `while` loop ends. On two ranks or more each `lqueue.flush()` puts
`local_size` cells into every other rank's frontier, which has `num_nodes` cells. On a graph of
fewer than `local_size` vertices both branches of the loop end in such a flush, so no run of
`DOBFS` has a rank leave the loop. -/

namespace DMM

open BfsWorld

/-- The frontier `DOBFS`'s set-up leaves: `source` pushed, and the window slid over it. -/
def BfsCfg.startFrontier (c : BfsCfg) : SlidingQueue :=
  (SlidingQueue.init.pushBack c.source).slideWindow

/-- The places a rank reaches only through a flush. -/
def BfsPc.pastFlush : BfsPc → Bool
  | .toQueueSlide | .tdReduce | .tdSlide | .finish | .done => true
  | _ => false

/-- No rank has passed a flush, and at the loop's test every rank holds the set-up's frontier. -/
def NoFlush (c : BfsCfg) (w : BfsWorld) : Prop :=
  ∀ pe < (c.npes : Nat), (w.ranks pe).pc.pastFlush = false ∧
    ((w.ranks pe).pc = .loop → (w.ranks pe).frontier = c.startFrontier)

section NoFlush

variable {c : BfsCfg} {w w' : BfsWorld}

theorem noFlush_init (h : bfsInit c = some w) : NoFlush c w := by
  obtain ⟨ps, -, rfl⟩ := Option.map_eq_some'.1 h
  intro pe hpe
  simp [hpe, BfsPc.pastFlush, BfsCfg.startFrontier]

theorem NoFlush.of_ranks (h : NoFlush c w) (hr : w'.ranks = w.ranks) : NoFlush c w' := by
  intro q hq; rw [hr]; exact h q hq

theorem NoFlush.update (h : NoFlush c w) {pe : Nat} {f : BfsRank → BfsRank}
    (hf : (f (w.ranks pe)).pc.pastFlush = false) (hl : (f (w.ranks pe)).pc ≠ .loop) :
    NoFlush c (w.update pe f) := by
  intro q hq
  by_cases hqp : q = pe
  · subst hqp; simp only [update_ranks_self]; exact ⟨hf, fun h' => absurd h' hl⟩
  · rw [update_ranks_ne _ _ hqp]; exact h q hq

theorem NoFlush.setPc (h : NoFlush c w) {pe : Nat} {p : BfsPc} (hf : p.pastFlush = false)
    (hl : p ≠ .loop) : NoFlush c (w.setPc pe p) :=
  h.update hf hl

theorem bfsSync_noFlush (h : NoFlush c w) (hs : bfsSync c w = some w') :
    NoFlush c w' := by
  unfold bfsSync at hs
  split_ifs at hs with h1 h3
  · obtain ⟨es, -, rfl⟩ := Option.map_eq_some'.1 hs
    intro pe hpe
    simp only [hpe, if_true]
    exact ⟨rfl, by simp⟩
  · have := (h 0 c.npes.pos).1
    rw [h3 0 c.npes.pos] at this; cases this
  · cases hs; exact h

end NoFlush

section Small

variable {c : BfsCfg} (h2 : 2 ≤ (c.npes : Nat)) (hn : c.g.numNodes < kLocalSize)
include h2 hn

theorem flush_none (w : BfsWorld) (pe : Nat) : w.flush c pe = none := by
  have h1 : (c.npes : Nat) ≠ 1 := by omega
  simp only [flush, flushChecked, if_neg h1]
  rw [if_pos (by omega)]; rfl

theorem pushBack_eq {w w' : BfsWorld} {pe x : Nat} (h : w.pushBack c pe x = some w') :
    w' = w.update pe fun r => { r with lqueue := r.lqueue.stage x } := by
  simp only [pushBack, Option.map_eq_some'] at h
  obtain ⟨w₁, h₁, rfl⟩ := h
  split_ifs at h₁
  · rw [flush_none h2 hn] at h₁; cases h₁
  · cases h₁; rfl

theorem bfsAct_noFlush {w w' : BfsWorld} (h : NoFlush c w) {pe : Nat} (hpe : pe < (c.npes : Nat))
    (hs : bfsAct c w pe = some w') : NoFlush c w' := by
  have hp := h pe hpe
  unfold bfsAct at hs
  cases hpc : (w.ranks pe).pc with
  | loop =>
    have he : (w.ranks pe).frontier.empty = false := by rw [hp.2 hpc]; rfl
    simp only [hpc, he, Bool.false_eq_true, if_false, Option.some.injEq] at hs
    exact hs ▸ h.setPc rfl (by simp)
  | direction =>
    simp only [hpc] at hs
    split_ifs at hs <;> cases hs
    · exact h.setPc rfl (by simp)
    · exact h.update rfl (by simp)
  | toBitmap =>
    obtain ⟨_, -, rfl⟩ := Option.map_eq_some'.1 (by simpa only [hpc] using hs)
    exact h.update rfl (by simp)
  | bu =>
    obtain ⟨_, -, rfl⟩ := Option.map_eq_some'.1 (by simpa only [hpc] using hs)
    exact (h.of_ranks (setParent_ranks _ _ _)).update rfl (by simp)
  | buTest =>
    simp only [hpc] at hs
    split_ifs at hs <;> cases hs <;> exact h.setPc rfl (by simp)
  | toQueue rest =>
    cases rest with
    | nil => cases (by simpa only [hpc] using hs : some _ = some w'); exact h.setPc rfl (by simp)
    | cons u rest =>
      simp only [hpc] at hs
      split at hs
      · obtain ⟨w₁, h₁, rfl⟩ := Option.map_eq_some'.1 hs
        rw [pushBack_eq h2 hn h₁]
        exact (h.update (by simp [hpc]; rfl) (by simp [hpc])).setPc rfl (by simp)
      · cases hs; exact h.setPc rfl (by simp)
  | toQueueFlush =>
    simp only [hpc, flush_none h2 hn, Option.map_none'] at hs; cases hs
  | tdAlloc => cases (by simpa only [hpc] using hs : some _ = some w'); exact h
  | td =>
    simp only [hpc] at hs
    split at hs <;> cases hs
    · exact h.setPc rfl (by simp)
    · exact h.of_ranks rfl
  | tdFlush rest =>
    cases rest with
    | nil => simp only [hpc, flush_none h2 hn, Option.map_none'] at hs; cases hs
    | cons u rest =>
      obtain ⟨w₁, h₁, rfl⟩ := Option.map_eq_some'.1 (by simpa only [hpc] using hs)
      rw [pushBack_eq h2 hn h₁]
      exact (h.update (by simp [hpc]; rfl) (by simp [hpc])).setPc rfl (by simp)
  | toQueueSlide | tdReduce | tdSlide | finish | done => rw [hpc] at hp; cases hp.1

theorem bfsRun_noFlush : ∀ (evs : List BfsEvent) {w w' : BfsWorld}, NoFlush c w →
    bfsRun c w evs = some w' → NoFlush c w'
  | [], _, _, h, hr => by cases hr; exact h
  | e :: evs, w, w', h, hr => by
    rw [bfsRun, List.foldlM_cons] at hr
    cases hs : bfsStep c w e with
    | none => simp [hs] at hr
    | some w₁ =>
      simp only [hs, Option.bind_eq_bind, Option.some_bind] at hr
      refine bfsRun_noFlush evs ?_ hr
      cases e with
      | act pe =>
        simp only [bfsStep] at hs
        split_ifs at hs with hpe
        · exact bfsAct_noFlush h2 hn h hpe hs
        · cases hs; exact h
      | sync => exact bfsSync_noFlush h hs

theorem dobfs_loop_never_ends {w₀ w : BfsWorld} (evs : List BfsEvent) (h0 : bfsInit c = some w₀)
    (h : bfsRun c w₀ evs = some w) (pe : Nat) (hpe : pe < (c.npes : Nat)) :
    (w.ranks pe).pc ≠ .finish ∧ (w.ranks pe).pc ≠ .done := by
  have := (bfsRun_noFlush h2 hn evs (noFlush_init h0) h pe hpe).1
  constructor <;> intro hd <;> rw [hd] at this <;> cases this

end Small

/-- The path `0 - 1 - 2 - 3` on two ranks from `0`, with `alpha = 1`: the first phase is top-down. -/
def pathFour : BfsCfg := ⟨Graph.ofAdj [[1], [0, 2], [1, 3], [2]], 0, 2, 1, 18, fun _ _ => 0, fun _ => 0⟩

/-- Rank 0's flush puts `local_size` cells into rank 1's frontier of four: no run leaves the loop. -/
theorem pathFour_loop_never_ends :
    ((bfsInit pathFour).bind fun w₀ =>
        bfsRun pathFour w₀ [.act 0, .act 0, .act 1, .act 1, .sync, .act 0, .act 0]).map
        (fun w => (w.ranks 0).pc) = some (.tdFlush []) ∧
      ((bfsInit pathFour).bind fun w₀ =>
        bfsRun pathFour w₀ [.act 0, .act 0, .act 1, .act 1, .sync, .act 0, .act 0, .act 0]) = none ∧
      ∀ (w₀ w : BfsWorld) (evs : List BfsEvent), bfsInit pathFour = some w₀ →
        bfsRun pathFour w₀ evs = some w → ∀ pe < 2, (w.ranks pe).pc ≠ .finish ∧ (w.ranks pe).pc ≠ .done :=
  ⟨by decide, rfl, fun _ _ evs h0 h pe hpe => dobfs_loop_never_ends (by decide) (by decide) evs h0 h pe hpe⟩

end DMM
