import DmmGapbs.Spec.Bfs

/-! Where `DOBFS` on several ranks goes wrong. `BUStep` is the single-rank step: it returns the
rank's own `awake_count`, with no reduction, so the do-while condition is evaluated on values
the ranks do not share. And it indexes the rank's `parent` slice, `max_size` cells, with every
global id below `num_nodes`, as does the pass after the loop: with two or more ranks and at
least as many vertices no rank can return from `DOBFS` without reading past its slice. -/

namespace DMM

namespace BfsWorld

variable (w : BfsWorld)

@[simp] theorem update_ranks_self (pe : Nat) (f : BfsRank → BfsRank) :
    (w.update pe f).ranks pe = f (w.ranks pe) := by simp [update]

theorem update_ranks_ne {pe q : Nat} (f : BfsRank → BfsRank) (h : q ≠ pe) :
    (w.update pe f).ranks q = w.ranks q := by simp [update, h]

@[simp] theorem setParent_ranks (pe : Nat) (p : Nat → Int) : (w.setParent pe p).ranks = w.ranks := rfl

@[simp] theorem setFrontiers_pc (qs : Nat → SlidingQueue) (q : Nat) :
    ((w.setFrontiers qs).ranks q).pc = (w.ranks q).pc := rfl

theorem flush_pc {c : BfsCfg} {pe : Nat} {w' : BfsWorld} (h : w.flush c pe = some w') (q : Nat) :
    (w'.ranks q).pc = (w.ranks q).pc := by
  simp only [flush, Option.map_eq_some'] at h
  obtain ⟨qs, -, rfl⟩ := h
  by_cases hq : q = pe
  · subst hq; simp
  · rw [update_ranks_ne _ _ hq]; rfl

theorem pushBack_pc {c : BfsCfg} {pe x : Nat} {w' : BfsWorld} (h : w.pushBack c pe x = some w')
    (q : Nat) : (w'.ranks q).pc = (w.ranks q).pc := by
  simp only [pushBack, Option.map_eq_some'] at h
  obtain ⟨w'', h1, rfl⟩ := h
  have : (w''.ranks q).pc = (w.ranks q).pc := by
    split_ifs at h1
    · exact flush_pc w h1 q
    · cases h1; rfl
  by_cases hq : q = pe
  · subst hq; simpa using this
  · rwa [update_ranks_ne _ _ hq]

end BfsWorld

open BfsWorld

theorem setPc_pc_ne (w : BfsWorld) {pe q : Nat} (p : BfsPc) (h : q ≠ pe) :
    ((w.setPc pe p).ranks q).pc = (w.ranks q).pc := by
  simp [setPc, update_ranks_ne _ _ h]

@[simp] theorem setPc_pc_self (w : BfsWorld) (pe : Nat) (p : BfsPc) :
    ((w.setPc pe p).ranks pe).pc = p := by simp [setPc]

theorem update_frame {w w₁ : BfsWorld} {pe : Nat} {f : BfsRank → BfsRank} {P : Prop}
    (h₁ : ∀ q, (w₁.ranks q).pc = (w.ranks q).pc) (hf : (f (w₁.ranks pe)).pc ≠ .done) :
    (∀ q ≠ pe, ((w₁.update pe f).ranks q).pc = (w.ranks q).pc) ∧
      (((w₁.update pe f).ranks pe).pc = .done → P) :=
  ⟨fun q hq => by rw [update_ranks_ne _ _ hq, h₁], fun hd => absurd (by simpa using hd) hf⟩

theorem bfsAct_pc {c : BfsCfg} {w w' : BfsWorld} {pe : Nat} (h : bfsAct c w pe = some w') :
    (∀ q ≠ pe, (w'.ranks q).pc = (w.ranks q).pc) ∧
      ((w'.ranks pe).pc = .done → (w.ranks pe).pc = .done ∨
        (w.ranks pe).pc = .finish ∧ (c.finishParent (w.td.parent pe)).isSome) := by
  unfold bfsAct at h
  cases hpc : (w.ranks pe).pc with
  | done | tdAlloc | tdReduce =>
    simp only [hpc, Option.some.injEq] at h
    subst h
    exact ⟨fun _ _ => rfl, fun hd => .inl (hpc.symm.trans hd)⟩
  | finish =>
    simp only [hpc, Option.map_eq_some'] at h
    obtain ⟨p, hp, rfl⟩ := h
    exact ⟨fun q hq => by simp [setPc_pc_ne _ _ hq], fun _ => .inr ⟨rfl, by simp [hp]⟩⟩
  | td =>
    simp only [hpc] at h
    split at h <;> cases h
    · exact update_frame (fun _ => rfl) (by simp)
    · exact ⟨fun _ _ => rfl, fun hd => .inl (hpc.symm.trans hd)⟩
  | toQueueFlush =>
    obtain ⟨w₁, h₁, rfl⟩ := Option.map_eq_some'.1 (by simpa only [hpc] using h)
    exact update_frame (flush_pc _ h₁) (by simp)
  | tdFlush rest =>
    cases rest with
    | nil =>
      obtain ⟨w₁, h₁, rfl⟩ := Option.map_eq_some'.1 (by simpa only [hpc] using h)
      exact update_frame (flush_pc _ h₁) (by simp)
    | cons u rest =>
      obtain ⟨w₁, h₁, rfl⟩ := Option.map_eq_some'.1 (by simpa only [hpc] using h)
      exact update_frame (pushBack_pc _ h₁) (by simp)
  | toQueue rest =>
    cases rest with
    | nil =>
      cases (by simpa only [hpc] using h : some _ = some w')
      exact update_frame (fun _ => rfl) (by simp)
    | cons u rest =>
      simp only [hpc] at h
      split at h
      · obtain ⟨w₁, h₁, rfl⟩ := Option.map_eq_some'.1 h
        exact update_frame (pushBack_pc _ h₁) (by simp)
      · cases h
        exact update_frame (fun _ => rfl) (by simp)
  | toBitmap | bu =>
    obtain ⟨_, _, rfl⟩ := Option.map_eq_some'.1 (by simpa only [hpc] using h)
    exact update_frame (fun _ => rfl) (by simp)
  | loop | direction | buTest | toQueueSlide | tdSlide =>
    simp only [hpc] at h
    (try split_ifs at h) <;> cases h <;> exact update_frame (fun _ => rfl) (by simp)

theorem bfsSync_pc {c : BfsCfg} {w w' : BfsWorld} (h : bfsSync c w = some w') (pe : Nat) :
    (w'.ranks pe).pc = (w.ranks pe).pc ∨ (w'.ranks pe).pc = .td ∨ (w'.ranks pe).pc = .tdSlide := by
  unfold bfsSync at h
  split_ifs at h
  · obtain ⟨es, -, rfl⟩ := Option.map_eq_some'.1 h
    by_cases hpe : pe < c.npes <;> simp [hpe]
  · cases h
    by_cases hpe : pe < c.npes <;> simp [hpe]
  · cases h
    exact .inl rfl

/-- No rank has returned from `DOBFS`. -/
def Running (c : BfsCfg) (w : BfsWorld) : Prop := ∀ pe < (c.npes : Nat), (w.ranks pe).pc ≠ .done

theorem bfsInit_running {c : BfsCfg} {w : BfsWorld} (h : bfsInit c = some w) : Running c w := by
  obtain ⟨ps, -, rfl⟩ := Option.map_eq_some'.1 h
  intro pe hpe
  simp [hpe]

section Stuck

variable {c : BfsCfg} (hmw : c.vp.maxWidth < c.g.numNodes)
include hmw

theorem bfsStep_running {w w' : BfsWorld} (e : BfsEvent) (h : bfsStep c w e = some w')
    (hr : Running c w) : Running c w' := by
  intro q hq
  cases e with
  | act pe =>
    simp only [bfsStep] at h
    split_ifs at h
    · obtain ⟨hother, hdone⟩ := bfsAct_pc h
      by_cases hqpe : q = pe
      · subst hqpe
        intro hd
        rcases hdone hd with h' | ⟨-, hs⟩
        · exact hr q hq h'
        · simp [BfsCfg.finishParent, hmw] at hs
      · rw [hother q hqpe]
        exact hr q hq
    · cases h
      exact hr q hq
  | sync =>
    rcases bfsSync_pc h q with h' | h' | h' <;> rw [h']
    · exact hr q hq
    all_goals decide

theorem bfsRun_running : ∀ (evs : List BfsEvent) (w w' : BfsWorld), Running c w →
    bfsRun c w evs = some w' → Running c w'
  | [], w, w', hr, h => by
    cases h
    exact hr
  | e :: evs, w, w', hr, h => by
    rw [bfsRun, List.foldlM_cons] at h
    cases hs : bfsStep c w e with
    | none => simp [hs] at h
    | some w₁ =>
      simp only [hs, Option.bind_eq_bind, Option.some_bind] at h
      exact bfsRun_running evs w₁ w' (bfsStep_running hmw e hs hr) h

end Stuck

theorem dobfs_never_returns (c : BfsCfg) (h2 : 2 ≤ (c.npes : Nat))
    (hn : (c.npes : Nat) ≤ c.g.numNodes) {w₀ w : BfsWorld} (evs : List BfsEvent)
    (h0 : bfsInit c = some w₀) (h : bfsRun c w₀ evs = some w) : Running c w :=
  bfsRun_running (c.vp.maxWidth_lt h2 hn) evs w₀ w (bfsInit_running h0) h

/-- The edge `0 - 1` on two ranks, searched from `0`. -/
def pathTwo : BfsCfg := ⟨Graph.ofAdj [[1], [0]], 0, 2, 15, 18, fun _ _ => 0, fun _ => 0⟩

/-- Rank 0 enters `BUStep`, which reads `parent[1]` from a slice of one cell. -/
theorem pathTwo_never_returns :
    ((bfsInit pathTwo).bind fun w₀ => bfsRun pathTwo w₀ (List.replicate 4 (.act 0))) = none ∧
    ∀ (w₀ w : BfsWorld) (evs : List BfsEvent), bfsInit pathTwo = some w₀ →
      bfsRun pathTwo w₀ evs = some w → Running pathTwo w :=
  ⟨rfl, fun _ _ evs h0 h => dobfs_never_returns pathTwo (by decide) (by decide) evs h0 h⟩

/-- The edge `0 - 1` on three ranks, from `0`; ranks 0 and 1 own no vertex. -/
def edgeThree : BfsCfg := ⟨Graph.ofAdj [[1], [0]], 0, 3, 15, 18, fun _ _ => 0, fun _ => 0⟩

/-- Each rank runs the loop body once, bottom-up, to the do-while test. -/
def edgeThreeEvents : List BfsEvent := (List.range 3).flatMap fun pe => List.replicate 5 (.act pe)

/-- After the first `BUStep` ranks 0 and 1 leave the do-while while rank 2 goes round again. -/
theorem edgeThree_do_while_differs :
    ((bfsInit edgeThree).bind fun w₀ => bfsRun edgeThree w₀ edgeThreeEvents).map (fun w =>
      ((List.range 3).map fun pe => (w.ranks pe).pc,
        (List.range 3).map fun pe => ((w.ranks pe).oldAwakeCount, (w.ranks pe).awakeCount))) =
      some ([.toQueue [], .toQueue [], .bu], [(1, 0), (1, 0), (1, 1)]) := by
  decide

end DMM
