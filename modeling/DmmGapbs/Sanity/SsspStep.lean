import DmmGapbs.Spec.Sssp

/-! What one event of the SSSP machine can change. A rank's Phase-1 or fusion step touches only
its `pc`, its bins and `dist`; the collective steps touch the control words in the same way on
every rank. Every invariant of the machine is derived from these lemmas. -/

namespace DMM

/-- The barrier-delimited part of the loop body a rank is in. -/
inductive Segment
  | phase1
  | fusion
  | phase2
  | exited
  deriving DecidableEq

def Ret.segment : Ret → Segment
  | .scan _ => .phase1
  | .drain _ => .fusion

def Pc.segment : Pc → Segment
  | .scan _ | .wait1 => .phase1
  | .edge _ _ ret | .readU _ _ _ _ _ ret | .cas _ _ _ _ _ _ ret | .reread _ _ _ _ _ ret => ret.segment
  | .drain _ | .wait2 => .fusion
  | .reserve | .wait3 => .phase2
  | .done => .exited

section RankStep

variable (c : SsspCfg) (pe : Nat) (r : SsspRank) (d : Nat → Nat)

theorem rankStep_shape : ∃ pc bins size,
    (rankStep c pe r d).1 = { r with pc := pc, bins := bins, binsSize := size } := by
  unfold rankStep
  split <;> (try split) <;> (try split) <;> exact ⟨_, _, _, rfl⟩

@[simp] theorem rankStep_iter : (rankStep c pe r d).1.iter = r.iter := by
  obtain ⟨_, _, _, h⟩ := rankStep_shape c pe r d; rw [h]

@[simp] theorem rankStep_sharedIndexes : (rankStep c pe r d).1.sharedIndexes = r.sharedIndexes := by
  obtain ⟨_, _, _, h⟩ := rankStep_shape c pe r d; rw [h]

@[simp] theorem rankStep_frontierTails : (rankStep c pe r d).1.frontierTails = r.frontierTails := by
  obtain ⟨_, _, _, h⟩ := rankStep_shape c pe r d; rw [h]

@[simp] theorem rankStep_frontier : (rankStep c pe r d).1.frontier = r.frontier := by
  obtain ⟨_, _, _, h⟩ := rankStep_shape c pe r d; rw [h]

@[simp] theorem rankStep_copyStart : (rankStep c pe r d).1.copyStart = r.copyStart := by
  obtain ⟨_, _, _, h⟩ := rankStep_shape c pe r d; rw [h]

@[simp] theorem rankStep_segment : (rankStep c pe r d).1.pc.segment = r.pc.segment := by
  unfold rankStep
  cases hpc : r.pc with
  | edge u es ret => rcases es with _ | ⟨⟨x, wt⟩, es⟩ <;> (try cases ret) <;> rfl
  | drain rest => rcases rest with _ | ⟨u, rest⟩ <;> dsimp only <;> (try split_ifs) <;> rfl
  | wait1 | wait2 | reserve | wait3 | done => exact congrArg Pc.segment hpc
  | _ => dsimp only; split_ifs <;> rfl

end RankStep

/-- The moves of one rank between barriers, one per branch of `rankStep`. -/
inductive RankMove (c : SsspCfg) (pe : Nat) (r : SsspRank) (d : Nat → Nat) :
    SsspRank → (Nat → Nat) → Prop
  | scanRelax {i : Nat} : r.pc = .scan i → i < c.sliceWidth pe r →
      c.delta * r.curr ≤ d (r.frontier i) →
      RankMove c pe r d { r with pc := .edge (r.frontier i) (c.g.outNeigh (r.frontier i)) (.scan i) } d
  | scanSkip {i : Nat} : r.pc = .scan i → i < c.sliceWidth pe r →
      ¬c.delta * r.curr ≤ d (r.frontier i) → RankMove c pe r d { r with pc := .scan (i + 1) } d
  | scanEnd {i : Nat} : r.pc = .scan i → ¬i < c.sliceWidth pe r →
      RankMove c pe r d { r with pc := .wait1 } d
  | edgeEndScan {u i : Nat} : r.pc = .edge u [] (.scan i) →
      RankMove c pe r d { r with pc := .scan (i + 1) } d
  | edgeEndDrain {u : Nat} {rest : List Nat} : r.pc = .edge u [] (.drain rest) →
      RankMove c pe r d { r with pc := .drain rest } d
  | edgeRead {u x wt : Nat} {es : List (Nat × Nat)} {ret : Ret} :
      r.pc = .edge u ((x, wt) :: es) ret → RankMove c pe r d { r with pc := .readU u x wt (d x) es ret } d
  | readCas {u x wt old : Nat} {es : List (Nat × Nat)} {ret : Ret} : r.pc = .readU u x wt old es ret →
      d u + wt < old → RankMove c pe r d { r with pc := .cas u x wt old (d u + wt) es ret } d
  | readSkip {u x wt old : Nat} {es : List (Nat × Nat)} {ret : Ret} :
      r.pc = .readU u x wt old es ret → ¬d u + wt < old →
      RankMove c pe r d { r with pc := .edge u es ret } d
  | casWin {u x wt old nd : Nat} {es : List (Nat × Nat)} {ret : Ret} :
      r.pc = .cas u x wt old nd es ret → d x = old →
      RankMove c pe r d { r.push (nd / c.delta) x with pc := .edge u es ret } (Function.update d x nd)
  | casLose {u x wt old nd : Nat} {es : List (Nat × Nat)} {ret : Ret} :
      r.pc = .cas u x wt old nd es ret → d x ≠ old →
      RankMove c pe r d { r with pc := .reread u x wt nd es ret } d
  | rereadCas {u x wt nd : Nat} {es : List (Nat × Nat)} {ret : Ret} :
      r.pc = .reread u x wt nd es ret → nd < d x →
      RankMove c pe r d { r with pc := .cas u x wt (d x) nd es ret } d
  | rereadSkip {u x wt nd : Nat} {es : List (Nat × Nat)} {ret : Ret} :
      r.pc = .reread u x wt nd es ret → ¬nd < d x → RankMove c pe r d { r with pc := .edge u es ret } d
  | drainCopy : r.pc = .drain [] →
      r.curr < r.binsSize ∧ r.bins r.curr ≠ [] ∧ (r.bins r.curr).length < kBinSizeThreshold →
      RankMove c pe r d { r with pc := .drain (r.bins r.curr), bins := Function.update r.bins r.curr [] } d
  | drainEnd : r.pc = .drain [] →
      ¬(r.curr < r.binsSize ∧ r.bins r.curr ≠ [] ∧ (r.bins r.curr).length < kBinSizeThreshold) →
      RankMove c pe r d { r with pc := .wait2 } d
  | drainNext {u : Nat} {rest : List Nat} : r.pc = .drain (u :: rest) →
      RankMove c pe r d { r with pc := .edge u (c.g.outNeigh u) (.drain rest) } d

namespace SsspWorld

variable (c : SsspCfg) (w : SsspWorld)

@[simp] theorem setRank_ranks (pe : Nat) (r : SsspRank) (q : Nat) :
    (w.setRank pe r).ranks q = if q = pe then r else w.ranks q := by
  simp [setRank, Function.update]

@[simp] theorem setRank_dist (pe : Nat) (r : SsspRank) : (w.setRank pe r).dist = w.dist := rfl

theorem applyPut_ranks (p : Put) (q : Nat) :
    (w.applyPut p).ranks q = if q = p.pe then { w.ranks q with
      frontier := putmem (w.ranks q).frontier p.off p.items } else w.ranks q := by
  unfold applyPut; split_ifs with h <;> simp [h]

/-- The control words and `pc` of every rank, which Phase 2's puts and bin clearing leave. -/
structure SameCtl (w w' : SsspWorld) : Prop where
  pc : ∀ q, (w'.ranks q).pc = (w.ranks q).pc
  iter : ∀ q, (w'.ranks q).iter = (w.ranks q).iter
  idx : ∀ q, (w'.ranks q).sharedIndexes = (w.ranks q).sharedIndexes
  tails : ∀ q, (w'.ranks q).frontierTails = (w.ranks q).frontierTails

theorem SameCtl.refl : SameCtl w w := ⟨fun _ => rfl, fun _ => rfl, fun _ => rfl, fun _ => rfl⟩

theorem SameCtl.trans {a b d : SsspWorld} (h1 : SameCtl a b) (h2 : SameCtl b d) : SameCtl a d :=
  ⟨fun q => (h2.pc q).trans (h1.pc q), fun q => (h2.iter q).trans (h1.iter q),
    fun q => (h2.idx q).trans (h1.idx q), fun q => (h2.tails q).trans (h1.tails q)⟩

theorem sameCtl_applyPut (p : Put) : SameCtl w (w.applyPut p) := by
  constructor <;> intro q <;> rw [applyPut_ranks] <;> split_ifs <;> rfl

theorem sameCtl_puts (ps : List Put) : SameCtl w (ps.foldl applyPut w) := by
  induction ps generalizing w with
  | nil => exact SameCtl.refl w
  | cons p ps ih => exact (sameCtl_applyPut w p).trans (ih _)

theorem sameCtl_scatterRank (pe : Nat) : SameCtl w (w.scatterRank c pe) := by
  dsimp only [scatterRank]
  split_ifs
  · refine (sameCtl_puts w (w.phase2Puts c pe)).trans ?_
    constructor <;> intro q <;> simp only [setRank_ranks] <;> split_ifs <;> simp_all
  · exact SameCtl.refl w

theorem sameCtl_scatter (pes : List Nat) :
    SameCtl w (pes.foldl (fun w pe => w.scatterRank c pe) w) := by
  induction pes generalizing w with
  | nil => exact SameCtl.refl w
  | cons pe pes ih => exact (sameCtl_scatterRank c w pe).trans (ih _)

@[simp] theorem vote_ranks (q : Nat) : (w.vote c).ranks q = (w.ranks q).voted (w.minLocal c) := rfl

@[simp] theorem vote_dist : (w.vote c).dist = w.dist := rfl

@[simp] theorem broadcastTail_ranks (q : Nat) :
    w.broadcastTail.ranks q = (w.ranks q).withNextTail (w.ranks 0).nextTail := rfl

@[simp] theorem nextIteration_ranks (q : Nat) : w.nextIteration.ranks q = (w.ranks q).advanced := rfl

@[simp] theorem reserve_dist (pe : Nat) : (w.reserve pe).dist = w.dist := by
  dsimp only [reserve]; split_ifs <;> rfl

theorem reserve_ranks (pe q : Nat) : (w.reserve pe).ranks q =
    let r := w.ranks pe
    let slot := (r.iter + 1) % 2
    let start := if r.next < r.binsSize then (w.ranks 0).frontierTails slot else r.copyStart
    let s := if q = pe then { r with copyStart := start, pc := .wait3 } else w.ranks q
    if q = 0 ∧ r.next < r.binsSize then s.fetchAdd slot (r.bins r.next).length else s := by
  dsimp only [reserve]
  by_cases hn : (w.ranks pe).next < (w.ranks pe).binsSize <;>
    rcases eq_or_ne q pe with rfl | hq <;> rcases eq_or_ne q 0 with rfl | h0 <;> simp [*]

theorem reserve_ranks_of_ne {pe q : Nat} (h0 : q ≠ 0) (hpe : q ≠ pe) :
    (w.reserve pe).ranks q = w.ranks q := by
  simp [reserve_ranks, h0, hpe]

@[simp] theorem reserve_iter (pe q : Nat) : ((w.reserve pe).ranks q).iter = (w.ranks q).iter := by
  rw [reserve_ranks]; dsimp only; split_ifs <;> subst_vars <;> rfl

@[simp] theorem reserve_sharedIndexes (pe q : Nat) :
    ((w.reserve pe).ranks q).sharedIndexes = (w.ranks q).sharedIndexes := by
  rw [reserve_ranks]; dsimp only; split_ifs <;> subst_vars <;> rfl

@[simp] theorem reserve_pc (pe q : Nat) :
    ((w.reserve pe).ranks q).pc = if q = pe then .wait3 else (w.ranks q).pc := by
  rw [reserve_ranks]; dsimp only; split_ifs <;> rfl

@[simp] theorem reserve_bins (pe q : Nat) : ((w.reserve pe).ranks q).bins = (w.ranks q).bins := by
  rw [reserve_ranks]; dsimp only; split_ifs <;> subst_vars <;> rfl

@[simp] theorem reserve_binsSize (pe q : Nat) :
    ((w.reserve pe).ranks q).binsSize = (w.ranks q).binsSize := by
  rw [reserve_ranks]; dsimp only; split_ifs <;> subst_vars <;> rfl

theorem reserve_copyStart (pe q : Nat) : ((w.reserve pe).ranks q).copyStart =
    if q = pe ∧ (w.ranks pe).next < (w.ranks pe).binsSize then
      (w.ranks 0).frontierTails (((w.ranks pe).iter + 1) % 2) else (w.ranks q).copyStart := by
  rw [reserve_ranks]; dsimp only; split_ifs <;> simp_all [SsspRank.fetchAdd]

theorem reserve_tail (pe : Nat) :
    ((w.reserve pe).ranks 0).frontierTails (((w.ranks pe).iter + 1) % 2) =
      (w.ranks 0).frontierTails (((w.ranks pe).iter + 1) % 2) +
        if (w.ranks pe).next < (w.ranks pe).binsSize then
          ((w.ranks pe).bins (w.ranks pe).next).length else 0 := by
  rw [reserve_ranks]; dsimp only; split_ifs <;> simp_all [SsspRank.fetchAdd]

theorem reserve_segment {pe : Nat} (hr : (w.ranks pe).pc = .reserve) (q : Nat) :
    ((w.reserve pe).ranks q).pc.segment = (w.ranks q).pc.segment := by
  rw [reserve_pc]; split_ifs with h
  · subst h; rw [hr]; rfl
  · rfl

theorem reserve_frontierTails {pe : Nat} (q : Nat) {j : Nat} (hj : j ≠ ((w.ranks pe).iter + 1) % 2) :
    ((w.reserve pe).ranks q).frontierTails j = (w.ranks q).frontierTails j := by
  rw [reserve_ranks]; dsimp only
  split_ifs <;> subst_vars <;> simp only [SsspRank.fetchAdd, Function.update_noteq hj]

theorem foldl_dist {α : Type} (f : SsspWorld → α → SsspWorld) (hf : ∀ w a, (f w a).dist = w.dist) :
    ∀ (l : List α) (w : SsspWorld), (l.foldl f w).dist = w.dist
  | [], _ => rfl
  | a :: l, w => (foldl_dist f hf l (f w a)).trans (hf w a)

theorem scatterRank_dist (pe : Nat) : (w.scatterRank c pe).dist = w.dist := by
  dsimp only [scatterRank]
  split_ifs
  · rw [setRank_dist, foldl_dist applyPut (fun _ _ => rfl)]
  · rfl

@[simp] theorem finish_dist : (w.finish c).dist = w.dist :=
  foldl_dist _ (fun w pe => scatterRank_dist c w pe) _ _

section Finish

variable {c w}

theorem finish_rank (q : Nat) : (w.finish c).ranks q =
    (((List.range c.npes).foldl (fun w pe => w.scatterRank c pe) w.broadcastTail).ranks q).advanced :=
  rfl

@[simp] theorem finish_iter (q : Nat) : ((w.finish c).ranks q).iter = (w.ranks q).iter + 1 := by
  rw [finish_rank, SsspRank.advanced, (sameCtl_scatter c _ _).iter]; rfl

@[simp] theorem finish_sharedIndexes (q : Nat) :
    ((w.finish c).ranks q).sharedIndexes = (w.ranks q).sharedIndexes := by
  rw [finish_rank, SsspRank.advanced, (sameCtl_scatter c _ _).idx]; rfl

@[simp] theorem finish_frontierTails (q : Nat) : ((w.finish c).ranks q).frontierTails =
    Function.update (w.ranks q).frontierTails (((w.ranks q).iter + 1) % 2) (w.ranks 0).nextTail := by
  rw [finish_rank, SsspRank.advanced, (sameCtl_scatter c _ _).tails]; rfl

theorem finish_pc (q : Nat) :
    ((w.finish c).ranks q).pc = if (w.ranks q).next ≠ kMaxBin then .scan 0 else .done := by
  rw [finish_rank, SsspRank.advanced]
  simp only [(sameCtl_scatter c _ _).idx, (sameCtl_scatter c _ _).iter]; rfl

end Finish

end SsspWorld

def Pc.active : Pc → Bool
  | .wait1 | .wait2 | .wait3 | .reserve | .done => false
  | _ => true

theorem rankStep_move {c : SsspCfg} {pe : Nat} {r : SsspRank} (d : Nat → Nat) (h : r.pc.active) :
    RankMove c pe r d (rankStep c pe r d).1 (rankStep c pe r d).2 := by
  unfold rankStep
  cases hpc : r.pc with
  | scan i =>
    dsimp only
    split_ifs with h1 h2
    · exact .scanRelax hpc h1 h2
    · exact .scanSkip hpc h1 h2
    · exact .scanEnd hpc h1
  | edge u es ret =>
    rcases es with _ | ⟨⟨x, wt⟩, es⟩
    · cases ret with
      | scan i => exact .edgeEndScan hpc
      | drain rest => exact .edgeEndDrain hpc
    · exact .edgeRead hpc
  | readU u x wt old es ret =>
    dsimp only
    split_ifs with h1
    · exact .readCas hpc h1
    · exact .readSkip hpc h1
  | cas u x wt old nd es ret =>
    dsimp only
    split_ifs with h1
    · exact .casWin hpc h1
    · exact .casLose hpc h1
  | reread u x wt nd es ret =>
    dsimp only
    split_ifs with h1
    · exact .rereadCas hpc h1
    · exact .rereadSkip hpc h1
  | drain rest =>
    rcases rest with _ | ⟨u, rest⟩
    · dsimp only
      split_ifs with h1
      · exact .drainCopy hpc h1
      · exact .drainEnd hpc h1
    · exact .drainNext hpc
  | wait1 | wait2 | reserve | wait3 | done => simp [hpc, Pc.active] at h

theorem ssspStep_cases {c : SsspCfg} {w w' : SsspWorld} {e : SsspEvent}
    (h : ssspStep c w e = some w') :
    (∃ pe < (c.npes : Nat), (w.ranks pe).pc.active ∧
      w' = { dist := (rankStep c pe (w.ranks pe) w.dist).2,
             ranks := Function.update w.ranks pe (rankStep c pe (w.ranks pe) w.dist).1 }) ∨
    (∃ pe < (c.npes : Nat), (w.ranks pe).pc = .reserve ∧ w' = w.reserve pe) ∨
    (w.AllAt c .wait1 ∧ w' = { w with ranks := fun pe => { w.ranks pe with pc := .drain [] } }) ∨
    (w.AllAt c .wait2 ∧ w' = w.vote c) ∨
    (w.AllAt c .wait3 ∧ w' = w.finish c) := by
  cases e with
  | act pe =>
    simp only [ssspStep] at h
    split_ifs at h with hpe
    split at h <;> simp only [Option.some.injEq, reduceCtorEq] at h
    · exact .inr (.inl ⟨pe, hpe, ‹_›, h.symm⟩)
    · rename_i hpc _ _ _ _
      refine .inl ⟨pe, hpe, ?_, h.symm⟩
      cases hq : (w.ranks pe).pc <;> simp_all [Pc.active]
  | sync =>
    simp only [ssspStep] at h
    split_ifs at h with h1 h2 h3 <;> simp only [Option.some.injEq, reduceCtorEq] at h
    · exact .inr (.inr (.inl ⟨h1, h.symm⟩))
    · exact .inr (.inr (.inr (.inl ⟨h2, h.symm⟩)))
    · exact .inr (.inr (.inr (.inr ⟨h3, h.symm⟩)))

end DMM
