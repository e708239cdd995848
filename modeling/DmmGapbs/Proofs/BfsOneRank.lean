import DmmGapbs.Proofs.BfsPhases
import DmmGapbs.Proofs.BfsControl
import DmmGapbs.Proofs.Queue
import Mathlib.Data.List.Perm.Subperm

/-! `DOBFS` on one rank. There every id is the rank's own, every flush appends the staged items
to the rank's own frontier, and the collectives only wait for the rank itself. An invariant
of rank 0, one case for each place in `DOBFS`, holds along every run: the loop's test sees
`parent` at some level `k` of the level-synchronous BFS (`BfsLevels`) and the window exactly
level `k`; a top-down or bottom-up phase carries it to the next level (`BfsPhases`); and no
step is undefined, since everything ever pushed is a distinct vertex, so the frontier never
overflows. A measure (unvisited vertices and pending pushes, then the place in the loop) drops
on every step that changes the state, so every run reaches `DOBFS`'s return after finitely
many such steps, and returns a valid parent array. -/

namespace DMM

open Graph BfsCfg

/-! ### The frontier of rank 0 -/

namespace BfsRank

variable (r : BfsRank)

def old : List Nat := cells r.frontier.shared 0 r.frontier.sharedOutEnd

def pend : List Nat :=
  cells r.frontier.shared r.frontier.sharedOutEnd (r.frontier.sharedIn - r.frontier.sharedOutEnd) ++
    cells r.lqueue.localQueue 0 r.lqueue.count

/-- The rank after `lqueue.flush()` on one rank. -/
def flushed : BfsRank :=
  { r with
    frontier := { r.frontier with
      shared := copyInto r.frontier.shared r.frontier.sharedIn r.lqueue.count r.lqueue.localQueue
      sharedIn := r.frontier.sharedIn + r.lqueue.count }
    lqueue := { r.lqueue with count := 0 } }

/-- `lqueue.push_back(x)` on one rank: a full buffer is flushed first. -/
def pushed (x : Nat) : BfsRank :=
  let r' := if r.lqueue.count = kLocalSize then r.flushed else r
  { r' with lqueue := r'.lqueue.stage x }

@[simp] theorem flushed_pc : r.flushed.pc = r.pc := rfl
@[simp] theorem flushed_front : r.flushed.front = r.front := rfl
@[simp] theorem flushed_start : r.flushed.frontier.sharedOutStart = r.frontier.sharedOutStart := rfl
@[simp] theorem flushed_end : r.flushed.frontier.sharedOutEnd = r.frontier.sharedOutEnd := rfl
@[simp] theorem flushed_count : r.flushed.lqueue.count = 0 := rfl
@[simp] theorem flushed_sharedIn :
    r.flushed.frontier.sharedIn = r.frontier.sharedIn + r.lqueue.count := rfl

@[simp] theorem pushed_pc (x : Nat) : (r.pushed x).pc = r.pc := by
  simp only [pushed]; split_ifs <;> rfl
@[simp] theorem pushed_front (x : Nat) : (r.pushed x).front = r.front := by
  simp only [pushed]; split_ifs <;> rfl
@[simp] theorem pushed_start (x : Nat) :
    (r.pushed x).frontier.sharedOutStart = r.frontier.sharedOutStart := by
  simp only [pushed]; split_ifs <;> rfl
@[simp] theorem pushed_end (x : Nat) :
    (r.pushed x).frontier.sharedOutEnd = r.frontier.sharedOutEnd := by
  simp only [pushed]; split_ifs <;> rfl

theorem pushed_sharedIn_add (x : Nat) :
    (r.pushed x).frontier.sharedIn + (r.pushed x).lqueue.count =
      r.frontier.sharedIn + r.lqueue.count + 1 := by
  simp only [pushed]; split_ifs <;> simp [QueueBuffer.stage, flushed]; omega

theorem sharedIn_le_pushed (x : Nat) : r.frontier.sharedIn ≤ (r.pushed x).frontier.sharedIn := by
  simp only [pushed]; split_ifs <;> simp [QueueBuffer.stage, flushed]

theorem pend_eq_nil (he : r.frontier.sharedOutEnd = r.frontier.sharedIn) (hc : r.lqueue.count = 0) :
    r.pend = [] := by
  simp [pend, he, hc, cells]

@[simp] theorem old_withPc (p : BfsPc) : ({ r with pc := p } : BfsRank).old = r.old := rfl
@[simp] theorem pend_withPc (p : BfsPc) : ({ r with pc := p } : BfsRank).pend = r.pend := rfl

theorem window_subset_old (hw : r.frontier.sharedOutStart ≤ r.frontier.sharedOutEnd) {x : Nat}
    (hx : x ∈ r.frontier.window) : x ∈ r.old := by
  have h := cells_add r.frontier.shared 0 r.frontier.sharedOutStart
    (r.frontier.sharedOutEnd - r.frontier.sharedOutStart)
  rw [Nat.add_sub_cancel' hw, Nat.zero_add] at h
  rw [old, h]; exact List.mem_append_right _ hx

theorem old_slide (hq : r.frontier.sharedOutEnd ≤ r.frontier.sharedIn) :
    cells r.frontier.shared 0 r.frontier.sharedIn =
      r.old ++ cells r.frontier.shared r.frontier.sharedOutEnd
        (r.frontier.sharedIn - r.frontier.sharedOutEnd) := by
  have h := cells_add r.frontier.shared 0 r.frontier.sharedOutEnd
    (r.frontier.sharedIn - r.frontier.sharedOutEnd)
  rwa [Nat.add_sub_cancel' hq, Nat.zero_add] at h

variable {r} (hq : r.frontier.sharedOutEnd ≤ r.frontier.sharedIn)
include hq

theorem old_flushed : r.flushed.old = r.old :=
  cells_congr fun i (hi : i < r.frontier.sharedOutEnd) => by
    simp only [flushed, copyInto]; rw [if_neg (by omega)]

theorem pend_flushed : r.flushed.pend = r.pend := by
  have := cells_copyInto r.frontier.shared r.lqueue.localQueue hq r.lqueue.count
  simp only [pend, flushed, cells, List.range_zero, List.map_nil, List.append_nil] at this ⊢
  rw [show r.frontier.sharedIn + r.lqueue.count - r.frontier.sharedOutEnd =
    r.frontier.sharedIn - r.frontier.sharedOutEnd + r.lqueue.count by omega]
  exact this

theorem old_pushed (x : Nat) : (r.pushed x).old = r.old := by
  simp only [pushed]; split_ifs
  · exact old_flushed hq
  · rfl

theorem pend_pushed (x : Nat) : (r.pushed x).pend = r.pend ++ [x] := by
  simp only [pushed]; split_ifs
  · have h := pend_flushed hq
    simp only [pend, flushed_end, flushed_sharedIn, flushed_count] at h ⊢
    rw [← h, cells_stage]; simp [flushed]
  · simp only [pend, cells_stage, List.append_assoc]

end BfsRank

namespace BfsWorld

variable {c : BfsCfg} (h1 : (c.npes : Nat) = 1) (w : BfsWorld)
  (hcap : (w.ranks 0).frontier.sharedIn + (w.ranks 0).lqueue.count ≤ c.g.numNodes)
include h1 hcap

theorem flush_one : ∃ w', w.flush c 0 = some w' ∧ w'.ranks 0 = (w.ranks 0).flushed ∧ w'.td = w.td := by
  simp only [flush, flushChecked, h1, if_true, if_neg (not_lt.2 hcap), Option.map_some']
  exact ⟨_, rfl, by simp [setFrontiers, BfsRank.flushed], rfl⟩

theorem pushBack_one (x : Nat) :
    ∃ w', w.pushBack c 0 x = some w' ∧ w'.ranks 0 = (w.ranks 0).pushed x ∧ w'.td = w.td := by
  unfold pushBack
  split_ifs with hfull
  · obtain ⟨w₁, hw₁, hr, ht⟩ := flush_one h1 w hcap
    rw [hw₁]
    exact ⟨_, rfl, by simp [hr, BfsRank.pushed, hfull], ht⟩
  · exact ⟨_, rfl, by simp [BfsRank.pushed, hfull], rfl⟩

end BfsWorld

/-! ### The invariant of rank 0 -/

namespace BfsRank

variable (r : BfsRank)

/-- What rank 0 has still to push in this phase. -/
def todo (t : TdRank) : List Nat :=
  match r.pc with
  | .td => t.pushed
  | .tdFlush rest => rest
  | .toQueue rest => rest.filter r.front
  | _ => []

def todoLen (t : TdRank) : Nat :=
  match r.pc with
  | .buTest => r.awakeCount.toNat
  | _ => (r.todo t).length

def pending (t : TdRank) : Nat :=
  (r.frontier.sharedIn - r.frontier.sharedOutEnd) + r.lqueue.count + r.todoLen t

def bonus : Nat :=
  match r.pc with
  | .loop => if r.frontier.empty then 0 else 1
  | .finish | .done => 0
  | _ => 1

def inner (t : TdRank) : Nat :=
  match r.pc with
  | .td => BfsCfg.tdPos t.pc
  | .tdFlush rest => rest.length
  | .toQueue rest => rest.length
  | _ => 0

end BfsRank

namespace BfsCfg

variable (c : BfsCfg)

/-- The loop's test at level `k`: `parent` and the window at level `k`, nothing pushed since. -/
def Head (k : Nat) (r : BfsRank) (parent : Nat → Int) : Prop :=
  LevelInv c.g c.source k parent ∧ (∀ x, x ∈ r.frontier.window ↔ c.g.HopDist c.source x k) ∧
    r.frontier.sharedOutEnd = r.frontier.sharedIn ∧ r.lqueue.count = 0

def FrontIs (k : Nat) (r : BfsRank) : Prop :=
  ∀ x, r.front x = true ↔ x < c.g.numNodes ∧ c.g.HopDist c.source x k

/-- A phase's pushes are flushed and make up exactly level `k`, the level of `parent`. -/
def Flushed (k : Nat) (r : BfsRank) (parent : Nat → Int) : Prop :=
  LevelInv c.g c.source k parent ∧ r.lqueue.count = 0 ∧
    ∀ x, x ∈ r.pend ↔ c.g.HopDist c.source x k

/-- What holds at each place of `DOBFS` on rank 0. -/
def PcInv (r : BfsRank) (tw : TdWorld) : Prop :=
  match r.pc with
  | .loop => ∃ k, c.Head k r (tw.parent 0)
  | .direction | .tdAlloc | .toBitmap =>
    (∃ k, c.Head k r (tw.parent 0)) ∧ r.frontier.sharedOutStart < r.frontier.sharedOutEnd
  | .td => ∃ k parent0, c.Head k r parent0 ∧ TdAt (c.windowEdges r.frontier.window) parent0 tw
  | .tdFlush rest => ∃ k, LevelInv c.g c.source k (tw.parent 0) ∧
      ∀ x, x ∈ r.pend ++ rest ↔ c.g.HopDist c.source x k
  | .tdReduce | .tdSlide | .toQueueSlide => ∃ k, c.Flushed k r (tw.parent 0)
  | .bu => ∃ k, LevelInv c.g c.source k (tw.parent 0) ∧
      (∀ x, c.g.HopDist c.source x k → r.front x = true) ∧
      r.frontier.sharedOutEnd = r.frontier.sharedIn ∧ r.lqueue.count = 0 ∧ 1 ≤ r.awakeCount
  | .buTest => ∃ k, LevelInv c.g c.source k (tw.parent 0) ∧ c.FrontIs k r ∧
      r.awakeCount = ((List.range c.g.numNodes).filter r.front).length ∧ 1 ≤ r.oldAwakeCount ∧
      r.frontier.sharedOutEnd = r.frontier.sharedIn ∧ r.lqueue.count = 0 ∧
      ∀ x ∈ r.old, r.front x = false
  | .toQueue rest => ∃ k pre, LevelInv c.g c.source k (tw.parent 0) ∧ c.FrontIs k r ∧
      pre ++ rest = List.range' 0 c.g.numNodes ∧ r.pend = pre.filter r.front
  | .toQueueFlush => ∃ k, LevelInv c.g c.source k (tw.parent 0) ∧ c.FrontIs k r ∧
      r.pend = (List.range' 0 c.g.numNodes).filter r.front
  | .finish => ∃ k, LevelInv c.g c.source k (tw.parent 0) ∧ ∀ x, ¬c.g.HopDist c.source x (k + 1)
  | .done => ValidParent c.g c.source (tw.parent 0)

/-- The invariant of rank 0 and `parent`: what was pushed is distinct, visited and within range. -/
structure RankInv (r : BfsRank) (tw : TdWorld) : Prop where
  win : r.frontier.sharedOutStart ≤ r.frontier.sharedOutEnd ∧
    r.frontier.sharedOutEnd ≤ r.frontier.sharedIn
  nodup : (r.old ++ r.pend ++ r.todo (tw.ranks 0)).Nodup
  sent : ∀ x ∈ r.old ++ r.pend ++ r.todo (tw.ranks 0), x < c.g.numNodes ∧ 0 ≤ tw.parent 0 x
  front : ∀ x, r.front x = true → x < c.g.numNodes ∧ 0 ≤ tw.parent 0 x
  pc : c.PcInv r tw

/-! ### The measure -/

def unvisited (parent : Nat → Int) : Nat :=
  ((List.range c.g.numNodes).filter fun x => parent x < 0).length

def stage : BfsPc → Nat
  | .loop => 14
  | .direction => 13
  | .tdAlloc => 12
  | .td => 11
  | .tdFlush _ => 10
  | .tdReduce => 9
  | .tdSlide => 8
  | .toBitmap => 7
  | .bu => 6
  | .buTest => 5
  | .toQueue _ => 4
  | .toQueueFlush => 3
  | .toQueueSlide => 2
  | .finish => 1
  | .done => 0

/-- The measure every state-changing step lowers: unvisited vertices and pending pushes, then the
place in the loop body, then the work left there. -/
def measure (r : BfsRank) (tw : TdWorld) : Nat × Nat × Nat :=
  (2 * (c.unvisited (tw.parent 0) + r.pending (tw.ranks 0)) + r.bonus, stage r.pc,
    r.inner (tw.ranks 0))

@[simp] theorem measure_fst (r : BfsRank) (tw : TdWorld) :
    (c.measure r tw).1 = 2 * (c.unvisited (tw.parent 0) + r.pending (tw.ranks 0)) + r.bonus := rfl
@[simp] theorem measure_stage (r : BfsRank) (tw : TdWorld) : (c.measure r tw).2.1 = stage r.pc := rfl
@[simp] theorem measure_inner (r : BfsRank) (tw : TdWorld) :
    (c.measure r tw).2.2 = r.inner (tw.ranks 0) := rfl

/-- A step of rank 0 that keeps the invariant and lowers the measure. -/
structure Advances (r : BfsRank) (tw : TdWorld) (r' : BfsRank) (tw' : TdWorld) : Prop where
  inv : c.RankInv r' tw'
  lt : Prod.Lex (· < ·) (Prod.Lex (· < ·) (· < ·)) (c.measure r' tw') (c.measure r tw)

end BfsCfg

/-! ### One step of rank 0 -/

theorem lex_of_stage {x y : Nat × Nat × Nat} (h1 : x.1 = y.1) (h2 : x.2.1 < y.2.1) :
    Prod.Lex (· < ·) (Prod.Lex (· < ·) (· < ·)) x y :=
  Prod.lex_def.2 (.inr ⟨h1, Prod.lex_def.2 (.inl h2)⟩)

theorem lex_of_inner {x y : Nat × Nat × Nat} (h1 : x.1 = y.1) (h2 : x.2.1 = y.2.1)
    (h3 : x.2.2 < y.2.2) : Prod.Lex (· < ·) (Prod.Lex (· < ·) (· < ·)) x y :=
  Prod.lex_def.2 (.inr ⟨h1, Prod.lex_def.2 (.inr ⟨h2, h3⟩)⟩)

theorem lex_of_fst {x y : Nat × Nat × Nat} (h : x.1 < y.1) :
    Prod.Lex (· < ·) (Prod.Lex (· < ·) (· < ·)) x y :=
  Prod.lex_def.2 (.inl h)

namespace BfsCfg

section Steps

variable {c : BfsCfg} {r r' : BfsRank} {tw tw' : TdWorld}

theorem length_le_of_nodup {l : List Nat} {n : Nat} (hn : l.Nodup) (h : ∀ x ∈ l, x < n) :
    l.length ≤ n := by
  simpa using (hn.subperm fun x hx => List.mem_range.2 (h x hx)).length_le

theorem RankInv.cap (h : c.RankInv r tw) : r.frontier.sharedIn + r.lqueue.count ≤ c.g.numNodes := by
  have := length_le_of_nodup h.nodup fun x hx => (h.sent x hx).1
  simp only [List.length_append, BfsRank.old, BfsRank.pend, cells_length] at this
  have := h.win; omega

theorem RankInv.of_list (h : c.RankInv r tw)
    (hwin : r'.frontier.sharedOutStart ≤ r'.frontier.sharedOutEnd ∧
      r'.frontier.sharedOutEnd ≤ r'.frontier.sharedIn)
    (hl : r'.old ++ r'.pend ++ r'.todo (tw'.ranks 0) = r.old ++ r.pend ++ r.todo (tw.ranks 0))
    (hp : ∀ x < c.g.numNodes, 0 ≤ tw.parent 0 x → 0 ≤ tw'.parent 0 x)
    (hf : ∀ x, r'.front x = true → x < c.g.numNodes ∧ 0 ≤ tw'.parent 0 x) (hpc : c.PcInv r' tw') :
    c.RankInv r' tw' :=
  ⟨hwin, hl ▸ h.nodup, fun x hx => let hs := h.sent x (hl ▸ hx); ⟨hs.1, hp x hs.1 hs.2⟩, hf, hpc⟩

theorem RankInv.keep (h : c.RankInv r tw) (hq : r'.frontier = r.frontier)
    (hd : r'.pend = r.pend) (hf : r'.front = r.front) (hp : tw'.parent 0 = tw.parent 0)
    (ht : r'.todo (tw'.ranks 0) = r.todo (tw.ranks 0)) (hpc : c.PcInv r' tw') :
    c.RankInv r' tw' :=
  h.of_list (hq ▸ h.win) (by rw [BfsRank.old, hq, hd, ht]; rfl) (fun x _ hx => hp ▸ hx)
    (fun x hx => hp ▸ h.front x (hf ▸ hx)) hpc

theorem length_filter_split {l : List Nat} (p q s : Nat → Bool)
    (h : ∀ x ∈ l, p x = (q x || s x)) (hd : ∀ x ∈ l, q x = true → s x = false) :
    (l.filter p).length = (l.filter q).length + (l.filter s).length := by
  induction l with
  | nil => rfl
  | cons a l ih =>
    have ih := ih (fun x hx => h x (List.mem_cons_of_mem _ hx))
      (fun x hx => hd x (List.mem_cons_of_mem _ hx))
    have hda := hd a (List.mem_cons_self _ _)
    simp only [List.filter_cons, h a (List.mem_cons_self _ _)]
    cases hq : q a <;> cases hs : s a <;> simp only [hq, hs, Bool.true_eq_false, true_implies] at hda <;>
      simp only [Bool.or_false, Bool.or_true, Bool.false_or, if_true, Bool.false_eq_true, if_false,
        List.length_cons] <;> omega

theorem unvisited_update {parent : Nat → Int} {v u : Nat} (hv : v < c.g.numNodes)
    (hneg : parent v < 0) : c.unvisited (Function.update parent v u) + 1 = c.unvisited parent := by
  have hsplit : ∀ x ∈ List.range c.g.numNodes, decide (parent x < 0) =
      (x == v || decide (Function.update parent v u x < 0)) := fun x _ => by
    rcases eq_or_ne x v with rfl | hx <;> simp [*]
  have hdisj : ∀ x ∈ List.range c.g.numNodes, (x == v) = true →
      decide (Function.update parent v u x < 0) = false := fun x _ hx => by
    obtain rfl := beq_iff_eq.1 hx; simp [Int.natCast_nonneg]
  have hone : ((List.range c.g.numNodes).filter fun x => x == v).length = 1 := by
    rw [← List.countP_eq_length_filter, ← List.count,
      List.count_eq_one_of_mem (List.nodup_range _) (List.mem_range.2 hv)]
  unfold unvisited
  rw [length_filter_split _ _ _ hsplit hdisj, hone]; omega

theorem unvisited_expand {k : Nat} {parent parent' : Nat → Int} {next : Nat → Bool}
    (hL : LevelInv c.g c.source k parent) (he : Expand c.g c.source k parent parent')
    (hnext : ∀ x, next x = true ↔ x < c.g.numNodes ∧ c.g.HopDist c.source x (k + 1)) :
    c.unvisited parent' + ((List.range c.g.numNodes).filter next).length = c.unvisited parent := by
  have hsplit : ∀ x ∈ List.range c.g.numNodes, decide (parent x < 0) =
      (next x || decide (parent' x < 0)) := fun x hx => by
    have hx := List.mem_range.1 hx
    by_cases hd : c.g.HopDist c.source x (k + 1)
    · simp [(hnext x).2 ⟨hx, hd⟩, hL.neg_of_next hx hd]
    · have hn : next x = false := by simpa [hx, hd] using hnext x
      by_cases hneg : parent x < 0
      · simp [hn, hneg, he.stay x hx hneg hd]
      · simp [hn, hneg, he.keep x hx (not_lt.1 hneg)]
  have hdisj : ∀ x ∈ List.range c.g.numNodes, next x = true → decide (parent' x < 0) = false :=
    fun x _ hn => by
      obtain ⟨hx, hd⟩ := (hnext x).1 hn
      obtain ⟨p, -, hp, -⟩ := he.wake x hx (hL.neg_of_next hx hd) hd
      simp [hp, Int.natCast_nonneg]
  unfold unvisited
  rw [length_filter_split _ _ _ hsplit hdisj]; omega

theorem unvisited_finish (parent : Nat → Int) :
    c.unvisited (fun i => if i < c.g.numNodes ∧ parent i < -1 then -1 else parent i) =
      c.unvisited parent := by
  unfold unvisited
  congr 1
  exact List.filter_congr fun x _ => by by_cases h : parent x < -1 <;> simp [h]; omega

theorem advances_loop (h : c.RankInv r tw) (hpc : r.pc = .loop) :
    c.Advances r tw { r with pc := if r.frontier.empty then .finish else .direction } tw := by
  have hI := h.pc
  simp only [PcInv, hpc] at hI
  obtain ⟨k, hH⟩ := hI
  by_cases he : r.frontier.empty = true
  · refine ⟨h.keep rfl rfl rfl rfl (by simp [BfsRank.todo, hpc, he]) ?_,
      lex_of_stage (by simp [BfsRank.pending, BfsRank.bonus, BfsRank.todoLen, BfsRank.todo, hpc, he]) (by simp [stage, he, hpc])⟩
    have hnil : r.frontier.window = [] := by
      simp only [SlidingQueue.empty, beq_iff_eq] at he
      simp [SlidingQueue.window, SlidingQueue.size, he]
    simp only [PcInv, he, if_true]
    exact ⟨k, hH.1, no_next_of_empty fun x hx => by simpa [hnil] using (hH.2.1 x).2 hx⟩
  · have hlt : r.frontier.sharedOutStart < r.frontier.sharedOutEnd := by
      simp only [SlidingQueue.empty, beq_iff_eq] at he
      exact lt_of_le_of_ne h.win.1 he
    refine ⟨h.keep rfl rfl rfl rfl (by simp [BfsRank.todo, hpc, he]) ?_,
      lex_of_stage (by simp [BfsRank.pending, BfsRank.bonus, BfsRank.todoLen, BfsRank.todo, hpc, he]) (by simp [stage, he, hpc])⟩
    simp only [PcInv, he, if_false]
    exact ⟨⟨k, hH⟩, hlt⟩

theorem advances_direction (h : c.RankInv r tw) (hpc : r.pc = .direction) {p : BfsPc}
    (hp : p = .toBitmap ∨ p = .tdAlloc) (e : Int) :
    c.Advances r tw { r with pc := p, edgesToCheck := e } tw := by
  have hI := h.pc
  simp only [PcInv, hpc] at hI
  refine ⟨h.keep rfl rfl rfl rfl ?_ ?_, lex_of_stage ?_ ?_⟩ <;> rcases hp with rfl | rfl
  all_goals first
    | exact hI
    | simp [BfsRank.todo, BfsRank.pending, BfsRank.todoLen, BfsRank.bonus, stage, hpc]

theorem advances_tdAlloc (h : c.RankInv r tw) (hpc : r.pc = .tdAlloc) {sc : Int}
    (ht : tw'.ranks 0 = ⟨.edge (c.windowEdges r.frontier.window), [], sc⟩)
    (hp : tw'.parent 0 = tw.parent 0) :
    c.Advances r tw { r with lqueue := QueueBuffer.fresh, pc := .td } tw' := by
  have hI := h.pc
  simp only [PcInv, hpc] at hI
  obtain ⟨⟨k, hL, hwin, hend, hcnt⟩, -⟩ := hI
  have hd : ({ r with lqueue := QueueBuffer.fresh, pc := .td } : BfsRank).pend = r.pend := by
    simp [BfsRank.pend, hcnt, QueueBuffer.fresh, cells]
  refine ⟨h.keep rfl hd rfl hp (by simp [BfsRank.todo, hpc, ht]) ?_,
    lex_of_stage ?_ (by simp [stage, hpc])⟩
  · simp only [PcInv]
    refine ⟨k, tw.parent 0, ⟨hL, hwin, hend, rfl⟩, ?_⟩
    simp only [TdAt, ht]
    exact ⟨[], rfl, hp ▸ claimed_nil _⟩
  · simp [BfsRank.pending, BfsRank.todoLen, BfsRank.todo, BfsRank.bonus, hpc, ht, hp, hcnt,
      QueueBuffer.fresh]

section Phases

variable (h1 : (c.npes : Nat) = 1) (hg : c.g.Valid) (htr : c.g.Transposed)
  (hs : c.source < c.g.numNodes)

include hg htr hs in
theorem advances_tdDone (h : c.RankInv r tw) (hpc : r.pc = .td) (hd : (tw.ranks 0).pc = .done) :
    c.Advances r tw { r with pc := .tdFlush (tw.ranks 0).pushed } tw := by
  have hI := h.pc
  simp only [PcInv, hpc] at hI
  obtain ⟨k, P0, ⟨hL, hwin, hend, hcnt⟩, hat⟩ := hI
  simp only [TdAt, hd] at hat
  have hnil := r.pend_eq_nil hend hcnt
  refine ⟨h.keep rfl rfl rfl rfl (by simp [BfsRank.todo, hpc]) ?_,
    lex_of_stage ?_ (by simp [stage, hpc])⟩
  · simp only [PcInv]
    refine ⟨k + 1, hL.expand hs (hat.expand htr hg hs hL hwin), fun x => ?_⟩
    rw [show ({ r with pc := .tdFlush (tw.ranks 0).pushed } : BfsRank).pend = [] from hnil,
      List.nil_append]
    exact hat.mem_pushed_iff hg hs hL hwin x
  · simp [BfsRank.pending, BfsRank.todoLen, BfsRank.todo, BfsRank.bonus, hpc]

include h1 hg hs in
theorem advances_tdStep (h : c.RankInv r tw) (hpc : r.pc = .td) (hd : (tw.ranks 0).pc ≠ .done) :
    c.Advances r tw r (tdStep c.td tw 0) := by
  have hI := h.pc
  simp only [PcInv, hpc] at hI
  obtain ⟨k, P0, hH, hat⟩ := hI
  have hE : ∀ e ∈ c.windowEdges r.frontier.window, e.2 < c.g.numNodes := fun ⟨u, v⟩ he => by
    obtain ⟨hu, hv⟩ := mem_windowEdges.1 he
    exact hg.out u (Hops.lt_numNodes hg hs ((hH.2.1 u).1 hu).1) v hv
  obtain ⟨hat', hok⟩ := c.tdAt_step h1 hE hat hd
  have hpc' : c.PcInv r (tdStep c.td tw 0) := by simp only [PcInv, hpc]; exact ⟨k, P0, hH, hat'⟩
  have hin : r.inner ((tdStep c.td tw 0).ranks 0) < r.inner (tw.ranks 0) := by
    simpa [BfsRank.inner, hpc] using hok.pos
  rcases hok.effect with ⟨hp, hpu⟩ | ⟨u, v, hv, hneg, hp, hpu⟩
  · exact ⟨h.keep rfl rfl rfl hp (by simp [BfsRank.todo, hpc, hpu]) hpc',
      lex_of_inner (by simp [BfsRank.pending, BfsRank.todoLen, BfsRank.todo, hpc, hp, hpu]) rfl hin⟩
  · have hnot : v ∉ r.old ++ r.pend ++ r.todo (tw.ranks 0) := fun hm =>
      absurd (h.sent v hm).2 (not_le.2 hneg)
    have ht : r.todo ((tdStep c.td tw 0).ranks 0) = r.todo (tw.ranks 0) ++ [v] := by
      simp [BfsRank.todo, hpc, hpu]
    have hU := c.unvisited_update (u := u) hv hneg
    refine ⟨⟨h.win, ?_, fun x hx => ?_, fun x hx => ?_, hpc'⟩, lex_of_inner ?_ rfl hin⟩
    · rw [ht, ← List.append_assoc]
      exact h.nodup.append (List.nodup_singleton v) (List.disjoint_singleton.2 hnot)
    · rw [ht, ← List.append_assoc, List.mem_append, List.mem_singleton] at hx
      rw [hp]
      rcases hx with hx | rfl
      · have := h.sent x hx
        rw [Function.update_noteq (by rintro rfl; exact hnot hx)]; exact this
      · simp [hv, Int.natCast_nonneg]
    · have := h.front x hx
      rw [hp, Function.update_noteq (by rintro rfl; exact absurd this.2 (not_le.2 hneg))]; exact this
    · simp only [measure_fst, BfsRank.pending, BfsRank.todoLen, BfsRank.todo, hpc, hpu, hp,
        List.length_append, List.length_singleton]
      omega

end Phases

theorem advances_tdPush (h : c.RankInv r tw) {u : Nat} {rest : List Nat}
    (hpc : r.pc = .tdFlush (u :: rest)) :
    c.Advances r tw { r.pushed u with pc := .tdFlush rest } tw := by
  have hI := h.pc
  simp only [PcInv, hpc] at hI
  obtain ⟨k, hL, hmem⟩ := hI
  have hq := h.win.2
  have hpend := BfsRank.pend_pushed hq u
  have hin := r.pushed_sharedIn_add u
  have hle := r.sharedIn_le_pushed u
  refine ⟨h.of_list ⟨by simpa using h.win.1, by simp; omega⟩ ?_ (fun _ _ hx => hx)
    (fun x hx => h.front x (by simpa using hx)) ?_,
    lex_of_inner ?_ (by simp [stage, hpc]) (by simp [BfsRank.inner, hpc])⟩
  · simp only [BfsRank.old_withPc, BfsRank.pend_withPc, BfsRank.old_pushed hq, hpend]
    simp [BfsRank.todo, hpc]
  · simp only [PcInv, BfsRank.pend_withPc, hpend]
    exact ⟨k, hL, fun x => by simpa using hmem x⟩
  · simp only [measure_fst, BfsRank.pending, BfsRank.todoLen, BfsRank.todo, BfsRank.bonus, hpc,
      List.length_cons, BfsRank.pushed_end]
    omega

section Phases

variable (hg : c.g.Valid) (hs : c.source < c.g.numNodes)

include hg hs in
theorem advances_flush (h : c.RankInv r tw) {p : BfsPc}
    (hp : r.pc = .tdFlush [] ∧ p = .tdReduce ∨ r.pc = .toQueueFlush ∧ p = .toQueueSlide) :
    c.Advances r tw { r.flushed with pc := p } tw := by
  have hq := h.win.2
  have hpend := BfsRank.pend_flushed hq
  have hI := h.pc
  have hpc' : c.PcInv { r.flushed with pc := p } tw := by
    rcases hp with ⟨hpc, rfl⟩ | ⟨hpc, rfl⟩ <;> simp only [PcInv, hpc, BfsRank.pend_withPc] at hI ⊢
    · obtain ⟨k, hL, hmem⟩ := hI
      exact ⟨k, hL, rfl, fun x => show x ∈ r.flushed.pend ↔ _ by simpa [hpend] using hmem x⟩
    · obtain ⟨k, hL, hfr, hpe⟩ := hI
      refine ⟨k, hL, rfl, fun x => show x ∈ r.flushed.pend ↔ _ from ?_⟩
      rw [hpend, hpe]
      simp only [List.mem_filter, List.mem_range'_1, Nat.zero_add, zero_le, true_and]
      exact ⟨fun ⟨_, hx⟩ => ((hfr x).1 hx).2, fun hx => by
        have := Hops.lt_numNodes hg hs hx.1; exact ⟨this, (hfr x).2 ⟨this, hx⟩⟩⟩
  have htodo : r.todo (tw.ranks 0) = [] := by
    rcases hp with ⟨hpc, -⟩ | ⟨hpc, -⟩ <;> simp [BfsRank.todo, hpc]
  have htodo' : ({ r.flushed with pc := p } : BfsRank).todo (tw.ranks 0) = [] := by
    rcases hp with ⟨-, rfl⟩ | ⟨-, rfl⟩ <;> rfl
  refine ⟨h.of_list ⟨by simpa using h.win.1, by simp; omega⟩ ?_ (fun _ _ hx => hx)
    (fun x hx => h.front x (by simpa using hx)) hpc', lex_of_stage ?_ ?_⟩
  · rw [BfsRank.old_withPc, BfsRank.pend_withPc, BfsRank.old_flushed hq, hpend, htodo, htodo']
  · have hb : ({ r.flushed with pc := p } : BfsRank).bonus = r.bonus := by
      rcases hp with ⟨hpc, rfl⟩ | ⟨hpc, rfl⟩ <;> simp [BfsRank.bonus, hpc]
    have hl : ({ r.flushed with pc := p } : BfsRank).todoLen (tw.ranks 0) = r.todoLen (tw.ranks 0) := by
      rcases hp with ⟨hpc, rfl⟩ | ⟨hpc, rfl⟩ <;> simp [BfsRank.todoLen, BfsRank.todo, hpc]
    simp only [measure_fst, BfsRank.pending, hb, hl]
    simp only [BfsRank.flushed_sharedIn, BfsRank.flushed_end, BfsRank.flushed_count]
    omega
  · rcases hp with ⟨hpc, rfl⟩ | ⟨hpc, rfl⟩ <;> simp [stage, hpc]

end Phases

theorem advances_tdReduce (h : c.RankInv r tw) (hpc : r.pc = .tdReduce) (sc : Int) :
    c.Advances r tw { r with pc := .tdSlide, scoutCount := sc } tw := by
  have hI := h.pc
  simp only [PcInv, hpc] at hI
  exact ⟨h.keep rfl rfl rfl rfl (by simp [BfsRank.todo, hpc]) hI,
    lex_of_stage (by simp [BfsRank.pending, BfsRank.todoLen, BfsRank.todo, BfsRank.bonus, hpc])
      (by simp [stage, hpc])⟩

theorem advances_slide (h : c.RankInv r tw) (hpc : r.pc = .tdSlide ∨ r.pc = .toQueueSlide)
    (sc : Int) :
    c.Advances r tw
      { r with frontier := r.frontier.slideWindow, scoutCount := sc, pc := .loop } tw := by
  have hI := h.pc
  obtain ⟨k, hL, hcnt, hmem⟩ : ∃ k, c.Flushed k r (tw.parent 0) := by
    rcases hpc with hpc | hpc <;> simpa only [PcInv, hpc] using hI
  have hq := h.win.2
  have hpend : r.pend = cells r.frontier.shared r.frontier.sharedOutEnd
      (r.frontier.sharedIn - r.frontier.sharedOutEnd) := by
    simp [BfsRank.pend, hcnt, cells]
  have htodo : r.todo (tw.ranks 0) = [] := by
    rcases hpc with hpc | hpc <;> simp [BfsRank.todo, hpc]
  have hbonus : r.bonus = 1 := by rcases hpc with hpc | hpc <;> simp [BfsRank.bonus, hpc]
  have hlen : r.todoLen (tw.ranks 0) = 0 := by
    rcases hpc with hpc | hpc <;> simp [BfsRank.todoLen, BfsRank.todo, hpc]
  refine ⟨h.of_list ⟨hq, le_rfl⟩ ?_ (fun _ _ hx => hx) h.front ?_, lex_of_fst ?_⟩
  · show cells r.frontier.shared 0 r.frontier.sharedIn ++
      (cells r.frontier.shared r.frontier.sharedIn (r.frontier.sharedIn - r.frontier.sharedIn) ++
        cells r.lqueue.localQueue 0 r.lqueue.count) ++ [] = _
    rw [r.old_slide hq, htodo, ← hpend, hcnt, Nat.sub_self]; simp [cells]
  · simp only [PcInv]
    exact ⟨k, hL, fun x => by rw [← hmem x, hpend]; rfl, rfl, hcnt⟩
  · rw [measure_fst, measure_fst, BfsRank.pending, BfsRank.pending, hlen, hbonus]
    simp only [BfsRank.todoLen, BfsRank.todo, BfsRank.bonus, SlidingQueue.empty,
      SlidingQueue.slideWindow, hcnt, beq_iff_eq, Nat.sub_self, List.length_nil]
    split_ifs <;> omega

theorem foldl_update_true (l : List Nat) (f : Nat → Bool) (x : Nat) :
    l.foldl (fun bm u => Function.update bm u true) f x = (f x || decide (x ∈ l)) := by
  induction l generalizing f with
  | nil => simp
  | cons a l ih =>
    rw [List.foldl_cons, ih]
    rcases eq_or_ne x a with rfl | hx <;> simp [*]

theorem advances_toBitmap (h : c.RankInv r tw) (hpc : r.pc = .toBitmap) :
    ∃ bm, c.queueToBitmap r.frontier r.front = some bm ∧
      c.Advances r tw
        { r with front := bm, awakeCount := r.frontier.size, frontier := r.frontier.slideWindow,
                 pc := .bu } tw := by
  have hI := h.pc
  simp only [PcInv, hpc] at hI
  obtain ⟨⟨k, hL, hwin, hend, hcnt⟩, hlt⟩ := hI
  have hsub : ∀ x ∈ r.frontier.window, x < c.g.numNodes ∧ 0 ≤ tw.parent 0 x := fun x hx =>
    h.sent x (List.mem_append_left _ (List.mem_append_left _ (r.window_subset_old h.win.1 hx)))
  have hcap := h.cap
  have hc : ¬(c.g.numNodes < r.frontier.sharedOutEnd ∨
      r.frontier.window.any fun x => decide (c.g.numNodes ≤ x)) := by
    simp only [not_or, not_lt, List.any_eq_true, not_exists, not_and, decide_eq_true_eq]
    exact ⟨by omega, fun x hx => by have := (hsub x hx).1; omega⟩
  refine ⟨_, by rw [queueToBitmap, if_neg hc], ?_⟩
  have hnil := r.pend_eq_nil hend hcnt
  refine ⟨h.of_list ⟨show r.frontier.sharedOutEnd ≤ r.frontier.sharedIn from h.win.2, le_rfl⟩ ?_
    (fun _ _ hx => hx) (fun x hx => ?_) ?_, lex_of_stage ?_ (by simp [stage, hpc])⟩
  · show cells r.frontier.shared 0 r.frontier.sharedIn ++
      (cells r.frontier.shared r.frontier.sharedIn (r.frontier.sharedIn - r.frontier.sharedIn) ++
        cells r.lqueue.localQueue 0 r.lqueue.count) ++ [] = _
    rw [hnil, ← hend]; simp [BfsRank.todo, hpc, hcnt, cells, BfsRank.old]
  · change (r.frontier.window.foldl (fun bm u => Function.update bm u true) r.front) x = true at hx
    rw [foldl_update_true] at hx
    rcases Bool.or_eq_true_iff.1 hx with hx | hx
    · exact h.front x hx
    · exact hsub x (of_decide_eq_true hx)
  · simp only [PcInv]
    refine ⟨k, hL, fun x hx => ?_, rfl, hcnt, ?_⟩
    · rw [foldl_update_true]; simp [(hwin x).2 hx]
    · simp only [SlidingQueue.size]; omega
  · simp [BfsRank.pending, BfsRank.todoLen, BfsRank.todo, BfsRank.bonus, SlidingQueue.slideWindow,
      hpc, hend, hcnt]

theorem advances_toQueuePush (h : c.RankInv r tw) {u : Nat} {rest : List Nat}
    (hpc : r.pc = .toQueue (u :: rest)) (hu : r.front u = true) :
    c.Advances r tw { r.pushed u with pc := .toQueue rest } tw := by
  have hI := h.pc
  simp only [PcInv, hpc] at hI
  obtain ⟨k, pre, hL, hfr, hpre, hpe⟩ := hI
  have hq := h.win.2
  have hpend := BfsRank.pend_pushed hq u
  have hin := r.pushed_sharedIn_add u
  have hle := r.sharedIn_le_pushed u
  refine ⟨h.of_list ⟨by simpa using h.win.1, by simp; omega⟩ ?_ (fun _ _ hx => hx)
    (fun x hx => h.front x (by simpa using hx)) ?_,
    lex_of_inner ?_ (by simp [stage, hpc]) (by simp [BfsRank.inner, hpc])⟩
  · show (r.pushed u).old ++ (r.pushed u).pend ++ rest.filter (r.pushed u).front = _
    rw [BfsRank.old_pushed hq, hpend, BfsRank.pushed_front]
    simp [BfsRank.todo, hpc, hu]
  · simp only [PcInv]
    refine ⟨k, pre ++ [u], hL, fun x => by simpa using hfr x, by simp [hpre], ?_⟩
    show (r.pushed u).pend = (pre ++ [u]).filter (r.pushed u).front
    rw [hpend, hpe, BfsRank.pushed_front, List.filter_append]; simp [hu]
  · simp only [measure_fst, BfsRank.pending, BfsRank.todoLen, BfsRank.todo, BfsRank.bonus, hpc,
      BfsRank.pushed_end, BfsRank.pushed_front, List.filter_cons, hu, if_true, List.length_cons]
    omega

theorem advances_toQueueSkip (h : c.RankInv r tw) {u : Nat} {rest : List Nat}
    (hpc : r.pc = .toQueue (u :: rest)) (hu : ¬r.front u = true) :
    c.Advances r tw { r with pc := .toQueue rest } tw := by
  have hI := h.pc
  simp only [PcInv, hpc] at hI
  obtain ⟨k, pre, hL, hfr, hpre, hpe⟩ := hI
  have ht : rest.filter r.front = (u :: rest).filter r.front := by simp [List.filter_cons, hu]
  refine ⟨h.keep rfl rfl rfl rfl (by simp [BfsRank.todo, hpc, ht]) ?_,
    lex_of_inner ?_ (by simp [stage, hpc]) (by simp [BfsRank.inner, hpc])⟩
  · simp only [PcInv]
    exact ⟨k, pre ++ [u], hL, hfr, by simp [hpre], by simp [hpe, List.filter_append, hu]⟩
  · simp only [measure_fst, BfsRank.pending, BfsRank.todoLen, BfsRank.todo, BfsRank.bonus, hpc, ht]

theorem advances_toQueueEnd (h : c.RankInv r tw) (hpc : r.pc = .toQueue []) :
    c.Advances r tw { r with pc := .toQueueFlush } tw := by
  have hI := h.pc
  simp only [PcInv, hpc] at hI
  obtain ⟨k, pre, hL, hfr, hpre, hpe⟩ := hI
  refine ⟨h.keep rfl rfl rfl rfl (by simp [BfsRank.todo, hpc]) ?_,
    lex_of_stage (by simp [BfsRank.pending, BfsRank.todoLen, BfsRank.todo, BfsRank.bonus, hpc])
      (by simp [stage, hpc])⟩
  simp only [PcInv]
  exact ⟨k, hL, hfr, by rw [List.append_nil] at hpre; rw [← hpre]; exact hpe⟩

section Phases

variable (h1 : (c.npes : Nat) = 1) (hg : c.g.Valid) (htr : c.g.Transposed)
  (hs : c.source < c.g.numNodes)

include h1 htr hs in
theorem advances_bu (h : c.RankInv r tw) (hpc : r.pc = .bu) :
    c.buStep (tw.parent 0) r.front = some (c.buAfter (tw.parent 0) r.front c.g.numNodes) ∧
      c.Advances r tw
        { r with oldAwakeCount := r.awakeCount,
                 awakeCount := (c.buAfter (tw.parent 0) r.front c.g.numNodes).2.2,
                 front := (c.buAfter (tw.parent 0) r.front c.g.numNodes).2.1, curr := r.front,
                 pc := .buTest }
        { tw with
          parent := Function.update tw.parent 0 (c.buAfter (tw.parent 0) r.front c.g.numNodes).1 } := by
  have hI := h.pc
  simp only [PcInv, hpc] at hI
  obtain ⟨k, hL, hsup, hend, hcnt, hawake⟩ := hI
  obtain ⟨he, hnext, hcount⟩ := buAfter_expand htr hL h.front hsup
  refine ⟨c.buStep_eq (by rw [vp_maxWidth_of_one h1]) _ _, ?_⟩
  have hL' := hL.expand hs he
  have hU := c.unvisited_expand hL he hnext
  refine ⟨h.of_list h.win ?_ (fun x hx hv => by simpa [he.keep x hx hv] using hv) (fun x hx => ?_) ?_,
    lex_of_stage ?_ (by simp [stage, hpc])⟩
  · show r.old ++ r.pend ++ [] = _
    simp [BfsRank.todo, hpc]
  · obtain ⟨hx, hd⟩ := (hnext x).1 hx
    simpa using ⟨hx, (hL'.visited x hx).2 ⟨k + 1, le_rfl, hd⟩⟩
  · simp only [PcInv, Function.update_same]
    refine ⟨k + 1, hL', hnext, hcount, hawake, hend, hcnt, fun x hx => ?_⟩
    obtain ⟨hxn, hxv⟩ := h.sent x (List.mem_append_left _ (List.mem_append_left _ hx))
    obtain ⟨j, hj, hdj⟩ := (hL.visited x hxn).1 hxv
    by_contra hn
    have := hdj.unique ((hnext x).1 (Bool.not_eq_false _ ▸ hn)).2
    omega
  · simp only [measure_fst, BfsRank.pending, BfsRank.todoLen, BfsRank.todo, BfsRank.bonus, hpc,
      Function.update_same, hend, hcnt, hcount, Int.toNat_natCast, Nat.sub_self, List.length_nil]
    omega

include hg hs in
theorem advances_buTest (h : c.RankInv r tw) (hpc : r.pc = .buTest) :
    c.Advances r tw { r with pc := if r.awakeCount ≥ r.oldAwakeCount ∨
      r.awakeCount > c.g.numNodes / c.beta then .bu else .toQueue (List.range' 0 c.g.numNodes) } tw := by
  have hI := h.pc
  simp only [PcInv, hpc] at hI
  obtain ⟨k, hL, hfr, hawake, hold, hend, hcnt, hoff⟩ := hI
  have hnil := r.pend_eq_nil hend hcnt
  split_ifs with hc
  · have h1a : 1 ≤ r.awakeCount := by
      rcases hc with hc | hc
      · omega
      · have : (0 : Int) ≤ (c.g.numNodes : Int) / (c.beta : Int) :=
          Int.ediv_nonneg (Int.natCast_nonneg _) (Int.natCast_nonneg _)
        omega
    refine ⟨h.keep rfl rfl rfl rfl (by simp [BfsRank.todo, hpc]) ?_, lex_of_fst ?_⟩
    · simp only [PcInv]
      exact ⟨k, hL, fun x hx => (hfr x).2 ⟨Hops.lt_numNodes hg hs hx.1, hx⟩, hend, hcnt, h1a⟩
    · simp only [measure_fst, BfsRank.pending, BfsRank.todoLen, BfsRank.todo, BfsRank.bonus, hpc,
        List.length_nil]
      omega
  · have hold' : r.old.Nodup := h.nodup.of_append_left.of_append_left
    have hsent : ∀ x ∈ r.old ++ r.pend ++ (List.range' 0 c.g.numNodes).filter r.front,
        x < c.g.numNodes ∧ 0 ≤ tw.parent 0 x := by
      intro x hx
      rw [hnil, List.append_nil, List.mem_append] at hx
      rcases hx with hx | hx
      · exact h.sent x (List.mem_append_left _ (List.mem_append_left _ hx))
      · exact h.front x (List.mem_filter.1 hx).2
    refine ⟨⟨h.win, ?_, hsent, h.front, ?_⟩, lex_of_stage ?_ (by simp [stage, hpc])⟩
    · show (r.old ++ r.pend ++ (List.range' 0 c.g.numNodes).filter r.front).Nodup
      rw [hnil, List.append_nil]
      exact hold'.append ((List.nodup_range' _ _).filter _) fun x hx hx' =>
        absurd (List.mem_filter.1 hx').2 (by simp [hoff x hx])
    · simp only [PcInv]
      exact ⟨k, [], hL, hfr, rfl, by simp [hnil]⟩
    · simp only [measure_fst, BfsRank.pending, BfsRank.todoLen, BfsRank.todo, BfsRank.bonus, hpc,
        hawake, Int.toNat_natCast, List.range_eq_range']

include h1 in
theorem advances_finish (h : c.RankInv r tw) (hpc : r.pc = .finish) :
    c.finishParent (tw.parent 0) = some (fun i => if i < c.g.numNodes ∧ tw.parent 0 i < -1 then -1
      else tw.parent 0 i) ∧
      c.Advances r tw { r with pc := .done }
        { tw with
          parent := Function.update tw.parent 0
            fun i => if i < c.g.numNodes ∧ tw.parent 0 i < -1 then -1 else tw.parent 0 i } := by
  have hI := h.pc
  simp only [PcInv, hpc] at hI
  obtain ⟨k, hL, hnext⟩ := hI
  refine ⟨by rw [finishParent, vp_maxWidth_of_one h1, if_neg (lt_irrefl _)], ?_⟩
  have hkeep : ∀ x, 0 ≤ tw.parent 0 x →
      (if x < c.g.numNodes ∧ tw.parent 0 x < -1 then -1 else tw.parent 0 x) = tw.parent 0 x :=
    fun x hx => if_neg fun h' => by omega
  refine ⟨h.of_list h.win ?_ (fun x _ hx => by simpa [hkeep x hx] using hx)
    (fun x hx => by simpa [hkeep x (h.front x hx).2] using h.front x hx) ?_,
    lex_of_stage ?_ (by simp [stage, hpc])⟩
  · show r.old ++ r.pend ++ [] = _
    simp [BfsRank.todo, hpc]
  · simp only [PcInv, Function.update_same]
    exact hL.validParent hnext
  · simp [BfsRank.pending, BfsRank.todoLen, BfsRank.todo, BfsRank.bonus, hpc, unvisited_finish]

end Phases

end Steps

end BfsCfg

/-! ### The steps of `DOBFS` on one rank -/

namespace BfsWorld

variable (w : BfsWorld)

@[simp] theorem setPc_ranks_self (pe : Nat) (p : BfsPc) :
    (w.setPc pe p).ranks pe = { w.ranks pe with pc := p } := by simp [setPc]
@[simp] theorem setPc_td (pe : Nat) (p : BfsPc) : (w.setPc pe p).td = w.td := rfl
@[simp] theorem update_td (pe : Nat) (f : BfsRank → BfsRank) : (w.update pe f).td = w.td := rfl
@[simp] theorem setParent_td (pe : Nat) (p : Nat → Int) :
    (w.setParent pe p).td = { w.td with parent := Function.update w.td.parent pe p } := rfl

end BfsWorld

namespace BfsCfg

variable {c : BfsCfg} {w : BfsWorld} (h1 : (c.npes : Nat) = 1)

include h1 in
theorem tdEdges_one (q : SlidingQueue) (hq : q.sharedOutEnd ≤ c.g.numNodes)
    (hw : ∀ x ∈ q.window, x < c.g.numNodes) : c.tdEdges q 0 = some (c.windowEdges q.window) := by
  have hlen : q.window.length = q.size := by simp [SlidingQueue.window]
  unfold tdEdges
  simp only [Partition.start, Partition.stop, h1, Nat.zero_mul, List.drop_zero, Nat.sub_zero,
    if_true, ← hlen, List.take_length]
  rw [if_neg]
  · rfl
  · simp only [not_or, not_lt, List.any_eq_true, not_exists, not_and, decide_eq_true_eq]
    exact ⟨hq, fun x hx => by have := hw x hx; omega⟩

variable (hg : c.g.Valid) (htr : c.g.Transposed) (hs : c.source < c.g.numNodes)
  (hab : c.alpha ≠ 0 ∧ c.beta ≠ 0)

include h1 hg htr hs hab in
theorem bfsAct_advances (h : c.RankInv (w.ranks 0) w.td)
    (hpc : (w.ranks 0).pc ≠ .tdAlloc ∧ (w.ranks 0).pc ≠ .tdReduce ∧ (w.ranks 0).pc ≠ .done) :
    ∃ w', bfsAct c w 0 = some w' ∧ c.Advances (w.ranks 0) w.td (w'.ranks 0) w'.td := by
  dsimp only [bfsAct]
  cases hp : (w.ranks 0).pc with
  | loop => exact ⟨_, rfl, advances_loop h hp⟩
  | direction =>
    simp only [if_neg hab.1]
    split_ifs
    · exact ⟨_, rfl, advances_direction h hp (.inl rfl) _⟩
    · exact ⟨_, rfl, by simpa using advances_direction h hp (.inr rfl) _⟩
  | toBitmap =>
    obtain ⟨bm, hbm, hadv⟩ := advances_toBitmap h hp
    simp only [hbm, Option.map_some']
    exact ⟨_, rfl, by simpa using hadv⟩
  | bu =>
    obtain ⟨hbu, hadv⟩ := advances_bu h1 htr hs h hp
    simp only [hbu, Option.map_some']
    exact ⟨_, rfl, by simpa using hadv⟩
  | buTest =>
    simp only [if_neg hab.2, vp_start_zero, vp_stop_of_one h1, Nat.sub_zero]
    exact ⟨_, rfl, advances_buTest hg hs h hp⟩
  | toQueue rest =>
    cases rest with
    | nil => exact ⟨_, rfl, advances_toQueueEnd h hp⟩
    | cons u rest =>
      simp only
      split_ifs with hu
      · obtain ⟨w₁, hw₁, hr, ht⟩ := w.pushBack_one h1 h.cap u
        simp only [hw₁, Option.map_some']
        refine ⟨_, rfl, ?_⟩
        rw [BfsWorld.setPc_ranks_self, hr, BfsWorld.setPc_td, ht]
        exact advances_toQueuePush h hp hu
      · exact ⟨_, rfl, advances_toQueueSkip h hp hu⟩
  | toQueueFlush =>
    obtain ⟨w₁, hw₁, hr, ht⟩ := w.flush_one h1 h.cap
    simp only [hw₁, Option.map_some']
    refine ⟨_, rfl, ?_⟩
    rw [BfsWorld.setPc_ranks_self, hr, BfsWorld.setPc_td, ht]
    exact advances_flush hg hs h (.inr ⟨hp, rfl⟩)
  | toQueueSlide => exact ⟨_, rfl, by simpa using advances_slide h (.inr hp) 1⟩
  | tdAlloc => exact absurd hp hpc.1
  | td =>
    simp only
    split_ifs with hd
    · exact ⟨_, rfl, advances_tdDone hg htr hs h hp hd⟩
    · exact ⟨_, rfl, advances_tdStep h1 hg hs h hp hd⟩
  | tdFlush rest =>
    cases rest with
    | nil =>
      obtain ⟨w₁, hw₁, hr, ht⟩ := w.flush_one h1 h.cap
      simp only [hw₁, Option.map_some']
      refine ⟨_, rfl, ?_⟩
      rw [BfsWorld.setPc_ranks_self, hr, BfsWorld.setPc_td, ht]
      exact advances_flush hg hs h (.inl ⟨hp, rfl⟩)
    | cons u rest =>
      obtain ⟨w₁, hw₁, hr, ht⟩ := w.pushBack_one h1 h.cap u
      simp only [hw₁, Option.map_some']
      refine ⟨_, rfl, ?_⟩
      rw [BfsWorld.setPc_ranks_self, hr, BfsWorld.setPc_td, ht]
      exact advances_tdPush h hp
  | tdReduce => exact absurd hp hpc.2.1
  | tdSlide => exact ⟨_, rfl, by simpa using advances_slide h (.inl hp) (w.ranks 0).scoutCount⟩
  | finish =>
    obtain ⟨hfin, hadv⟩ := advances_finish h1 h hp
    simp only [hfin, Option.map_some']
    exact ⟨_, rfl, by simpa using hadv⟩
  | done => exact absurd hp hpc.2.2

include h1 in
theorem bfsSync_one (h : c.RankInv (w.ranks 0) w.td)
    (hpc : (w.ranks 0).pc = .tdAlloc ∨ (w.ranks 0).pc = .tdReduce) :
    ∃ w', bfsSync c w = some w' ∧ c.Advances (w.ranks 0) w.td (w'.ranks 0) w'.td := by
  have hall : ∀ P : Nat → Prop, (∀ pe < (c.npes : Nat), P pe) ↔ P 0 := fun P => by
    rw [h1]; exact ⟨fun hp => hp 0 Nat.one_pos, fun hp pe hpe => by rwa [Nat.lt_one_iff.1 hpe]⟩
  unfold bfsSync
  rcases hpc with hp | hp
  · have hE := tdEdges_one h1 (w.ranks 0).frontier (by have := h.cap; have := h.win; omega)
      fun x hx => (h.sent x (List.mem_append_left _ (List.mem_append_left _
        (BfsRank.window_subset_old _ h.win.1 hx)))).1
    have hm : (List.range 1).mapM (fun pe => c.tdEdges (w.ranks pe).frontier pe) =
        some [c.windowEdges (w.ranks 0).frontier.window] := by
      rw [show List.range 1 = [0] from rfl, List.mapM_cons, hE]; rfl
    rw [if_pos ((hall _).2 hp)]
    simp only [h1, hm, Option.map_some']
    exact ⟨_, rfl, advances_tdAlloc h hp rfl rfl⟩
  · have hnot : ¬∀ pe < (c.npes : Nat), (w.ranks pe).pc = .tdAlloc := fun h' => by
      have := (hall _).1 h'; rw [hp] at this; cases this
    rw [if_neg hnot, if_pos ((hall fun pe => (w.ranks pe).pc = .tdReduce).2 hp)]
    simp only [h1]
    exact ⟨_, rfl, advances_tdReduce h hp _⟩

include h1 hg htr hs hab in
theorem bfsStep_progress (h : c.RankInv (w.ranks 0) w.td) (hd : (w.ranks 0).pc ≠ .done) :
    ∃ e w', bfsStep c w e = some w' ∧ c.RankInv (w'.ranks 0) w'.td ∧
      Prod.Lex (· < ·) (Prod.Lex (· < ·) (· < ·))
        (c.measure (w'.ranks 0) w'.td) (c.measure (w.ranks 0) w.td) := by
  by_cases hq : (w.ranks 0).pc = .tdAlloc ∨ (w.ranks 0).pc = .tdReduce
  · obtain ⟨w', hw', hadv⟩ := bfsSync_one h1 h hq
    exact ⟨.sync, w', hw', hadv.inv, hadv.lt⟩
  · push_neg at hq
    obtain ⟨w', hw', hadv⟩ := bfsAct_advances h1 hg htr hs hab h ⟨hq.1, hq.2, hd⟩
    exact ⟨.act 0, w', by simp [bfsStep, h1, hw'], hadv.inv, hadv.lt⟩

variable (c) in
theorem measure_wf : WellFounded fun w' w : BfsWorld =>
    Prod.Lex (· < ·) (Prod.Lex (· < ·) (· < ·)) (c.measure (w'.ranks 0) w'.td)
      (c.measure (w.ranks 0) w.td) :=
  InvImage.wf _ (wellFounded_lt.prod_lex (wellFounded_lt.prod_lex wellFounded_lt))

include h1 hg htr hs hab in
theorem exists_run_done (w : BfsWorld) (h : c.RankInv (w.ranks 0) w.td) :
    ∃ evs w', bfsRun c w evs = some w' ∧ (w'.ranks 0).pc = .done := by
  induction w using (measure_wf c).induction with
  | h w ih =>
    by_cases hd : (w.ranks 0).pc = .done
    · exact ⟨[], w, rfl, hd⟩
    · obtain ⟨e, w₁, hw₁, h₁, hlt⟩ := bfsStep_progress h1 hg htr hs hab h hd
      obtain ⟨evs, w', hw', hd'⟩ := ih w₁ hlt h₁
      exact ⟨e :: evs, w', by rw [bfsRun, List.foldlM_cons, hw₁]; exact hw', hd'⟩

end BfsCfg

namespace BfsCfg

variable (c : BfsCfg) (h1 : (c.npes : Nat) = 1) (hg : c.g.Valid) (htr : c.g.Transposed)
  (hs : c.source < c.g.numNodes)
include h1 hg htr hs

end BfsCfg

end DMM
