import DmmGapbs.Proofs.SsspPhase2
import DmmGapbs.Proofs.SsspRelax
import Mathlib.Algebra.Order.BigOperators.Group.Finset

/-! Termination of `Shmem_DeltaStep`. Every event lowers, in lexicographic order, the sum of the
distances, the number of entries in the ranks' bins, and the steps the ranks have left before
their next barrier. A winning compare-and-swap lowers a distance. A copy of the current bin in
the fusion loop, or the end of an iteration that does not exit, empties a bin. Every other event
brings its rank closer to a barrier; a compare-and-swap that lost is retried only after a re-read,
so the retry loop is paid for by the win it lost to. -/

namespace DMM

open Finset

theorem sum_update_add {α : Type} {s : Finset Nat} (F : Nat → α → Nat) (g : Nat → α) {i : Nat}
    (hi : i ∈ s) (v : α) :
    ∑ j in s, F j (Function.update g i v j) + F i (g i) = ∑ j in s, F j (g j) + F i v := by
  have : ∑ j in s.erase i, F j (Function.update g i v j) = ∑ j in s.erase i, F j (g j) :=
    sum_congr rfl fun j hj => by rw [Function.update_noteq (ne_of_mem_erase hj)]
  rw [← add_sum_erase s _ hi, ← add_sum_erase s _ hi, this, Function.update_same]
  omega

/-! ### What a rank has left before its next barrier -/

/-- `RelaxEdges` over the edges `es` left: at most five steps an edge, and one to return. -/
def edgesCost (es : List (Nat × Nat)) : Nat := 5 * es.length + 1

/-- Phase 1 from slot `i` of a slice of `S` slots, to the barrier. -/
def scanCost (c : SsspCfg) (F : Nat → Nat) (S i : Nat) : Nat :=
  ((List.range' i (S - i)).map fun j => edgesCost (c.g.outNeigh (F j)) + 2).sum + 6

/-- The fusion loop with the entries `rest` left, to the barrier. -/
def drainCost (c : SsspCfg) (rest : List Nat) : Nat :=
  (rest.map fun u => edgesCost (c.g.outNeigh u) + 1).sum + 4

def Ret.cost (c : SsspCfg) (F : Nat → Nat) (S : Nat) : Ret → Nat
  | .scan i => scanCost c F S (i + 1)
  | .drain rest => drainCost c rest

/-- The steps a rank at `p` has left before its next barrier, or the barriers left. -/
def Pc.cost (c : SsspCfg) (F : Nat → Nat) (S : Nat) (d : Nat → Nat) : Pc → Nat
  | .scan i => scanCost c F S i
  | .edge _ es ret => edgesCost es + ret.cost c F S
  | .readU _ _ _ _ es ret => edgesCost es + ret.cost c F S + 4
  | .cas _ x _ old _ es ret => edgesCost es + ret.cost c F S + if d x = old then 1 else 3
  | .reread _ _ _ _ es ret => edgesCost es + ret.cost c F S + 2
  | .drain rest => drainCost c rest
  | .wait1 => 5
  | .wait2 => 3
  | .reserve => 2
  | .wait3 => 1
  | .done => 0

namespace SsspRank

variable (c : SsspCfg) (pe : Nat) (r : SsspRank) (d : Nat → Nat)

def cost : Nat := r.pc.cost c r.frontier (c.sliceWidth pe r) d

def entries : Nat := ∑ b in range r.binsSize, (r.bins b).length

@[simp] theorem cost_setPc (p : Pc) :
    ({ r with pc := p } : SsspRank).cost c pe d = p.cost c r.frontier (c.sliceWidth pe r) d := rfl

end SsspRank

namespace SsspWorld

variable (c : SsspCfg) (w : SsspWorld)

def distSum : Nat := ∑ v in range c.g.numNodes, w.dist v

def entries : Nat := ∑ pe in range c.npes, (w.ranks pe).entries

def work : Nat := ∑ pe in range c.npes, (w.ranks pe).cost c pe w.dist

/-- The termination measure, compared lexicographically. -/
def measure : Nat × Nat × Nat := (w.distSum c, w.entries c, w.work c)

end SsspWorld

def SsspEvent.wins (w : SsspWorld) : SsspEvent → Bool
  | .act pe =>
    match (w.ranks pe).pc with
    | .cas _ x _ old _ _ _ => w.dist x == old
    | _ => false
  | .sync => false

def casWins (c : SsspCfg) (w : SsspWorld) : List SsspEvent → Nat
  | [] => 0
  | e :: es =>
    match ssspStep c w e with
    | some w' => (if e.wins w then 1 else 0) + casWins c w' es
    | none => 0

section Costs

variable {c : SsspCfg} {F : Nat → Nat} {S i : Nat}

theorem scanCost_of_lt (hi : i < S) :
    scanCost c F S i = edgesCost (c.g.outNeigh (F i)) + 2 + scanCost c F S (i + 1) := by
  obtain ⟨k, hk⟩ : ∃ k, S - i = k + 1 := ⟨S - i - 1, by omega⟩
  simp only [scanCost, hk, show S - (i + 1) = k by omega, List.range'_succ, List.map_cons,
    List.sum_cons]
  omega

theorem scanCost_of_le (hi : S ≤ i) : scanCost c F S i = 6 := by
  simp [scanCost, Nat.sub_eq_zero_of_le hi]

theorem SsspRank.cost_of_pc {pe : Nat} {r r' : SsspRank} {d d' : Nat → Nat} (h : r'.pc = r.pc)
    (ha : r.pc.active = false) : r'.cost c pe d' = r.cost c pe d := by
  unfold SsspRank.cost; rw [h]
  cases hp : r.pc <;> simp_all [Pc.active, Pc.cost]

end Costs

/-! ### Bins -/

namespace SsspRank

variable {r r' : SsspRank}

theorem entries_congr (h1 : r'.bins = r.bins) (h2 : r'.binsSize = r.binsSize) :
    r'.entries = r.entries := by
  rw [entries, entries, h1, h2]

theorem entries_clear {b : Nat} (hb : b < r.binsSize) :
    ∑ j in range r.binsSize, (Function.update r.bins b [] j).length + (r.bins b).length =
      r.entries := by
  rw [sum_update_add (fun _ l => l.length) r.bins (mem_range.2 hb)]; rfl

theorem entries_push (hb : ∀ b, r.bins b ≠ [] → b < r.binsSize) (b v : Nat) :
    (r.push b v).entries = r.entries + 1 := by
  have hsub : ∑ j in range (max r.binsSize (b + 1)), (r.bins j).length = r.entries :=
    (sum_subset (range_subset.2 (Nat.le_max_left _ _)) fun j _ hj => by
      by_contra hne
      exact hj (mem_range.2 (hb j fun h => hne (by rw [h]; rfl)))).symm
  have := sum_update_add (fun _ l => l.length) r.bins
    (mem_range.2 (Nat.lt_of_lt_of_le (Nat.lt_succ_self b) (Nat.le_max_right r.binsSize (b + 1))))
    (r.bins b ++ [v])
  simp only [List.length_append, List.length_singleton, hsub] at this
  change ∑ j in range (max r.binsSize (b + 1)), (Function.update r.bins b (r.bins b ++ [v]) j).length =
    r.entries + 1
  omega

end SsspRank

/-! ### One move of a rank -/

section Move

variable {c : SsspCfg} {pe : Nat} {r r' : SsspRank} {d d' : Nat → Nat} {L : Nat}

theorem RankMove.account (hm : RankMove c pe r d r' d') (hok : r.pc.Ok c d L)
    (hb : ∀ b, r.bins b ≠ [] → b < r.binsSize) :
    (∃ u x wt old nd es ret, r.pc = .cas u x wt old nd es ret ∧ d x = old ∧ nd < d x ∧
      (x, wt) ∈ c.g.outNeigh u ∧ d' = Function.update d x nd ∧ r'.entries = r.entries + 1) ∨
    (d' = d ∧ r'.entries < r.entries) ∨
    (d' = d ∧ r'.entries = r.entries ∧ r'.cost c pe d < r.cost c pe d) := by
  cases hm with
  | @casWin u x wt old nd es ret hpc hx =>
    rw [hpc] at hok
    obtain ⟨hsuf, hlt, -⟩ := hok
    exact .inl ⟨u, x, wt, old, nd, es, ret, hpc, hx, hx ▸ hlt,
      hsuf.subset (List.mem_cons_self _ _), rfl, SsspRank.entries_push hb _ _⟩
  | drainCopy hpc hc =>
    refine .inr (.inl ⟨rfl, ?_⟩)
    have := SsspRank.entries_clear hc.1
    have : 0 < (r.bins r.curr).length := List.length_pos.2 hc.2.1
    simp only [SsspRank.entries] at *
    omega
  | scanRelax hpc hi | scanSkip hpc hi =>
    refine .inr (.inr ⟨rfl, rfl, ?_⟩)
    rw [SsspRank.cost_setPc, SsspRank.cost, hpc]
    simp only [Pc.cost, Ret.cost, scanCost_of_lt hi]
    omega
  | scanEnd hpc hi =>
    refine .inr (.inr ⟨rfl, rfl, ?_⟩)
    rw [SsspRank.cost_setPc, SsspRank.cost, hpc]
    simp only [Pc.cost, scanCost_of_le (not_lt.1 hi)]
    omega
  | casLose hpc hx =>
    refine .inr (.inr ⟨rfl, rfl, ?_⟩)
    rw [SsspRank.cost_setPc, SsspRank.cost, hpc]
    simp only [Pc.cost, if_neg hx]
    omega
  | edgeEndScan hpc | edgeEndDrain hpc | edgeRead hpc | readCas hpc | readSkip hpc
    | rereadCas hpc | rereadSkip hpc | drainEnd hpc | drainNext hpc =>
    refine .inr (.inr ⟨rfl, rfl, ?_⟩)
    rw [SsspRank.cost_setPc, SsspRank.cost, hpc]
    simp only [Pc.cost, Ret.cost, edgesCost, drainCost, List.length_nil, List.length_cons,
      List.map_cons, List.map_nil, List.sum_cons, List.sum_nil]
    try split_ifs
    all_goals omega

theorem RankMove.iter_eq (hm : RankMove c pe r d r' d') : r'.iter = r.iter := by
  cases hm <;> rfl

end Move

/-! ### One event -/

/-- One event lowers the measure, and grows `iter` plus the bins' entries by at most one. -/
structure Account (c : SsspCfg) (w : SsspWorld) (e : SsspEvent) (w' : SsspWorld) : Prop where
  lt : Prod.Lex (· < ·) (Prod.Lex (· < ·) (· < ·)) (w'.measure c) (w.measure c)
  pot : (w'.ranks 0).iter + w'.entries c ≤ (w.ranks 0).iter + w.entries c +
    (if e.wins w then 1 else 0) + (if (w'.ranks 0).pc = .done then 1 else 0)

section World

variable {c : SsspCfg} {w w' : SsspWorld}

theorem lex_of_entries (hD : w'.distSum c = w.distSum c) (hE : w'.entries c < w.entries c) :
    Prod.Lex (· < ·) (Prod.Lex (· < ·) (· < ·)) (w'.measure c) (w.measure c) := by
  unfold SsspWorld.measure; rw [hD]; exact .right _ (.left _ _ hE)

theorem lex_of_work (hD : w'.distSum c = w.distSum c) (hE : w'.entries c = w.entries c)
    (hL : w'.work c < w.work c) :
    Prod.Lex (· < ·) (Prod.Lex (· < ·) (· < ·)) (w'.measure c) (w.measure c) := by
  unfold SsspWorld.measure; rw [hD, hE]; exact .right _ (.right _ hL)

theorem account_move (h : Inv c w) (hg : ∀ u, ∀ e ∈ c.g.outNeigh u, e.1 < c.g.numNodes)
    {pe : Nat} (hpe : pe < (c.npes : Nat)) {r' : SsspRank} {d' : Nat → Nat}
    (hm : RankMove c pe (w.ranks pe) w.dist r' d') :
    Account c w (.act pe) ⟨d', Function.update w.ranks pe r'⟩ := by
  have hE := sum_update_add (fun _ r => r.entries) w.ranks (mem_range.2 hpe) r'
  have hiter : (Function.update w.ranks pe r' 0).iter = (w.ranks 0).iter := by
    rw [Function.update_apply]; split_ifs with h0
    · subst h0; exact hm.iter_eq
    · rfl
  simp only at hE
  rcases hm.account (h.pc pe hpe) (h.bins pe hpe) with
    ⟨u, x, wt, old, nd, es, ret, hpc, hx, hlt, he, rfl, hr⟩ | ⟨rfl, hr⟩ | ⟨rfl, hr, hc⟩
  · have hD := sum_update_add (fun _ v => v) w.dist (mem_range.2 (hg u _ he)) nd
    have hwin : (SsspEvent.act pe).wins w = true := by simp [SsspEvent.wins, hpc, hx]
    refine ⟨.left _ _ ?_, ?_⟩
    · simp only [SsspWorld.distSum] at hD ⊢; omega
    · simp only [SsspWorld.entries, hiter, hwin, if_true]; omega
  · exact ⟨lex_of_entries rfl (by simp only [SsspWorld.entries]; omega),
      by simp only [SsspWorld.entries, hiter]; omega⟩
  · have hL := sum_update_add (fun q r => r.cost c q w.dist) w.ranks (mem_range.2 hpe) r'
    exact ⟨lex_of_work rfl (by simp only [SsspWorld.entries]; omega)
      (by simp only [SsspWorld.work] at hL ⊢; omega), by simp only [SsspWorld.entries, hiter]; omega⟩

theorem account_reserve (h : Inv c w) {pe : Nat} (hpe : pe < (c.npes : Nat))
    (hr : (w.ranks pe).pc = .reserve) : Account c w (.act pe) (w.reserve pe) := by
  have hD : (w.reserve pe).distSum c = w.distSum c := by
    simp only [SsspWorld.distSum, SsspWorld.reserve_dist]
  have hE : (w.reserve pe).entries c = w.entries c := sum_congr rfl fun q _ =>
    SsspRank.entries_congr (SsspWorld.reserve_bins w pe q) (SsspWorld.reserve_binsSize w pe q)
  have hcost : ∀ q ∈ range c.npes, ((w.reserve pe).ranks q).cost c q (w.reserve pe).dist =
      Function.update (fun q => (w.ranks q).cost c q w.dist) pe 1 q := fun q hq => by
    rw [Function.update_apply, SsspWorld.reserve_dist]
    split_ifs with hq'
    · subst hq'; rw [SsspRank.cost, SsspWorld.reserve_pc, if_pos rfl]; rfl
    · refine SsspRank.cost_of_pc (by rw [SsspWorld.reserve_pc, if_neg hq']) ?_
      have hseg : (w.ranks q).pc.segment = .phase2 := by
        rw [h.ctl.seg q (mem_range.1 hq), ← h.ctl.seg pe hpe, hr]; rfl
      by_contra ha
      rcases Pc.segment_of_active (Bool.not_eq_false _ ▸ ha) with h' | h' <;> rw [hseg] at h' <;>
        cases h'
  have h2 : (w.ranks pe).cost c pe w.dist = 2 := by rw [SsspRank.cost, hr]; rfl
  have hL : (range c.npes).sum (Function.update (fun q => (w.ranks q).cost c q w.dist) pe 1) + 2 =
      w.work c + 1 := by
    rw [← h2]; exact sum_update_add (fun _ n => n) _ (mem_range.2 hpe) 1
  refine ⟨lex_of_work hD hE ?_, by rw [hE, SsspWorld.reserve_iter]; omega⟩
  rw [SsspWorld.work, sum_congr rfl hcost]
  omega

theorem account_fusion (hw : w.AllAt c .wait1) : Account c w .sync
    { w with ranks := fun pe => { w.ranks pe with pc := .drain [] } } := by
  refine ⟨lex_of_work rfl rfl (sum_lt_sum_of_nonempty ⟨0, mem_range.2 c.npes.pos⟩ fun q hq => ?_),
    Nat.le_add_right_of_le (Nat.le_add_right _ _)⟩
  rw [SsspRank.cost_setPc, SsspRank.cost, hw q (mem_range.1 hq)]
  simp [Pc.cost, drainCost]

theorem account_vote (hw : w.AllAt c .wait2) : Account c w .sync (w.vote c) := by
  refine ⟨lex_of_work rfl rfl (sum_lt_sum_of_nonempty ⟨0, mem_range.2 c.npes.pos⟩ fun q hq => ?_),
    Nat.le_add_right_of_le (Nat.le_add_right _ _)⟩
  rw [SsspRank.cost, SsspRank.cost, hw q (mem_range.1 hq)]
  exact Nat.lt_succ_self _

theorem entries_finish {q : Nat} (hq : q < (c.npes : Nat)) :
    ((w.finish c).ranks q).entries + (if (w.ranks q).next < (w.ranks q).binsSize then
      ((w.ranks q).bins (w.ranks q).next).length else 0) = (w.ranks q).entries := by
  rw [SsspRank.entries, SsspWorld.finish_bins hq, SsspWorld.finish_binsSize]
  split_ifs with hn
  · exact SsspRank.entries_clear hn
  · rfl

/-- In Phase 2 the bucket the vote chose is `kMaxBin`, or some rank holds an entry of it. -/
def Chosen (c : SsspCfg) (w : SsspWorld) : Prop :=
  (w.ranks 0).pc.segment = .phase2 → (w.ranks 0).next ≠ kMaxBin →
    ∃ q < (c.npes : Nat), (w.ranks q).next < (w.ranks q).binsSize ∧
      (w.ranks q).bins (w.ranks q).next ≠ []

theorem account_finish (h : Inv c w) (hc : Chosen c w) (hw : w.AllAt c .wait3) :
    Account c w .sync (w.finish c) := by
  have hD : (w.finish c).distSum c = w.distSum c := by
    simp only [SsspWorld.distSum, SsspWorld.finish_dist]
  have hle : ∀ q ∈ range c.npes, ((w.finish c).ranks q).entries ≤ (w.ranks q).entries :=
    fun q hq => by have := entries_finish (c := c) (w := w) (mem_range.1 hq); omega
  have hiter := SsspWorld.finish_iter (c := c) (w := w) 0
  by_cases hn : (w.ranks 0).next = kMaxBin
  · have hdone : ∀ q < (c.npes : Nat), ((w.finish c).ranks q).pc = .done := fun q hq => by
      rw [SsspWorld.finish_pc, if_neg (not_not.2 _)]
      simp only [SsspRank.next, h.ctl.iter q hq, h.ctl.idx q hq]; exact hn
    have hL : (w.finish c).work c < w.work c :=
      sum_lt_sum_of_nonempty ⟨0, mem_range.2 c.npes.pos⟩ fun q hq => by
        rw [SsspRank.cost, SsspRank.cost, hdone q (mem_range.1 hq), hw q (mem_range.1 hq)]
        exact Nat.zero_lt_one
    have hE : (w.finish c).entries c ≤ w.entries c := sum_le_sum hle
    refine ⟨?_, by rw [hiter, if_pos (hdone 0 c.npes.pos)]; omega⟩
    rcases hE.lt_or_eq with hE | hE
    · exact lex_of_entries hD hE
    · exact lex_of_work hD hE hL
  · obtain ⟨q, hq, h1, h2⟩ := hc (by rw [hw 0 c.npes.pos]; rfl) hn
    have hE : (w.finish c).entries c < w.entries c := sum_lt_sum hle ⟨q, mem_range.2 hq, by
      have := entries_finish (c := c) (w := w) hq
      rw [if_pos h1] at this
      have := List.length_pos.2 h2
      omega⟩
    exact ⟨lex_of_entries hD hE, by rw [hiter]; omega⟩

/-! ### The chosen bucket -/

theorem foldr_min_mem (a : Nat) : ∀ l : List Nat, l.foldr min a = a ∨ l.foldr min a ∈ l
  | [] => .inl rfl
  | x :: l => by
    rw [List.foldr_cons]
    rcases min_choice x (l.foldr min a) with h | h <;> rw [h]
    · exact .inr (List.mem_cons_self _ _)
    · exact (foldr_min_mem a l).imp_right (List.mem_cons_of_mem _)

theorem minLocal_mem (c : SsspCfg) (w : SsspWorld) :
    ∃ q < (c.npes : Nat), w.minLocal c = (w.ranks q).localMin := by
  rcases foldr_min_mem (w.ranks 0).localMin ((List.range c.npes).map fun pe => (w.ranks pe).localMin)
    with h | h
  · exact ⟨0, c.npes.pos, h⟩
  · obtain ⟨q, hq, he⟩ := List.mem_map.1 h
    exact ⟨q, List.mem_range.1 hq, he.symm⟩

theorem firstBin_some {bins : Nat → List Nat} {j : Nat} :
    ∀ i k, SsspRank.firstBin bins i k = some j → bins j ≠ [] ∧ i ≤ j ∧ j < i + k
  | _, 0, h => by cases h
  | i, k + 1, h => by
    unfold SsspRank.firstBin at h
    split_ifs at h with hi
    · cases h; exact ⟨hi, le_rfl, by omega⟩
    · obtain ⟨h1, h2, h3⟩ := firstBin_some (i + 1) k h
      exact ⟨h1, by omega, by omega⟩

theorem localMin_bin {r : SsspRank} (hn : r.next = kMaxBin) (hm : r.localMin ≠ kMaxBin) :
    r.localMin < r.binsSize ∧ r.bins r.localMin ≠ [] := by
  cases hf : SsspRank.firstBin r.bins r.curr (r.binsSize - r.curr) with
  | none => simp only [SsspRank.localMin, hf, hn] at hm; exact absurd rfl hm
  | some i =>
    obtain ⟨h1, h2, h3⟩ := firstBin_some _ _ hf
    have hi : r.localMin = i := by
      simp only [SsspRank.localMin, hf, hn] at hm ⊢
      exact (min_choice _ _).resolve_left hm
    rw [hi]
    exact ⟨by omega, h1⟩

theorem SsspRank.voted_next (r : SsspRank) (m : Nat) : (r.voted m).next = m := by
  simp [SsspRank.next, SsspRank.voted, Function.update_noteq (slot_ne _).symm]

theorem chosen_vote (h : Control c w) (hw : w.AllAt c .wait2) : Chosen c (w.vote c) := by
  intro _ hm
  simp only [SsspWorld.vote_ranks, SsspRank.voted_next] at hm ⊢
  obtain ⟨q, hq, hmq⟩ := minLocal_mem c w
  have hnext : (w.ranks q).next = kMaxBin := by
    rw [← (h.loop (by rw [hw 0 c.npes.pos]; decide)).2.1]
    simp only [SsspRank.next, h.iter q hq, h.idx q hq]
  rw [hmq] at hm ⊢
  exact ⟨q, hq, localMin_bin hnext hm⟩

theorem chosen_step (h : Inv c w) (hc : Chosen c w) {e : SsspEvent} (hs : ssspStep c w e = some w') :
    Chosen c w' := by
  rcases ssspStep_cases hs with ⟨pe, hpe, hact, rfl⟩ | ⟨pe, hpe, hr, rfl⟩ | ⟨hw, rfl⟩ |
      ⟨hw, rfl⟩ | ⟨hw, rfl⟩
  · intro hseg
    rw [(sameWords_rankStep (c := c) (w := w) pe).seg 0] at hseg
    rcases Pc.segment_of_active hact with h' | h' <;> rw [h.ctl.seg pe hpe, hseg] at h' <;> cases h'
  · intro hseg hn
    rw [w.reserve_segment hr] at hseg
    rw [SsspWorld.reserve_next] at hn
    obtain ⟨q, hq, h1, h2⟩ := hc hseg hn
    exact ⟨q, hq, by simpa using h1, by simpa using h2⟩
  · intro hseg; cases hseg
  · exact chosen_vote h.ctl hw
  · intro hseg; rw [SsspWorld.finish_pc] at hseg; split_ifs at hseg <;> cases hseg

theorem chosen_of_reach (hs : c.source < c.g.numNodes) (h : SsspReach c w) : Chosen c w := by
  induction h with
  | init => intro h; cases h
  | step hr he ih => exact chosen_step (inv_of_reach hs hr) ih he

/-! ### Every event, every run -/

theorem ssspStep_sync_cases (hs : ssspStep c w .sync = some w') :
    (w.AllAt c .wait1 ∧ w' = { w with ranks := fun pe => { w.ranks pe with pc := .drain [] } }) ∨
    (w.AllAt c .wait2 ∧ w' = w.vote c) ∨ (w.AllAt c .wait3 ∧ w' = w.finish c) := by
  simp only [ssspStep] at hs
  split_ifs at hs with h1 h2 h3 <;> cases hs
  · exact .inl ⟨h1, rfl⟩
  · exact .inr (.inl ⟨h2, rfl⟩)
  · exact .inr (.inr ⟨h3, rfl⟩)

theorem account_step (h : Inv c w) (hc : Chosen c w)
    (hg : ∀ u, ∀ e ∈ c.g.outNeigh u, e.1 < c.g.numNodes) {e : SsspEvent}
    (hs : ssspStep c w e = some w') : Account c w e w' := by
  cases e with
  | act pe =>
    obtain ⟨hpe, ⟨hr, rfl⟩ | ⟨hact, rfl⟩⟩ := ssspStep_act hs
    · exact account_reserve h hpe hr
    · exact account_move h hg hpe (rankStep_move w.dist hact)
  | sync =>
    rcases ssspStep_sync_cases hs with ⟨hw, rfl⟩ | ⟨hw, rfl⟩ | ⟨hw, rfl⟩
    · exact account_fusion hw
    · exact account_vote hw
    · exact account_finish h hc hw

theorem ssspStep_wellFounded (hs : c.source < c.g.numNodes)
    (hg : ∀ u, ∀ e ∈ c.g.outNeigh u, e.1 < c.g.numNodes) :
    WellFounded (fun w' w => SsspReach c w ∧ ∃ e, ssspStep c w e = some w') :=
  Subrelation.wf (fun ⟨hr, _, he⟩ =>
      (account_step (inv_of_reach hs hr) (chosen_of_reach hs hr) hg he).lt)
    (InvImage.wf (SsspWorld.measure c) (wellFounded_lt.prod_lex (wellFounded_lt.prod_lex wellFounded_lt)))

theorem ssspStep_not_done (h : Control c w) {e : SsspEvent} (hs : ssspStep c w e = some w') :
    (w.ranks 0).pc ≠ .done := by
  intro h0
  rcases ssspStep_cases hs with ⟨pe, hpe, hact, -⟩ | ⟨pe, hpe, hr, -⟩ | ⟨hw, -⟩ | ⟨hw, -⟩ | ⟨hw, -⟩
  · rcases Pc.segment_of_active hact with h' | h' <;> rw [h.seg pe hpe, h0] at h' <;> cases h'
  · have := h.seg pe hpe; rw [hr, h0] at this; cases this
  all_goals rw [hw 0 c.npes.pos] at h0; cases h0

theorem ssspRun_iter_entries (hs : c.source < c.g.numNodes)
    (hg : ∀ u, ∀ e ∈ c.g.outNeigh u, e.1 < c.g.numNodes) :
    ∀ (evs : List SsspEvent) {w w' : SsspWorld}, SsspReach c w → ssspRun c w evs = some w' →
      (w'.ranks 0).iter + w'.entries c + (if (w.ranks 0).pc = .done then 1 else 0) ≤
        (w.ranks 0).iter + w.entries c + casWins c w evs + (if (w'.ranks 0).pc = .done then 1 else 0)
  | [], _, _, _, hr => by cases hr; omega
  | e :: evs, w, w', hw, hr => by
    simp only [ssspRun, Option.bind_eq_some] at hr
    obtain ⟨w1, h1, h2⟩ := hr
    have ha := (account_step (inv_of_reach hs hw) (chosen_of_reach hs hw) hg h1).pot
    have ih := ssspRun_iter_entries hs hg evs (.step hw h1) h2
    simp only [casWins, h1, if_neg (ssspStep_not_done (control_of_reach hw) h1)]
    omega

theorem ssspInit_entries (c : SsspCfg) : (ssspInit c).entries c = 0 := by
  simp [SsspWorld.entries, SsspRank.entries, ssspInit]

theorem deltaStep_iter_le (hs : c.source < c.g.numNodes)
    (hg : ∀ u, ∀ e ∈ c.g.outNeigh u, e.1 < c.g.numNodes) {evs : List SsspEvent}
    (hr : ssspRun c (ssspInit c) evs = some w) : (w.ranks 0).iter ≤ casWins c (ssspInit c) evs + 1 := by
  have := ssspRun_iter_entries hs hg evs .init hr
  rw [ssspInit_entries, if_neg (by simp [ssspInit])] at this
  have h0 : ((ssspInit c).ranks 0).iter = 0 := rfl
  split_ifs at this <;> omega

theorem ssspStep_act_parked {q : Nat} (hq : q < (c.npes : Nat)) (h : ssspStep c w (.act q) = none) :
    (w.ranks q).pc = .wait1 ∨ (w.ranks q).pc = .wait2 ∨ (w.ranks q).pc = .wait3 ∨
      (w.ranks q).pc = .done := by
  simp only [ssspStep, if_pos hq] at h
  split at h <;> simp_all

theorem ssspStep_progress (h : Control c w) (hnd : ∃ pe < (c.npes : Nat), (w.ranks pe).pc ≠ .done) :
    ∃ e w', ssspStep c w e = some w' := by
  by_contra hstuck
  have hnone : ∀ e, ssspStep c w e = none := fun e => by
    cases he : ssspStep c w e with
    | none => rfl
    | some w' => exact absurd ⟨e, w', he⟩ hstuck
  have hpark : ∀ q < (c.npes : Nat), _ := fun q hq => ssspStep_act_parked hq (hnone (.act q))
  have hall : ∀ q < (c.npes : Nat), (w.ranks q).pc = (w.ranks 0).pc := fun q hq => by
    have hs := h.seg q hq
    rcases hpark q hq with h1 | h1 | h1 | h1 <;> rcases hpark 0 c.npes.pos with h2 | h2 | h2 | h2 <;>
      rw [h1, h2] at hs ⊢ <;> first | rfl | cases hs
  obtain ⟨pe, hpe, hne⟩ := hnd
  have hsync := hnone .sync
  rcases hpark 0 c.npes.pos with h0 | h0 | h0 | h0
  · have hw : w.AllAt c .wait1 := fun q hq => (hall q hq).trans h0
    simp only [ssspStep, if_pos hw, reduceCtorEq] at hsync
  · rw [ssspStep_sync_wait2 fun q hq => (hall q hq).trans h0] at hsync; cases hsync
  · rw [ssspStep_sync_wait3 fun q hq => (hall q hq).trans h0] at hsync; cases hsync
  · exact hne ((hall pe hpe).trans h0)

end World

/-- `Shmem_DeltaStep` terminates: no run is infinite, every state short of the exit has a next
event, and the iterations exceed the winning compare-and-swaps by at most one. -/
theorem deltaStep_terminates {c : SsspCfg} (hs : c.source < c.g.numNodes)
    (hg : ∀ u, ∀ e ∈ c.g.outNeigh u, e.1 < c.g.numNodes) :
    WellFounded (fun w' w => SsspReach c w ∧ ∃ e, ssspStep c w e = some w') ∧
    (∀ w, SsspReach c w → (∃ pe < (c.npes : Nat), (w.ranks pe).pc ≠ .done) →
      ∃ e w', ssspStep c w e = some w') ∧
    ∀ evs w, ssspRun c (ssspInit c) evs = some w → (w.ranks 0).iter ≤ casWins c (ssspInit c) evs + 1 :=
  ⟨ssspStep_wellFounded hs hg, fun _ hr => ssspStep_progress (control_of_reach hr),
    fun _ _ => deltaStep_iter_le hs hg⟩

theorem weightedDiamond_edges (npes : ℕ+) :
    ∀ u, ∀ e ∈ (weightedDiamond npes).g.outNeigh u, e.1 < (weightedDiamond npes).g.numNodes := by
  intro u e he
  rcases u with _ | _ | _ | _ | u <;> simp [weightedDiamond, WGraph.ofAdj] at he ⊢ <;>
    rcases he with rfl | rfl <;> decide

theorem deltaStep_terminates_diamond :
    (weightedDiamond 2).source < (weightedDiamond 2).g.numNodes ∧
    (∀ u, ∀ e ∈ (weightedDiamond 2).g.outNeigh u, e.1 < (weightedDiamond 2).g.numNodes) ∧
    WellFounded (fun w' w => SsspReach (weightedDiamond 2) w ∧
      ∃ e, ssspStep (weightedDiamond 2) w e = some w') ∧
    (∀ w, SsspReach (weightedDiamond 2) w →
      (∃ pe < ((weightedDiamond 2).npes : Nat), (w.ranks pe).pc ≠ .done) →
        ∃ e w', ssspStep (weightedDiamond 2) w e = some w') ∧
    ∀ evs w, ssspRun (weightedDiamond 2) (ssspInit (weightedDiamond 2)) evs = some w →
      (w.ranks 0).iter ≤ casWins (weightedDiamond 2) (ssspInit (weightedDiamond 2)) evs + 1 :=
  ⟨by decide, weightedDiamond_edges 2, deltaStep_terminates (by decide) (weightedDiamond_edges 2)⟩

end DMM
